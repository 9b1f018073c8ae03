import EasyXv6.Sys.Appends
import EasyXv6.Sys.Read

set_option autoImplicit false

/-!
# The contents of inodes are flat arrays of bytes

`Io` is a call of `readi` or of `writei`, or one of those that they stand between. A byte of a `Flat`
is left open where a write has failed part way.
-/
namespace EasyXv6.Sys
open Lib Mem Proc Fs Vol

@[ext] structure Flat where
  size : ℕ
  byte : ℕ → Option UInt8

namespace Flat

/-- A write of `n` bytes at `off`. -/
def splice (x : Flat) (off n : ℕ) (bytes : ℕ → UInt8) : Flat :=
  ⟨max x.size (off + n), fun q => if off ≤ q ∧ q < off + n then some (bytes (q - off)) else x.byte q⟩

/-- A write at `off` that has failed part way: the blocks from that of `off` on are left open. -/
def spoil (x : Flat) (off : ℕ) : Flat :=
  ⟨x.size, fun q => if q / BSIZE < off / BSIZE then x.byte q else none⟩

end Flat

/-- The contents of the inode `i`. Where the buffer of a block differs from the disk they are open. -/
def flat (v : Vol) (i : ℕ) : Flat :=
  ⟨(v.file i).size, fun q =>
    if v.view (v.pointer i (Image.dataRef (q / BSIZE))) =
        v.blk.bio.disk (v.pointer i (Image.dataRef (q / BSIZE))) then (v.file i).byte q else none⟩

inductive Io
  | read (i off n dst : ℕ) (mem mem' : UserMem) (r : ℤ)
  | readDe (i off n dst : ℕ) (de' : Bytes DIRENT_SIZE) (r : ℤ)
  | write (i off n : ℕ) (source : ℕ → Option UInt8) (r : ℤ)
  | other

/-- What the contents `F` say of the outcome of a call. -/
def Io.Right (F : ℕ → Flat) : Io → Prop
  | .read i off n dst mem mem' r =>
    (r = readCount (F i).size off n ∧ ∀ k < readCount (F i).size off n, mem'.byteAt (dst + k) ≠ none ∧
      ∀ b, (F i).byte (off + k) = some b → mem'.byteAt (dst + k) = some b) ∨
    r = -1 ∧ ∃ k < readCount (F i).size off n, mem.byteAt (dst + k) = none
  | .readDe i off n dst de' r => r = readCount (F i).size off n ∧
    ∀ k < readCount (F i).size off n, ∀ b, (F i).byte (off + k) = some b → de'.byte (dst + k) = b
  | .write i off n source r => r = n ∧ ¬ OutOfRange (F i).size off n ∨
    r = -1 ∧ (OutOfRange (F i).size off n ∨ ∃ k < n, source k = none)
  | .other => True

instance (size off n : ℕ) : Decidable (OutOfRange size off n) := by
  unfold OutOfRange
  infer_instance

/-- The contents after a call. -/
def Io.after (F : ℕ → Flat) : Io → ℕ → Flat
  | .write i off n source r =>
    if r = -1 then
      if OutOfRange (F i).size off n then F else Function.update F i ((F i).spoil off)
    else Function.update F i ((F i).splice off n fun k => (source k).getD 0)
  | _ => F

/-- Every call has the outcome that the contents before it say. -/
def Follows : (ℕ → Flat) → List Io → Prop
  | _, [] => True
  | F, e :: es => e.Right F ∧ Follows (e.after F) es

/-- The state in which a process with the memory `mem`, and with `de` in the directory entry of the
    function that runs, makes a call. -/
def withData (v : Vol) (mem : UserMem) (de : Bytes DIRENT_SIZE) : Vol :=
  { v with user := mem, de := de }

/-- The bytes that a write takes. -/
def sourceAt (userSrc : Bool) (mem : UserMem) (de : Bytes DIRENT_SIZE) (src k : ℕ) : Option UInt8 :=
  if userSrc then mem.byteAt (src + k) else some (de.byte (src + k))

/-- `readi` and `writei` are called with the inode locked, `writei` in a transaction; directories are
    written by the kernel alone, an entry at a time. -/
inductive IoStep : Vol → Io → Vol → Prop
  | begin {v v' : Vol} (closed : v.blk.ctx.outstanding = 0) (run : beginOp.run v = .ok () v') :
      IoStep v .other v'
  | end {v v' : Vol} (within : v.blk.ctx.outstanding = 1) (run : endOp.run v = .ok () v') :
      IoStep v .other v'
  | lock {v v' : Vol} {ip : Fin NINODE} (run : (ilock ip).run v = .ok () v') : IoStep v .other v'
  | unlock {v v' : Vol} {ip : Fin NINODE} (run : (iunlock ip).run v = .ok () v') : IoStep v .other v'
  | read {v v' : Vol} {ip : Fin NINODE} {dst off n : ℕ} {mem : UserMem} {de : Bytes DIRENT_SIZE} {r : ℤ}
      (loaded : Loaded v ip) (run : (readi ip true dst off n).run (withData v mem de) = .ok r v') :
      IoStep v (.read (v.inode ip).inum off n dst mem v'.user r) v'
  | readDe {v v' : Vol} {ip : Fin NINODE} {dst off n : ℕ} {mem : UserMem} {de : Bytes DIRENT_SIZE}
      {r : ℤ} (loaded : Loaded v ip) (short : dst + n ≤ DIRENT_SIZE)
      (run : (readi ip false dst off n).run (withData v mem de) = .ok r v') :
      IoStep v (.readDe (v.inode ip).inum off n dst v'.de r) v'
  | write {v v' : Vol} {ip : Fin NINODE} {userSrc : Bool} {src off n : ℕ} {mem : UserMem}
      {de : Bytes DIRENT_SIZE} {r : ℤ} (loaded : Loaded v ip) (within : v.blk.ctx.outstanding = 1)
      (file : userSrc = true → (v.inode ip).d.type ≠ T_DIR)
      (short : userSrc = false → src + n ≤ DIRENT_SIZE)
      (run : (writei ip userSrc src off n).run (withData v mem de) = .ok r v') :
      IoStep v (.write (v.inode ip).inum off n (sourceAt userSrc mem de src) r) v'

/-- The inodes that are locked have the contents `F`. -/
def Agrees (F : ℕ → Flat) (v : Vol) : Prop :=
  ∀ ip, Loaded v ip → (v.file (v.inode ip).inum).size = (F (v.inode ip).inum).size ∧
    ∀ q b, (F (v.inode ip).inum).byte q = some b → (v.file (v.inode ip).inum).byte q = some b

/-- A read of a locked inode returns, and a write that has the room it needs writes all its bytes. -/
structure Serves (v : Vol) : Prop where
  read : ∀ ip, Loaded v ip → ∀ mem de userDst dst off n,
    ∃ r v', (readi ip userDst dst off n).run (withData v mem de) = .ok r v'
  write : ∀ ip, Loaded v ip → v.blk.ctx.outstanding = 1 → ∀ mem de userSrc src off n,
    (userSrc = true → (v.inode ip).d.type ≠ T_DIR) →
    ¬ OutOfRange (v.inode ip).d.size.toNat off n →
    (∀ k < n, sourceAt userSrc mem de src k ≠ none) →
    (Log.LogCtx.logged v.blk.ctx).length + roundsLeft off n 0 ≤ 25 →
    missing v.contents (v.inode ip).d (blocksLeft off n 0) ≤ v.contents.free →
      ∃ v', (writei ip userSrc src off n).run (withData v mem de) = .ok (n : ℤ) v'

/-- The files have the contents `F`. -/
structure Known (F : ℕ → Flat) (N : ℕ → Node) : Prop where
  size : ∀ i, (N i).type ≠ 0 → (N i).size = (F i).size
  byte : ∀ i, (N i).type ≠ 0 → ∀ q b, (F i).byte q = some b → (N i).byte q = some b

/-- The file system with at most one transaction open. -/
structure Inside (o : ℤ) (k : ℕ) (N : ℕ → Node) (R : List Ref) (L : List (Fin NINODE)) (v : Vol) :
    Prop where
  fsys : Fsys o k N R L v
  clean : (v.blk.bio.disk 2).headerN = 0
  closed : o = 0 → Log.LogCtx.logged v.blk.ctx = []

variable {F : ℕ → Flat} {o : ℤ} {k : ℕ} {N : ℕ → Node} {R : List Ref} {L : List (Fin NINODE)}
  {v v' : Vol} {ip : Fin NINODE} {i off n dst src : ℕ} {mem : UserMem} {de : Bytes DIRENT_SIZE} {r : ℤ}
  {userSrc : Bool}

section Known

theorem Known.splice (h : Known F N) {y : Node} {bytes : ℕ → UInt8} (used : (N i).type ≠ 0)
    (w : WrittenNode off n bytes (N i) y) :
    Known (Function.update F i ((F i).splice off n bytes)) (Function.update N i y) := by
  refine ⟨fun j hj => ?_, fun j hj q b hq => ?_⟩
  · by_cases hji : j = i
    · subst hji
      rw [Function.update_self, Function.update_self, w.size, h.size j used]
      rfl
    · rw [Function.update_of_ne hji] at hj ⊢
      rw [Function.update_of_ne hji, h.size j hj]
  · by_cases hji : j = i
    · subst hji
      rw [Function.update_self] at hq ⊢
      dsimp only [Flat.splice] at hq
      split at hq
      next within =>
        have new := w.new (q - off) (by omega)
        rwa [Nat.add_sub_cancel' within.1, hq] at new
      next outside => exact w.old q b (by omega) (h.byte j used q b hq)
    · rw [Function.update_of_ne hji] at hj hq ⊢
      exact h.byte j hj q b hq

theorem Known.spoil (h : Known F N) {y : Node} (used : (N i).type ≠ 0)
    (w : FailedNode off (N i) y) :
    Known (Function.update F i ((F i).spoil off)) (Function.update N i y) := by
  refine ⟨fun j hj => ?_, fun j hj q b hq => ?_⟩
  · by_cases hji : j = i
    · subst hji
      rw [Function.update_self, Function.update_self, w.size, h.size j used]
      rfl
    · rw [Function.update_of_ne hji] at hj ⊢
      rw [Function.update_of_ne hji, h.size j hj]
  · by_cases hji : j = i
    · subst hji
      rw [Function.update_self] at hq ⊢
      dsimp only [Flat.spoil] at hq
      split at hq
      next early => exact w.early q b early (h.byte j used q b hq)
      next => cases hq
    · rw [Function.update_of_ne hji] at hj hq ⊢
      exact h.byte j hj q b hq

/-- The contents of a state between two calls. -/
theorem Between.known (h : Between N R L v) : ∃ N', Between N' R L v ∧ Known (flat v) N' := by
  obtain ⟨N', h', settled⟩ := h.settled
  refine ⟨N', h', fun i hi => ?_, fun i hi q b hq => ?_⟩
  · exact (h'.file (h'.used_iff.mpr hi)).2.2.1.symm
  · dsimp only [flat] at hq
    split at hq
    next same => exact settled i (h'.used_iff.mpr hi) q b hq same
    next => cases hq

end Known

section Inside

theorem Fsys.load (h : Fsys o k N R L v) (hl : Loaded v ip) :
    Fsys o k N R (ip :: L) v ∧ (ip, (v.inode ip).inum) ∈ R := by
  have mem := h.refs.mem hl.live
  refine ⟨⟨h.shows, h.refs.congr (fun _ => rfl) (fun _ _ => rfl) fun jp hj => ?_⟩, mem⟩
  rcases List.mem_cons.mp hj with rfl | hj
  · exact ⟨mem_slots mem, hl.valid⟩
  · exact h.refs.loaded jp hj

theorem Fsys.withData (h : Fsys o k N R L v) (mem : UserMem) (de : Bytes DIRENT_SIZE) :
    Fsys o k N R L (withData v mem de) := by
  obtain ⟨V, D, l, at', nodes, fits⟩ := h.shows
  exact ⟨⟨V, D, l, ⟨at'.blk.congr rfl rfl, at'.ok⟩, nodes, fits⟩, h.refs⟩

theorem Fsys.outstanding (h : Fsys o k N R L v) : v.blk.ctx.outstanding = o := by
  obtain ⟨V, D, l, at', -⟩ := h.shows
  exact at'.blk.outstanding

theorem Between.inside (h : Between N R L v) : Inside 0 0 N R L v :=
  ⟨h.fsys, h.clean, fun _ => h.logged⟩

theorem Inside.between (h : Inside 0 k N R L v) : Between N R L v := by
  have empty := h.closed rfl
  obtain ⟨V, D, l, at', nodes, -⟩ := h.fsys.shows
  have none : l = [] := at'.blk.inv.ctx.logged.symm.trans empty
  subst none
  exact ⟨⟨⟨V, D, [], at', nodes, .nil META⟩, h.fsys.refs⟩, empty, h.clean⟩

/-- What only looks at the file system. -/
theorem Inside.looked {L' : List (Fin NINODE)} (h : Inside o k N R L v) (fsys : Fsys o k N R L' v')
    (ctx : v'.blk.ctx = v.blk.ctx) (disk : v'.blk.bio.disk = v.blk.bio.disk) :
    Inside o k N R L' v' :=
  ⟨fsys, by rw [disk, h.clean], fun h0 => by rw [ctx, h.closed h0]⟩

theorem Inside.begin (h : Inside o k N R L v) (closed : v.blk.ctx.outstanding = 0)
    (run : beginOp.run v = .ok () v') : Inside 1 0 N R L v' := by
  obtain rfl : o = 0 := (Fsys.outstanding h.fsys).symm.trans closed
  have spec : Comp.Sat beginOp v (fun _ _ => False) _ := beginOp_sat h.between
  obtain ⟨fsys, rfl⟩ := spec.ok run
  exact ⟨fsys, h.clean, fun h0 => absurd h0 (by decide)⟩

theorem Inside.end (h : Inside o k N R L v) (within : v.blk.ctx.outstanding = 1)
    (run : endOp.run v = .ok () v') : Inside 0 0 N R L v' := by
  obtain rfl : o = 1 := (Fsys.outstanding h.fsys).symm.trans within
  have spec : Comp.Sat endOp v (fun _ _ => False) _ := endOp_sat h.fsys h.clean
  exact Between.inside (spec.ok run).1

theorem Inside.lock (h : Inside o k N R L v) (run : (ilock ip).run v = .ok () v') :
    Inside o k N R (ip :: L) v' := by
  have live : 0 < (v.inode ip).ref := by
    by_contra dead
    unfold ilock at run
    rw [Comp.bind_get_run, Comp.run_ite, if_pos (by omega)] at run
    cases run
  have spec : Comp.Sat (ilock ip) v (fun _ _ => False) _ := ilock_sat h.fsys (h.fsys.refs.mem live)
  obtain ⟨fsys, -, look⟩ := spec.ok run
  exact h.looked fsys look.ctx look.disk

end Inside

section Read

variable {V : Image} {d : Dinode} {E : String → Vol → Prop}

/-- What the directory entry holds after the first bytes. -/
def Fetched (x : Node) (off dst k : ℕ) (_ : UserMem) (de : Bytes DIRENT_SIZE) : Prop :=
  ∀ j < k, ∀ b, x.byte (off + j) = some b → de.byte (dst + j) = b

theorem fetched_delivers (short : dst + n ≤ DIRENT_SIZE) :
    Delivers V d false off dst n (Fetched (V.node d) off dst) := by
  refine ⟨nofun, fun _ k m mem de src got hkm hsrc j hj b hb => ?_⟩
  rw [Bytes.byte_put _ _ _ _ _ (by omega)]
  by_cases old : j < k
  · rw [if_neg (by omega)]
    exact got j old b hb
  · rw [if_pos (by omega), show dst + j - (dst + k) = j - k by omega]
    obtain ⟨-, raw⟩ := Image.byteAt_some (V := V) (d := d) hb
    refine hsrc (j - k) (by omega) b ?_
    rwa [show off + k + (j - k) = off + j by omega]

theorem readUserBytes_sat (h : Fsys o k N R L v) (hi : (ip, i) ∈ R) (hL : ip ∈ L) :
    Comp.Sat (readi ip true dst off n) v E fun r v' => Fsys o k N R L v' ∧ OnlyData v v' ∧
      (r = -1 ∧ (∃ j < readCount (N i).size off n, v.user.byteAt (dst + j) = none) ∨
        r = readCount (N i).size off n ∧
          Stored (N i) off dst (readCount (N i).size off n) v.user v'.user) := by
  have hl := h.isLoaded hL
  have inum := h.inum hi
  have size := h.size hi hL
  obtain ⟨V, D, l, at', rfl, fits⟩ := h.shows
  have node := at'.node hl
  rw [inum] at node
  refine (readi_sat at' hl (arrived_delivers node off dst _ v.user)
    ⟨⟨fun _ hk => absurd hk (Nat.not_lt_zero _), fun _ _ => rfl⟩, fun _ => Iff.rfl⟩).post ?_
  rw [size]
  rintro r u ⟨hu, only, outcome⟩
  refine ⟨⟨⟨V, D, l, hu, rfl, fits⟩, ?_⟩, only, outcome.imp ?_ fun hr => ⟨hr.1, hr.2.1⟩⟩
  · rw [only.inode]
    exact h.refs
  · rintro ⟨failed, -, refused⟩
    refine ⟨failed, ?_⟩
    by_contra mapped
    refine absurd refused (not_refused fun j hj hn => mapped ⟨j, hj, hn⟩)

theorem readDirent_bytes (h : Fsys o k N R L v) (hi : (ip, i) ∈ R) (hL : ip ∈ L)
    (short : dst + n ≤ DIRENT_SIZE) :
    Comp.Sat (readi ip false dst off n) v E fun r v' => Fsys o k N R L v' ∧ OnlyData v v' ∧
      r = readCount (N i).size off n ∧
        Fetched (N i) off dst (readCount (N i).size off n) v'.user v'.de := by
  have hl := h.isLoaded hL
  have inum := h.inum hi
  have size := h.size hi hL
  obtain ⟨V, D, l, at', rfl, fits⟩ := h.shows
  have node := at'.node hl
  rw [inum] at node
  have fewer : dst + readCount (v.inode ip).d.size.toNat off n ≤ DIRENT_SIZE := by
    have : readCount (v.inode ip).d.size.toNat off n ≤ n := by
      unfold readCount
      split
      · exact Nat.zero_le n
      · exact Nat.min_le_left ..
    omega
  refine (readi_sat at' hl (fetched_delivers fewer) fun _ hj => absurd hj (Nat.not_lt_zero _)).post ?_
  rw [size, node]
  rintro r u ⟨hu, only, ⟨-, user, -⟩ | outcome⟩
  · cases user
  · refine ⟨⟨⟨V, D, l, hu, rfl, fits⟩, ?_⟩, only, outcome⟩
    rw [only.inode]
    exact h.refs

end Read

section Write

theorem supplies_source (userSrc : Bool) (mem : UserMem) (de : Bytes DIRENT_SIZE) (src n : ℕ) :
    Supplies userSrc mem de src n fun k => (sourceAt userSrc mem de src k).getD 0 := by
  cases userSrc with
  | false => exact ⟨fun _ _ _ => rfl, nofun⟩
  | true => exact ⟨nofun, (supplies_user mem de src n).user⟩

theorem readable_of_source (mapped : ∀ k < n, sourceAt userSrc mem de src k ≠ none) :
    Readable userSrc mem src n := by
  rintro rfl k m hkm
  refine (UserMem.copyin_copied mem (src + k) m).all.mpr fun j hj => ?_
  rw [Nat.add_assoc]
  exact mapped (k + j) (by omega)

theorem Inside.write (h : Inside 1 k N R L v) (known : Known F N) (hl : Loaded v ip)
    (file : userSrc = true → (v.inode ip).d.type ≠ T_DIR)
    (run : (writei ip userSrc src off n).run (withData v mem de) = .ok r v') :
    Io.Right F (.write (v.inode ip).inum off n (sourceAt userSrc mem de src) r) ∧ ∃ k' N',
      Inside 1 k' N' R (ip :: L) v' ∧
        Known (Io.after F (.write (v.inode ip).inum off n (sourceAt userSrc mem de src) r)) N' := by
  obtain ⟨fsys, hi⟩ := Fsys.load h.fsys hl
  have fsys' := Fsys.withData fsys mem de
  have hL : ip ∈ ip :: L := List.mem_cons_self
  have type := fsys'.type hi hL
  obtain ⟨i, inum⟩ : ∃ i, i = (v.inode ip).inum := ⟨_, rfl⟩
  rw [← inum] at hi type ⊢
  have used := (fsys.alloc hi).2.2
  have size := known.size i used
  have room : RoomFor (fun _ _ => True) (withData v mem de) ip off n True :=
    ⟨Or.inr fun _ _ => trivial, Or.inl trivial⟩
  have stop : ∀ w t, Limit 0 True w t → True := fun _ _ _ => trivial
  have spec : Comp.Sat (writei ip userSrc src off n) (withData v mem de) (fun _ _ => True) _ :=
    (writei_silent ip userSrc src off n).sat (writeFile_sat fsys' hi hL
      (supplies_source userSrc mem de src n) (fun hu => type ▸ file hu) room stop)
  obtain ⟨outcome, disk⟩ := spec.ok run
  have clean : (v'.blk.bio.disk 2).headerN = 0 := by rw [disk]; exact h.clean
  have one : (1 : ℤ) = 0 → Log.LogCtx.logged v'.blk.ctx = [] := fun h0 => absurd h0 (by decide)
  rw [size] at outcome
  rcases outcome with ⟨rfl, out, rfl⟩ | ⟨inRange, y, m, -, wrote, -, -, -, ⟨rfl, w⟩ | ⟨rfl, bad, -, w⟩⟩
  · refine ⟨Or.inr ⟨rfl, Or.inl out⟩, k, N, ⟨fsys', clean, one⟩, ?_⟩
    rw [Io.after, if_pos rfl, if_pos out]
    exact known
  · refine ⟨Or.inl ⟨rfl, inRange⟩, m, _, ⟨wrote, clean, one⟩, ?_⟩
    rw [Io.after, if_neg (by omega)]
    exact known.splice used w
  · refine ⟨Or.inr ⟨rfl, Or.inr ?_⟩, m, _, ⟨wrote, clean, one⟩, ?_⟩
    · by_contra unmapped
      have mapped : ∀ j < n, sourceAt userSrc mem de src j ≠ none :=
        fun j hj hn => unmapped ⟨j, hj, hn⟩
      exact bad (readable_of_source mapped)
    · rw [Io.after, if_pos rfl, if_neg inRange]
      exact known.spoil used w

end Write

/-- The state of the file system is as the contents `F` say. -/
def Consistent (F : ℕ → Flat) (v : Vol) : Prop := ∃ o k N R L, Inside o k N R L v ∧ Known F N

theorem Consistent.step {e : Io} (h : Consistent F v) (st : IoStep v e v') :
    e.Right F ∧ Consistent (e.after F) v' := by
  obtain ⟨o, k, N, R, L, hv, known⟩ := h
  cases st with
  | begin closed run => exact ⟨trivial, 1, 0, N, R, L, hv.begin closed run, known⟩
  | «end» within run => exact ⟨trivial, 0, 0, N, R, L, hv.end within run, known⟩
  | lock run => exact ⟨trivial, o, k, N, R, _, hv.lock run, known⟩
  | @unlock _ ip run =>
    have same : v' = v := by
      unfold iunlock at run
      rw [Comp.bind_get_run, Comp.run_ite] at run
      split at run
      · cases run
      · exact (Outcome.ok.inj run).2.symm
    exact ⟨trivial, o, k, N, R, L, same ▸ hv, known⟩
  | @read _ ip dst off n mem de r loaded run =>
    obtain ⟨fsys, hi⟩ := Fsys.load hv.fsys loaded
    have spec : Comp.Sat (readi ip true dst off n) (withData v mem de) (fun _ _ => False) _ :=
      readUserBytes_sat (Fsys.withData fsys mem de) hi List.mem_cons_self
    obtain ⟨fsys', only, outcome⟩ := spec.ok run
    have used := (fsys.alloc hi).2.2
    rw [known.size _ used] at outcome
    refine ⟨?_, o, k, N, R, _, hv.looked fsys' (by rw [only.rest]; rfl) only.disk, known⟩
    rcases outcome with failed | ⟨count, stored⟩
    · exact Or.inr failed
    · exact Or.inl ⟨count, fun j hj => ⟨(stored.bytes j hj).1, fun b hb =>
        (stored.bytes j hj).2 b (known.byte _ used _ b hb)⟩⟩
  | @readDe _ ip dst off n mem de r loaded short run =>
    obtain ⟨fsys, hi⟩ := Fsys.load hv.fsys loaded
    have spec : Comp.Sat (readi ip false dst off n) (withData v mem de) (fun _ _ => False) _ :=
      readDirent_bytes (Fsys.withData fsys mem de) hi List.mem_cons_self short
    obtain ⟨fsys', only, count, fetched⟩ := spec.ok run
    have used := (fsys.alloc hi).2.2
    rw [known.size _ used] at count fetched
    exact ⟨⟨count, fun j hj b hb => fetched j hj b (known.byte _ used _ b hb)⟩, o, k, N, R, _,
      hv.looked fsys' (by rw [only.rest]; rfl) only.disk, known⟩
  | @write _ ip userSrc src off n mem de r loaded within file short run =>
    obtain rfl : o = 1 := (Fsys.outstanding hv.fsys).symm.trans within
    obtain ⟨right, k', N', hv', known'⟩ := hv.write known loaded file run
    exact ⟨right, 1, k', N', R, _, hv', known'⟩

section Consistent

theorem Consistent.agrees (h : Consistent F v) : Agrees F v := by
  obtain ⟨o, k, N, R, L, hv, known⟩ := h
  intro ip hl
  have used := (hv.fsys.alloc (hv.fsys.refs.mem hl.live)).2.2
  obtain ⟨V, D, l, at', rfl, -⟩ := hv.fsys.shows
  obtain ⟨size, bytes⟩ := at'.file_loaded hl
  exact ⟨size.trans (known.size _ used), fun q b hb => bytes q b (known.byte _ used q b hb)⟩

theorem Consistent.serves (h : Consistent F v) : Serves v := by
  obtain ⟨o, k, N, R, L, hv, -⟩ := h
  refine ⟨fun ip hl mem de userDst dst off n => ?_,
    fun ip hl within mem de userSrc src off n file inRange mapped room free => ?_⟩
  · obtain ⟨V, D, l, at', -⟩ := (Fsys.withData hv.fsys mem de).shows
    have any : Delivers V (v.inode ip).d userDst off dst (readCount (v.inode ip).d.size.toNat off n)
        fun _ _ _ => True :=
      ⟨fun _ _ _ _ _ _ _ _ _ _ => trivial, fun _ _ _ _ _ _ _ _ _ => trivial⟩
    have spec : Comp.Sat (readi ip userDst dst off n) (withData v mem de) (fun _ _ => False) _ :=
      readi_sat at' ⟨hl.live, hl.valid⟩ any trivial
    obtain ⟨r, v', run, -⟩ := spec.returns fun _ _ no => no
    exact ⟨r, v', run⟩
  · obtain rfl : o = 1 := (Fsys.outstanding hv.fsys).symm.trans within
    obtain ⟨fsys, hi⟩ := Fsys.load hv.fsys hl
    have hL : ip ∈ ip :: L := List.mem_cons_self
    have fsys' := Fsys.withData fsys mem de
    have never : ∀ w t, ¬ Limit 0 False w t := by
      rintro w t (⟨no, -⟩ | ⟨-, le⟩)
      · exact no
      · exact absurd le (by decide)
    have enough : RoomFor (fun _ _ => False) (withData v mem de) ip off n False :=
      ⟨Or.inl room, Or.inr free⟩
    have spec : Comp.Sat (writei ip userSrc src off n) (withData v mem de) (fun _ _ => False) _ :=
      writeFile_sat fsys' hi hL (supplies_source userSrc mem de src n)
        (fun hu => fsys.type hi hL ▸ file hu) enough never
    obtain ⟨r, v', run, outcome⟩ := spec.returns fun _ _ no => no
    rw [fsys.size hi hL] at inRange
    rcases outcome with ⟨-, out, -⟩ | ⟨-, y, m, -, -, -, -, -, ⟨rfl, -⟩ | ⟨-, bad, -⟩⟩
    · exact absurd out inRange
    · exact ⟨v', run⟩
    · exact absurd (readable_of_source mapped) bad

theorem Consistent.run {io : List (Io × Vol)} (h : Consistent F v) (run : Along IoStep v io) :
    Follows F (io.map Prod.fst) ∧
      Consistent ((io.map Prod.fst).foldl (fun F e => e.after F) F) (final v io) := by
  induction io generalizing F v with
  | nil => exact ⟨trivial, h⟩
  | cons x rest ih =>
    obtain ⟨right, next⟩ := h.step run.1
    obtain ⟨follows, last⟩ := ih next run.2
    exact ⟨⟨right, follows⟩, last⟩

end Consistent

variable {s : System} {tr : List (Event × System)} {Ly : Layout}

/-- From every reachable state on, every sequence of calls of `readi` and `writei` treats the contents
    of the inodes as flat arrays of bytes. -/
theorem contents_flat (start : Started s) (hr : Along (Step Ly) s tr) {io : List (Io × Vol)}
    (run : Along IoStep (final s tr).files.vol io) :
    Follows (flat (final s tr).files.vol) (io.map Prod.fst) ∧
    Agrees ((io.map Prod.fst).foldl (fun F e => e.after F) (flat (final s tr).files.vol))
      (final (final s tr).files.vol io) ∧
    Serves (final (final s tr).files.vol io) := by
  obtain ⟨N, T, P, Q, L, hs⟩ := (start.run hr).fs
  obtain ⟨N', between, known⟩ := Between.known hs.between
  have begin' : Consistent (flat (final s tr).files.vol) (final s tr).files.vol :=
    ⟨0, 0, N', _, L, Between.inside between, known⟩
  obtain ⟨follows, last⟩ := begin'.run run
  exact ⟨follows, last.agrees, last.serves⟩

section Example

def exampleVol : Vol := exampleAppend.state.files.vol

def exampleBegun : Outcome Vol Unit := beginOp.run exampleVol

theorem one_lt_NINODE : 1 < NINODE := by decide

/-- Two bytes are written to the empty file, and five are read of it. -/
def exampleStored : Outcome Vol ℤ :=
  (writei ⟨1, one_lt_NINODE⟩ true 0 0 2).run (withData exampleBegun.state (stringMem [97, 98]) Bytes.zero)

def exampleEnded : Outcome Vol Unit := endOp.run exampleStored.state

def exampleFetched : Outcome Vol ℤ :=
  (readi ⟨1, one_lt_NINODE⟩ true 0 1 5).run (withData exampleEnded.state (stringMem []) Bytes.zero)

theorem exampleIo : Along IoStep exampleVol
    [(.other, exampleBegun.state),
      (.write (exampleBegun.state.inode 1).inum 0 2 (sourceAt true (stringMem [97, 98]) Bytes.zero 0) 2,
        exampleStored.state), (.other, exampleEnded.state),
      (.read (exampleEnded.state.inode 1).inum 1 5 0 (stringMem []) exampleFetched.state.user 1,
        exampleFetched.state)] := by
  refine ⟨.begin (by decide +kernel) (Outcome.eq_ok ?_), .write ⟨?_, ?_⟩ ?_ ?_ nofun (Outcome.eq_ok ?_),
    .end ?_ (Outcome.eq_ok ?_), .read ⟨?_, ?_⟩ (Outcome.eq_ok ?_), trivial⟩
  all_goals decide +kernel

theorem contents_flat_two : Follows (flat exampleVol)
    [.other, .write (exampleBegun.state.inode 1).inum 0 2
        (sourceAt true (stringMem [97, 98]) Bytes.zero 0) 2, .other,
      .read (exampleEnded.state.inode 1).inum 1 5 0 (stringMem []) exampleFetched.state.user 1] :=
  (contents_flat exampleSystem_started exampleAppend_opened exampleIo).1

/-- A read of 2^64 - 1 bytes, as `sys_read` makes it for a count of -1, returns 0. -/
theorem readi_wraps : Started exampleSystem ∧ Along (Step exampleLayout) exampleSystem
      [(.call proczero (stringMem [SLASH]) (.open 0 O_RDONLY) 0, exampleOpened)] ∧
    Loaded exampleOpened.files.vol 0 ∧ (exampleOpened.files.vol.inode 0).inum = ROOTINO ∧
    (∀ va < MAXVA, (stringMem []).byteAt va ≠ none) ∧
    ∃ v', (readi 0 true 0 1 (u64 (-1))).run
        (withData exampleOpened.files.vol (stringMem []) Bytes.zero) = .ok 0 v' ∧
      (0 : ℤ) ≠ min (u64 (-1)) ((exampleOpened.files.vol.file ROOTINO).size - 1) := by
  have value : ((readi 0 true 0 1 (u64 (-1))).run
      (withData exampleOpened.files.vol (stringMem []) Bytes.zero)).value = some 0 := by
    decide +kernel
  refine ⟨exampleSystem_started, ⟨.call rfl (Outcome.eq_ok exampleSystem_open), trivial⟩,
    ⟨by decide +kernel, by decide +kernel⟩, by decide +kernel, fun va hva => ?_, _,
    Outcome.eq_ok value, by decide +kernel⟩
  rw [UserMem.byteAt, if_neg (Nat.not_le.mpr hva)]
  exact Option.some_ne_none _

end Example

end EasyXv6.Sys
