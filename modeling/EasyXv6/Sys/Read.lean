import EasyXv6.Fs.Between
import EasyXv6.Sys.Run

set_option autoImplicit false

/-!
# What a read stores

`file_read` hands its `int` count to `readi` as an unsigned number of 64 bits.
-/
namespace EasyXv6.Sys
open Lib Mem Proc Fs Vol

/-- The bytes that a read of `n` bytes at `off` is to store. -/
def toRead (size off : ℕ) (n : ℤ) : ℕ := min n.toNat (size - off)

/-- The length of the destination. A negative count names none: the rest of the file bounds it. -/
def destination (size off : ℕ) (n : ℤ) : ℕ := if n < 0 then size - off else n.toNat

/-- `n` bytes of the file `x` from `off` on are in user memory at `addr`, and nothing else has
    changed there. -/
structure Stored (x : Node) (off addr n : ℕ) (mem mem' : UserMem) : Prop where
  bytes : ∀ k < n, mem'.byteAt (addr + k) ≠ none ∧
    ∀ b, x.byte (off + k) = some b → mem'.byteAt (addr + k) = some b
  frame : ∀ va, va < addr ∨ addr + n ≤ va → mem'.byteAt va = mem.byteAt va

/-- A read stores, counts and returns what it is to. -/
structure ReadsExactly (x : Node) (off addr : ℕ) (n : ℤ) (mem mem' : UserMem) (off' : ℕ) (r : ℤ) :
    Prop where
  result : r = if n < 0 then -1 else (toRead x.size off n : ℤ)
  stored : Stored x off addr (toRead x.size off n) mem mem'
  advance : off' = off + toRead x.size off n

section Count

variable {size off : ℕ} {n : ℤ}

theorem readCount_nonneg (hsize : size < 2 ^ 32) (h0 : 0 ≤ n) (hn : n < 2 ^ 31) :
    readCount size off (u64 n) = toRead size off n := by
  rw [readCount, toRead, u64_of_small h0 (by omega)]
  split <;> omega

theorem readCount_le_destination (hsize : size < 2 ^ 32) (hn : n < 2 ^ 31) :
    readCount size off (u64 n) ≤ destination size off n := by
  unfold destination
  split
  next => exact readCount_le _ _ _
  next h0 =>
    rw [readCount_nonneg hsize (Int.not_lt.mp h0) hn]
    exact Nat.min_le_left _ _

end Count

theorem Fsys.size_lt {o : ℤ} {k : ℕ} {N : ℕ → Node} {R : List Ref} {L : List (Fin NINODE)} {v : Vol}
    (h : Fsys o k N R L v) (i : ℕ) : (N i).size < 2 ^ 32 := by
  obtain ⟨V, D, l, -, rfl, -⟩ := h.shows
  unfold nodes
  split
  · exact (D i).size.isLt
  · exact Nat.two_pow_pos 32

section Copies

variable {V : Image} {d : Dinode} {x : Node} {off addr n : ℕ} {mem : UserMem}

/-- What user memory holds after the first bytes, all of them in the file. -/
def Arrived (x : Node) (off addr : ℕ) (mem : UserMem) (k : ℕ) (mem' : UserMem)
    (_ : Bytes DIRENT_SIZE) : Prop :=
  Stored x off addr k mem mem' ∧ ∀ va, mem'.byteAt va = none ↔ mem.byteAt va = none

theorem arrived_delivers (hx : x = V.node d) (off addr n : ℕ) (mem : UserMem) :
    Delivers V d true off addr n (Arrived x off addr mem) := by
  refine ⟨?_, nofun⟩
  rintro - k m mem' de src ⟨stored, mapped⟩ - hsrc ok
  have copied := UserMem.copyout_copied mem' (addr + k) src m
  rw [ok] at copied
  refine ⟨⟨fun j hj => ?_, fun va hva => ?_⟩, fun va => (copied.mapped va).trans (mapped va)⟩
  · by_cases old : j < k
    · rw [copied.frame _ (by omega)]
      exact stored.bytes j old
    · have new := copied.bytes rfl (j - k) (by omega)
      rw [Nat.add_assoc, Nat.add_sub_cancel' (by omega)] at new
      rw [new]
      refine ⟨Option.some_ne_none _, fun b hb => ?_⟩
      rw [hx] at hb
      have raw : V.rawByte d (off + j) = some b := by
        change V.byteAt d _ = some b at hb
        unfold Image.byteAt at hb
        split at hb
        · exact hb
        · cases hb
      rw [hsrc (j - k) (by omega) b]
      rwa [Nat.add_assoc, Nat.add_sub_cancel' (by omega)]
  · rw [copied.frame va (by omega)]
    exact stored.frame va (by omega)

/-- To a destination that is mapped no copy fails. -/
theorem not_refused (mapped : ∀ k < n, mem.byteAt (addr + k) ≠ none) :
    ¬ Refused addr n (Arrived x off addr mem) := by
  rintro ⟨k, m, mem', de, src, ⟨-, same⟩, hkm, failed⟩
  have copied := UserMem.copyout_copied mem' (addr + k) src m
  rw [failed] at copied
  refine absurd (copied.all fun j hj => ?_) (by decide)
  rw [Nat.add_assoc, Ne, same]
  exact mapped (k + j) (by omega)

end Copies

/-- The descriptor names a file that is open for reading and has its inode in the slot `ip`. -/
structure OpenForRead (s : System) (p : Fin NPROC) (fd : Fin NOFILE) (f : Fin NFILE)
    (ip : Fin NINODE) : Prop where
  fd : (s.kernel.proc p).ofile fd = some f
  readable : (s.files.file f).readable = true
  type : (s.files.file f).type = .inode
  ip : (s.files.file f).ip = some ip

variable {o : ℤ} {k : ℕ} {N : ℕ → Node} {R : List Ref} {L : List (Fin NINODE)} {s : System}
  {p : Fin NPROC} {fd : Fin NOFILE} {f : Fin NFILE} {ip : Fin NINODE} {i addr : ℕ} {n : ℤ}

/-- `file_read` stores and returns as many bytes as `readi` counts. -/
theorem fileRead_sat (h : Fsys o k N R L s.files.vol) (hi : (ip, i) ∈ R)
    (file : OpenForRead s p fd f ip)
    (mapped : ∀ k < readCount (N i).size (s.files.file f).off (u64 n),
      s.files.vol.user.byteAt (addr + k) ≠ none) :
    Comp.Sat (Files.fileRead f addr n) s.files (fun _ _ => False) fun r t =>
      r = readCount (N i).size (s.files.file f).off (u64 n) ∧
      Stored (N i) (s.files.file f).off addr r.toNat s.files.vol.user t.vol.user ∧
      (t.file f).off = (s.files.file f).off + r.toNat := by
  unfold Files.fileRead
  refine .get (.ite (fun hr => ?_) fun _ => .ite (fun _ => ?_) fun hty => absurd file.type hty)
  · rw [file.readable] at hr
    cases hr
  unfold Files.inodeOf
  refine .bind (.get ?_)
  rw [file.ip]
  refine .pure ?_
  refine .call (Comp.Sat.zoom (E := fun _ _ => False) (P := fun _ v => Fsys o k N R (ip :: L) v ∧
    v.user = s.files.vol.user) ((ilock_sat h hi).post fun _ _ hv => ⟨hv.1, hv.2.1⟩)
    (fun _ _ he => he) (Q := fun _ t => Fsys o k N R (ip :: L) t.vol ∧
      t.vol.user = s.files.vol.user ∧ t.file = s.files.file) fun _ _ hv => ⟨hv.1, hv.2, rfl⟩) ?_
  rintro _ t ⟨ht, user, same⟩
  have hl := ht.isLoaded List.mem_cons_self
  have size := ht.size hi List.mem_cons_self
  have inum := ht.inum hi
  obtain ⟨V, D, l, at', rfl, fits⟩ := ht.shows
  have node := at'.node hl
  rw [inum] at node
  rw [← size] at mapped ⊢
  generalize hoff : (s.files.file f).off = off at mapped ⊢
  have read := readi_sat (E := fun _ _ => False) at' hl
    (arrived_delivers node off addr _ t.vol.user)
    ⟨⟨fun _ hk => absurd hk (Nat.not_lt_zero _), fun _ _ => rfl⟩, fun _ => Iff.rfl⟩ (n := u64 n)
  refine .call (.zoom read (fun _ _ he => he) (Q := fun (r : ℤ) (u : Files) =>
    r = readCount (t.vol.inode ip).d.size.toNat off (u64 n) ∧
      Stored (nodes V D i) off addr r.toNat s.files.vol.user u.vol.user ∧ u.file = t.file ∧
        (u.vol.inode ip).ref = (t.vol.inode ip).ref) ?_) ?_
  · rintro r v ⟨-, only, ⟨-, -, refused⟩ | ⟨count, arrived⟩⟩
    · exact absurd refused (not_refused (user ▸ mapped))
    · refine ⟨count, ?_, rfl, congrArg Inode.ref (congrFun only.inode ip)⟩
      rw [count, Int.toNat_natCast, ← user]
      exact arrived.1
  rintro r u ⟨count, stored, same', ref⟩
  have hfile : u.file f = s.files.file f := by rw [same', same]
  have live : ¬ (u.vol.inode ip).ref < 1 := by
    rw [ref]
    exact not_lt.mpr hl.live
  unfold Files.advance
  have unlock : ∀ w : Files, w.vol = u.vol → (w.file f).off = off + r.toNat →
      Comp.Sat (Files.onVol (iunlock ip) >>= fun _ => pure r) w (fun _ _ => False) fun r t' =>
        r = readCount (t.vol.inode ip).d.size.toNat off (u64 n) ∧
          Stored (nodes V D i) off addr r.toNat s.files.vol.user t'.vol.user ∧
            (t'.file f).off = off + r.toNat := by
    intro w vol moved
    have ok : Comp.Sat (iunlock ip) w.vol (fun _ _ => False) fun _ v => v = u.vol := by
      unfold iunlock
      rw [vol]
      exact .get (.ite (fun bad => absurd bad live) fun _ => .pure rfl)
    refine .call (.zoom ok (fun _ _ he => he) (Q := fun _ t' => t'.vol = u.vol ∧
      t'.file = w.file) fun _ _ hv => ⟨hv, rfl⟩) ?_
    rintro _ t' ⟨hvol, hfiles⟩
    refine .pure ⟨count, ?_, ?_⟩
    · rw [hvol]
      exact stored
    · rw [hfiles]
      exact moved
  refine .bind (.ite (fun pos => ?_) fun zero => .pure ?_)
  · refine .modified (unlock _ rfl ?_)
    rw [Files.setFile_self]
    dsimp only
    rw [hfile, hoff]
  · refine unlock u rfl ?_
    rw [hfile, hoff, Int.toNat_of_nonpos (not_lt.mp zero), Nat.add_zero]

theorem argFd_run {s : System} {p : Fin NPROC} {fd : Fin NOFILE} {f : Fin NFILE}
    (h : (s.kernel.proc p).ofile fd = some f) : (argFd p fd.val).run s = .ok (some (fd, f)) s := by
  have range : 0 ≤ (fd.val : ℤ) ∧ (fd.val : ℤ) < NOFILE := by omega
  unfold argFd
  rw [Comp.bind_get_run, dif_pos range]
  exact congrArg (fun x => Outcome.ok (Option.map (fun f => (fd, f)) x) s) h

/-- What a read to a destination that is mapped stores is right exactly for the counts that are not
    negative. -/
theorem sysRead_exact_iff (h : Fsys o k N R L s.files.vol) (hi : (ip, i) ∈ R)
    (file : OpenForRead s p fd f ip) (hn : n < 2 ^ 31)
    (mapped : ∀ k < destination (N i).size (s.files.file f).off n,
      s.files.vol.user.byteAt (addr + k) ≠ none) :
    ∃ r s', (sysRead p fd.val addr n).run s = .ok r s' ∧
      (ReadsExactly (N i) (s.files.file f).off addr n s.files.vol.user s'.files.vol.user
        (s'.files.file f).off r ↔ 0 ≤ n) := by
  have hsize := Fsys.size_lt h i
  have count : readCount (N i).size (s.files.file f).off (u64 n) ≤
      destination (N i).size (s.files.file f).off n := readCount_le_destination hsize hn
  obtain ⟨r, t, run, result, stored, off⟩ :=
    (fileRead_sat h hi file fun j hj => mapped j (Nat.lt_of_lt_of_le hj count)).returns
      fun _ _ no => no
  refine ⟨r, { s with files := t }, ?_, fun exact' => ?_, fun h0 => ?_⟩
  · unfold sysRead
    rw [Comp.run_bind_of_ok (argFd_run file.fd)]
    exact Comp.zoom_run_of_ok run
  · by_contra neg
    have := exact'.result
    rw [if_pos (not_le.mp neg)] at this
    omega
  · have exact' : r.toNat = toRead (N i).size (s.files.file f).off n := by
      rw [result, Int.toNat_natCast]
      exact readCount_nonneg hsize h0 hn
    refine ⟨?_, exact' ▸ stored, exact' ▸ off⟩
    rw [if_neg (not_lt.mpr h0), ← exact', result, Int.toNat_natCast]

section Example

/-- The only process has opened the root directory, and all of its memory is mapped. -/
def exampleOpened : System :=
  ((sysOpen proczero 0 O_RDONLY).run (exampleSystem.withUser (stringMem [SLASH]))).state

/-- A read of -1 bytes returns 48. -/
theorem sysRead_negative : (exampleOpened.kernel.proc proczero).ofile 0 = some 0 ∧
    (exampleOpened.files.file 0).readable = true ∧ (exampleOpened.files.file 0).type = .inode ∧
    ((List.range 48).all fun k => (exampleOpened.files.vol.user.byteAt k).isSome) = true ∧
    ∃ r s', (sysRead proczero 0 0 (-1)).run exampleOpened = .ok r s' ∧
      ¬ ∃ x, ReadsExactly x (exampleOpened.files.file 0).off 0 (-1) exampleOpened.files.vol.user
        s'.files.vol.user (s'.files.file 0).off r := by
  have value : ((sysRead proczero 0 0 (-1)).run exampleOpened).value = some 48 := by
    decide +kernel
  refine ⟨by decide +kernel, by decide +kernel, by decide +kernel, by decide +kernel, 48, _,
    Outcome.eq_ok value, ?_⟩
  rintro ⟨x, exact'⟩
  exact absurd (exact'.result.trans (if_pos (by decide))) (by decide)

/-- A process that has a file open on the root, in a memory that is all mapped. -/
theorem exampleReader : ∃ (s : System) (N : ℕ → Node) (R : List Ref), Fsys 0 0 N R [] s.files.vol ∧
    (0, ROOTINO) ∈ R ∧ OpenForRead s proczero 0 0 0 ∧
      ∀ k < MAXVA, s.files.vol.user.byteAt k ≠ none := by
  obtain ⟨N, between, world⟩ := exampleSystem_started.mounted.between
  have value : ((iget ROOTDEV ROOTINO).run exampleSystem.files.vol).value = some 0 := by
    decide +kernel
  have run := Outcome.eq_ok value
  have spec : Comp.Sat (iget ROOTDEV ROOTINO) _ (Limit 1 False) _ :=
    iget_sat between.fsys world.tree.root_type (Nat.zero_le 1)
  have post := spec.ok run
  obtain ⟨vol, hvol⟩ : ∃ vol, vol = ((iget ROOTDEV ROOTINO).run exampleSystem.files.vol).state :=
    ⟨_, rfl⟩
  rw [← hvol] at post
  refine ⟨{
    kernel := { exampleSystem.kernel with
      proc := fun _ => { ProcT.zero with ofile := fun _ => some 0 } }
    files := ⟨{ vol with user := stringMem [] }, fun _ =>
      { File.taken with type := .inode, readable := true, ip := some 0 }⟩ }, N, [(0, ROOTINO)],
    ?_, List.mem_cons_self, ⟨rfl, rfl, rfl, rfl⟩, fun k hk => ?_⟩
  · obtain ⟨V, D, l, at', nodes, fits⟩ := post.1.shows
    exact ⟨⟨V, D, l, ⟨at'.blk.congr rfl rfl, at'.ok⟩, nodes, fits⟩, post.1.refs⟩
  · dsimp only
    rw [UserMem.byteAt, if_neg (Nat.not_le.mpr hk)]
    exact Option.some_ne_none _

theorem sysRead_exact_iff_five : ∃ (s : System) (N : ℕ → Node) (r : ℤ) (s' : System),
    (sysRead proczero 0 0 5).run s = .ok r s' ∧
      (ReadsExactly (N ROOTINO) (s.files.file 0).off 0 5 s.files.vol.user s'.files.vol.user
        (s'.files.file 0).off r ↔ (0 : ℤ) ≤ 5) := by
  obtain ⟨s, N, R, fsys, hi, file, mapped⟩ := exampleReader
  have here : ∀ k < destination (N ROOTINO).size (s.files.file 0).off 5,
      s.files.vol.user.byteAt (0 + k) ≠ none := by
    intro k hk
    have five : k < 5 := hk
    exact mapped (0 + k) (by simp only [MAXVA]; omega)
  obtain ⟨r, s', run, iff⟩ := sysRead_exact_iff fsys hi file (by decide) here
  exact ⟨s, N, r, s', run, iff⟩

end Example

end EasyXv6.Sys
