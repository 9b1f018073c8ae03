import EasyXv6.Sys.FsState

set_option autoImplicit false

/-!
# Reads, writes and closes of open files

A read only looks at the file system. A write is a run of chunks, each of them a transaction.
-/
namespace EasyXv6.Sys
open Lib Mem Proc Fs Vol

variable {N : ℕ → Node} {T : Dirs} {P Q : List Ref} {L : List (Fin NINODE)} {t : Files}
  {f : Fin NFILE} {ip : Fin NINODE} {i addr : ℕ} {n : ℤ} {many : Prop}

/-- The volume of a state between two calls is looked at. -/
theorem FsState.looked {v : Vol} (h : FsState N T P Q L t) (fsys : Fsys 0 0 N (P ++ Q) L v)
    (look : Looked L t.vol v) : FsState N T P Q L { t with vol := v } :=
  ⟨h.between.looked fsys look, h.world, h.strays, h.held, h.opens⟩

theorem inodeOf_sat {E : String → Files → Prop} (slot : (t.file f).ip = some ip) :
    Comp.Sat (Files.inodeOf f) t E fun jp u => jp = ip ∧ u = t := by
  unfold Files.inodeOf
  refine .get ?_
  rw [slot]
  exact .pure ⟨rfl, rfl⟩

theorem ilock_keeps (h : FsState N T P Q L t) (hi : (ip, i) ∈ P) {E : String → Files → Prop} :
    Comp.Sat (Files.onVol (ilock ip)) t E fun _ u => FsState N T P Q L u ∧ Looked L t.vol u.vol ∧
      u.file = t.file ∧ u.vol.user = t.vol.user := by
  have spec := ilock_sat (E := fun _ _ => False) h.between.fsys (List.mem_append_left Q hi)
  refine .zoom spec (fun _ _ no => no.elim) ?_
  rintro _ v ⟨hv, user, look⟩
  exact ⟨h.looked (hv.weaken fun jp hj => List.mem_cons_of_mem _ hj) look, look, rfl, user⟩

theorem iunlock_keeps (h : FsState N T P Q L t) (hi : (ip, i) ∈ P) {E : String → Files → Prop} :
    Comp.Sat (Files.onVol (iunlock ip)) t E fun _ u => u = t := by
  have spec := iunlock_sat (E := fun _ _ => False) h.between.fsys (List.mem_append_left Q hi)
  refine .zoom spec (fun _ _ no => no.elim) ?_
  rintro _ _ rfl
  rfl

/-- The file offset once a call has returned `r`. -/
def moved (x : File) (r : ℤ) : File := { x with off := x.off + r.toNat }

theorem advance_sat (r : ℤ) {E : String → Files → Prop} :
    Comp.Sat (Files.advance f r) t E fun _ u => u.vol = t.vol ∧
      u.file = Function.update t.file f (moved (t.file f) r) := by
  unfold Files.advance
  refine .ite (fun _ => .modified ⟨rfl, rfl⟩) fun neg => .pure ⟨rfl, ?_⟩
  unfold moved
  rw [Int.toNat_of_nonpos (not_lt.mp neg), Nat.add_zero, Function.update_eq_self]

theorem FsState.advanced {u : Files} (h : FsState N T P Q L t) (r : ℤ) (vol : u.vol = t.vol)
    (file : u.file = Function.update t.file f (moved (t.file f) r)) : FsState N T P Q L u := by
  have set := h.setFile (f := f) (x := moved (t.file f) r) Iff.rfl fun _ => ⟨rfl, rfl, rfl⟩
  exact ⟨vol ▸ set.between, set.world, set.strays, set.held, file ▸ set.opens⟩

/-- `file_read` looks at the file system, and moves the offset. -/
theorem fileRead_keeps (h : FsState N T P Q L t) (live : 0 < (t.file f).ref)
    {E : String → Files → Prop} :
    Comp.Sat (Files.fileRead f addr n) t E fun r u => FsState N T P Q L u ∧ Looked L t.vol u.vol ∧
      u.file = Function.update t.file f (moved (t.file f) r) := by
  obtain ⟨type, ip, i, slot, hi, hL, -⟩ := h.slot live
  have same : t.file = Function.update t.file f (moved (t.file f) (-1)) := by
    unfold moved
    rw [Int.toNat_of_nonpos (by decide), Nat.add_zero, Function.update_eq_self]
  unfold Files.fileRead
  refine .get (.ite (fun _ => .pure ⟨h, .refl L _, same⟩) fun _ => .ite (fun _ => ?_)
    fun bad => absurd type bad)
  refine .call (inodeOf_sat slot) ?_
  rintro jp t' ⟨hjp, same'⟩
  rw [hjp, same']
  refine .call (ilock_keeps h hi) ?_
  rintro _ u ⟨hu, look, file, -⟩
  have read : Comp.Sat (readi ip true addr (t.file f).off (u64 n)) u.vol (fun _ _ => False) _ :=
    readUser_sat hu.between.fsys hL
  refine .call (P := fun (r : ℤ) w => FsState N T P Q L w ∧ Looked L u.vol w.vol ∧ w.file = u.file)
    (.zoom read (fun _ _ no => False.elim no) fun _ v hv => ⟨hu.looked hv.1 hv.2, hv.2, rfl⟩) ?_
  rintro r w ⟨hw, look', file'⟩
  refine .call (advance_sat r) ?_
  rintro _ a ⟨vol, moved'⟩
  have ha := hw.advanced r vol moved'
  refine .call (iunlock_keeps ha hi) ?_
  rintro _ _ rfl
  refine .pure ⟨ha, vol ▸ look.trans look', ?_⟩
  rw [moved', file', file]

section Write

/-- What the write of a chunk of `n` bytes at `off` makes of the file `x`. -/
def Chunked (mem : UserMem) (src off n : ℕ) (x : Node) (r : ℤ) (y : Node) : Prop :=
  r = -1 ∧ OutOfRange x.size off n ∧ y = x ∨
  ¬ OutOfRange x.size off n ∧ (r = n ∧ WrittenNode off n (userBytes mem src) x y ∨
    r = -1 ∧ ¬ Readable true mem src n ∧ 0 < n ∧ FailedNode off x y)

/-- Where a chunk goes in a file of `size` bytes. -/
def chunkOff (x : File) (size : ℕ) : ℕ := if x.append then size else x.off

theorem FsState.of_vol {N' : ℕ → Node} {t' : Files} (h : FsState N T P Q L t)
    (between : Between N' (P ++ Q) L t'.vol) (world : World N' T (P ++ Q) L) (kinds : Kinds P N N')
    (opens : Opens N P t'.file) : FsState N' T P Q L t' :=
  ⟨between, world, h.strays, h.held, opens.kinds kinds⟩

/-- What the cache and the disk agree on before `off`, in its block, is known of the file `y` or, after
    a failure, still agreed on. -/
def ShowsOn (i off : ℕ) (r : ℤ) (y : Node) (s s' : Vol) : Prop :=
  ∀ q a, q < off → q / BSIZE = off / BSIZE → s.Shows i q a →
    y.byte q = some a ∨ r = -1 ∧ s'.Shows i q a

/-- Outside the bytes that are written, the cache and the disk still agree where they did. -/
def StillShows (i size off n : ℕ) (s s' : Vol) : Prop :=
  ∀ q a, OutOfRange size off n ∨ q < off ∨ off + n ≤ q → q < size → s.Shows i q a → s'.Shows i q a

/-- Nothing has been written to the disk. -/
def Unwritten (t u : Files) : Prop := Quiet t.vol u.vol

theorem Unwritten.refl (t : Files) : Unwritten t t := Quiet.refl t.vol

theorem Unwritten.trans (t u v : Files) (h : Unwritten t u) (h' : Unwritten u v) : Unwritten t v :=
  Quiet.trans _ _ _ h h'

theorem onVol_silent {α : Type} {m : Comp Vol α} (h : Silent m) :
    Comp.Always Unwritten (Files.onVol m) :=
  .zoom (fun _ _ hq => hq) h

theorem modFile_silent (f : Fin NFILE) (g : File → File) : Comp.Always Unwritten (Files.modFile f g) :=
  .modify fun t => .refl t

theorem writeChunk_silent (f : Fin NFILE) (ip : Fin NINODE) (addr : ℕ) (n : ℤ) :
    Comp.Always Unwritten (Files.writeChunk f ip addr n) := by
  unfold Files.writeChunk Files.advance
  refine .bind .trans (onVol_silent (ilock_silent ip)) fun _ => .bind .trans (.gets .refl _) fun _ =>
    .bind .trans (modFile_silent _ _) fun _ => .bind .trans (.get .refl) fun _ =>
      .bind .trans (onVol_silent (writei_silent _ _ _ _ _)) fun _ => .bind .trans ?_ fun _ =>
        .bind .trans (onVol_silent (iunlock_silent ip)) fun _ => .pure .refl _
  exact .ite (modFile_silent _ _) (.pure .refl ())

theorem seekEnd_silent (f : Fin NFILE) (ip : Fin NINODE) :
    Comp.Always Unwritten (Files.seekEnd f ip) := by
  unfold Files.seekEnd
  exact .bind .trans (onVol_silent (ilock_silent ip)) fun _ => .bind .trans (.gets .refl _) fun _ =>
    .bind .trans (modFile_silent _ _) fun _ => onVol_silent (iunlock_silent ip)

theorem writeChunk_sat (h : Fsys 1 0 N (P ++ Q) L t.vol)
    (empty : Log.LogCtx.logged t.vol.blk.ctx = []) (hi : (ip, i) ∈ P) (hL : ip ∈ L)
    (file : (N i).type ≠ T_DIR) (h0 : 0 < n) (hmax : n ≤ Files.WRITE_MAX) :
    Comp.Sat (Files.writeChunk f ip addr n) t (Stops many) fun r u => ∃ y m, SameMeta (N i) y ∧
      Fsys 1 m (Function.update N i y) (P ++ Q) L u.vol ∧
        u.vol.blk.bio.disk = t.vol.blk.bio.disk ∧ u.vol.user = t.vol.user ∧
        Chunked t.vol.user addr (chunkOff (t.file f) (N i).size) n.toNat (N i) r y ∧
        ShowsOn i (chunkOff (t.file f) (N i).size) r y t.vol u.vol ∧
        StillShows i (N i).size (chunkOff (t.file f) (N i).size) n.toNat t.vol u.vol ∧
        u.file = Function.update t.file f
          { t.file f with off := chunkOff (t.file f) (N i).size + r.toNat } := by
  have small : n.toNat ≤ 13 * BSIZE := by
    have : Files.WRITE_MAX = (13 * BSIZE : ℕ) := rfl
    omega
  have count : u64 n = n.toNat := by
    refine u64_of_small (Int.le_of_lt h0) (Int.lt_of_le_of_lt hmax ?_)
    decide
  have hiR := List.mem_append_left Q hi
  unfold Files.writeChunk
  have lock := ilock_sat (E := fun _ _ => False) h hiR
  refine .call (P := fun _ u => Fsys 1 0 N (P ++ Q) L u.vol ∧ Looked L t.vol u.vol ∧
    u.file = t.file ∧ u.vol.user = t.vol.user) (.zoom lock (fun _ _ no => False.elim no) ?_) ?_
  · rintro _ v ⟨hv, user, look⟩
    exact ⟨hv.weaken fun jp hj => List.mem_cons_of_mem _ hj, look, rfl, user⟩
  rintro _ u ⟨hu, look, same, user⟩
  refine .gets (.modify (.get ?_))
  rw [hu.size hiR hL]
  obtain ⟨x, hx⟩ : ∃ x, x = (fun y : File => if y.append then { y with off := (N i).size } else y)
    (u.file f) := ⟨_, rfl⟩
  have off : x.off = chunkOff (t.file f) (N i).size := by
    rw [hx, same, chunkOff]
    dsimp only
    split <;> rfl
  have rest : ∀ k, { x with off := k } = { t.file f with off := k } := by
    intro k
    rw [hx, same]
    dsimp only
    split <;> rfl
  rw [← hx, Files.setFile_self, off, count]
  generalize chunkOff (t.file f) (N i).size = o at off ⊢
  have spec : Comp.Sat (writei ip true addr o n.toNat) u.vol (Limit (NINODE + 4) True) _ :=
    writeUser_sat hu (by rw [look.ctx]; exact empty) hiR hL small file trivial
  have write := (writei_silent ip true addr o n.toNat).sat spec
  refine .call (P := fun r w => ∃ y m, SameMeta (N i) y ∧
    Fsys 1 m (Function.update N i y) (P ++ Q) L w.vol ∧
      w.vol.blk.bio.disk = u.vol.blk.bio.disk ∧ w.vol.user = u.vol.user ∧
      Chunked t.vol.user addr o n.toNat (N i) r y ∧ ShowsOn i o r y t.vol w.vol ∧
      StillShows i (N i).size o n.toNat t.vol w.vol ∧ w.file = Function.update u.file f x)
    (.zoom write (fun _ _ bad => Or.inl bad) ?_) ?_
  · have locked : ∀ q a, t.vol.Shows i q a → u.vol.Shows i q a := fun q a =>
      h.shows_looked hiR hL hu hiR hL look
    rintro r v ⟨⟨bad, range, rfl⟩ | ⟨range, y, m, sameMeta, hv, sameVol, tail, keep, cases⟩, disk⟩
    · refine ⟨N i, 0, ⟨rfl, rfl, rfl, rfl⟩, ?_, disk, rfl, Or.inl ⟨bad, range, rfl⟩,
        fun q a _ _ hs => Or.inr ⟨bad, locked q a hs⟩, fun q a _ _ hs => locked q a hs, rfl⟩
      rw [Function.update_eq_self]
      exact hu
    · rw [user] at cases
      exact ⟨y, m, sameMeta, hv, disk, sameVol.user, Or.inr ⟨range, cases⟩, fun q a hq hdiv hs =>
        tail q a hq hdiv (by omega) (locked q a hs), fun q a out hq hs =>
          keep q a (out.resolve_left range) hq (locked q a hs), rfl⟩
  rintro r w ⟨y, m, sameMeta, hw, disk, userW, chunk, shows', still, fileW⟩
  refine .call (advance_sat r) ?_
  rintro _ a ⟨vol, moved'⟩
  have ha := hw
  rw [← vol] at ha
  have unlock := iunlock_sat (E := fun _ _ => False) ha hiR
  refine .call (P := fun _ b => b = a) (.zoom unlock (fun _ _ no => False.elim no) ?_) ?_
  · rintro _ _ rfl
    rfl
  rintro _ b hb
  rw [hb]
  refine .pure ⟨y, m, sameMeta, ha, ?_, ?_, chunk, vol ▸ shows', vol ▸ still, ?_⟩
  · rw [vol, disk, look.disk]
  · rw [vol, userW, user]
  · rw [moved', fileW, Function.update_self, Function.update_idem, moved, rest, off, same]

/-- A chunk, from the start of its transaction to the end. -/
theorem chunk_sat {α : Type} {k : ℤ → Comp Files α} {E : String → Files → Prop}
    {G : α → Files → Prop} (h : FsState N T P Q L t) (hi : (ip, i) ∈ P) (file : (N i).type ≠ T_DIR) (h0 : 0 < n)
    (hmax : n ≤ Files.WRITE_MAX) (stop : ∀ w u, Stops many w u → Unwritten t u → E w u)
    (next : ∀ r y u, FsState (Function.update N i y) T P Q L u → SameMeta (N i) y →
      Chunked t.vol.user addr (chunkOff (t.file f) (N i).size) n.toNat (N i) r y →
      (∀ q a, q < chunkOff (t.file f) (N i).size → q / BSIZE = chunkOff (t.file f) (N i).size / BSIZE →
        q / BSIZE < MAXFILE → t.vol.Shows i q a →
          u.vol.Shows i q a ∧ (y.byte q = some a ∨ r = -1)) →
      StillShows i (N i).size (chunkOff (t.file f) (N i).size) n.toNat t.vol u.vol →
      Log.CrashSafe (fun d => Log.Recoverable t.vol.blk.bio.disk d ∨
        Log.Recoverable u.vol.blk.bio.disk d) t.vol.blk u.vol.blk →
      u.file = Function.update t.file f
        { t.file f with off := chunkOff (t.file f) (N i).size + r.toNat } →
      u.vol.user = t.vol.user → Comp.Sat (k r) u E G) :
    Comp.Sat (Files.onVol beginOp >>= fun _ => Files.writeChunk f ip addr n >>= fun r =>
      Files.onVol endOp >>= fun _ => k r) t E G := by
  have begin' := beginOp_sat (E := fun _ _ => False) h.between
  refine .call (P := fun _ u => Fsys 1 0 N (P ++ Q) L u.vol ∧ u = { t with vol := t.vol.begun })
    (.zoom begin' (fun _ _ no => False.elim no) ?_) ?_
  · rintro _ v ⟨hv, same⟩
    exact ⟨hv, by rw [same]⟩
  rintro _ u ⟨hu, same⟩
  have user : u.vol.user = t.vol.user := by rw [same]; rfl
  have fileU : u.file = t.file := by rw [same]
  have empty : Log.LogCtx.logged u.vol.blk.ctx = [] := by
    rw [same]
    exact h.between.logged
  have begun : Unwritten t u := by
    rw [same]
    exact ⟨rfl, rfl⟩
  have body : Comp.Sat (Files.writeChunk f ip addr n) u (Stops many) _ :=
    writeChunk_sat hu empty hi (h.held _ hi) file h0 hmax
  refine .call ((body.always (writeChunk_silent f ip addr n)).imp
    (fun w v hv => stop w v hv.1 (.trans _ _ _ begun hv.2)) fun _ _ hw => hw) ?_
  rintro r w ⟨⟨y, m, meta', hw, disk, userW, chunk, showsOn, still, fileW⟩, quiet⟩
  have clean : (w.vol.blk.bio.disk 2).headerN = 0 := by
    rw [disk, same]
    exact h.between.clean
  have end' := endOp_sat (E := fun _ _ => False) hw clean
  refine .call (P := fun _ z => Between (Function.update N i y) (P ++ Q) L z.vol ∧
    Ended w.vol z.vol ∧ z.file = w.file) (.zoom end' (fun _ _ no => False.elim no)
      fun _ v hv => ⟨hv.1, hv.2, rfl⟩) ?_
  rintro _ z ⟨hz, ended, fileZ⟩
  have userZ : z.vol.user = w.vol.user := by rw [ended.rest]
  have hiR := List.mem_append_left Q hi
  have hL := h.held _ hi
  rw [fileU, user] at chunk
  rw [fileU] at fileW showsOn still
  have quiet' := Unwritten.trans _ _ _ begun quiet
  have shows' : ∀ q a, t.vol.Shows i q a → u.vol.Shows i q a := fun q a hs => by
    rw [same]
    exact ⟨hs.view, hs.disk⟩
  refine next r y z ?_ meta' chunk (fun q a hq hdiv small hs => ?_) (fun q a out hq hs => ?_) ?_
    (fileZ.trans fileW) (userZ.trans (userW.trans user))
  rotate_left
  · have used : (Function.update N i y i).type ≠ 0 := by
      rw [Function.update_self, meta'.type]
      exact (h.between.fsys.alloc hiR).2.2
    rcases showsOn q a hq hdiv (shows' q a hs) with byte | ⟨bad, here⟩
    · refine ⟨hz.shows ?_ used, Or.inl byte⟩
      rw [Function.update_self, byte]
    · exact ⟨ended.shows hw hiR hL hz.fsys hiR hL small here, Or.inr bad⟩
  · have most := h.between.fsys.size_le hiR hL
    refine ended.shows hw hiR hL hz.fsys hiR hL ?_ (still q a out hq (shows' q a hs))
    simp only [BSIZE] at *
    omega
  · have clean' : Log.Recoverable t.vol.blk.bio.disk t.vol.blk.bio.disk :=
      .of_clean h.between.clean fun _ _ => rfl
    have safe := ended.safe
    rw [quiet'.1] at safe
    exact (Log.CrashSafe.of_same (Or.inl clean') quiet'.1 quiet'.2).trans safe
  refine h.of_vol hz (World.rewrite h.world file meta') (kinds_update meta'.type) ?_
  rw [fileZ, fileW]
  exact h.opens.set Iff.rfl fun _ => ⟨rfl, rfl, rfl⟩

/-- Only the offset of the file `f` may differ. -/
structure SameFile (f : Fin NFILE) (t u : Files) : Prop where
  others : ∀ g, g ≠ f → u.file g = t.file g
  self : u.file f = { t.file f with off := (u.file f).off }

theorem SameFile.refl (f : Fin NFILE) (t : Files) : SameFile f t t := ⟨fun _ _ => rfl, rfl⟩

theorem SameFile.trans {u v : Files} (h : SameFile f t u) (h' : SameFile f u v) : SameFile f t v := by
  refine ⟨fun g hg => (h'.others g hg).trans (h.others g hg), ?_⟩
  rw [h'.self, h.self]

theorem SameFile.of_off {u : Files} {k : ℕ}
    (h : u.file = Function.update t.file f { t.file f with off := k }) : SameFile f t u := by
  refine ⟨fun g hg => ?_, ?_⟩
  · rw [h, Function.update_of_ne hg]
  · rw [h, Function.update_self]

/-- A write changes the contents of one file. -/
structure Wrote (f : Fin NFILE) (i : ℕ) (N N' : ℕ → Node) (t u : Files) : Prop where
  others : ∀ j, j ≠ i → N' j = N j
  same : SameMeta (N i) (N' i)
  file : SameFile f t u
  user : u.vol.user = t.vol.user

theorem Wrote.refl (f : Fin NFILE) (i : ℕ) (N : ℕ → Node) (t : Files) : Wrote f i N N t t :=
  ⟨fun _ _ => rfl, .refl _, .refl f t, rfl⟩

theorem Wrote.trans {N' N'' : ℕ → Node} {u v : Files} (h : Wrote f i N N' t u)
    (h' : Wrote f i N' N'' u v) : Wrote f i N N'' t v :=
  ⟨fun j hj => (h'.others j hj).trans (h.others j hj), h.same.trans h'.same, h.file.trans h'.file,
    h'.user.trans h.user⟩

theorem fileWriteLoop_keeps {fuel : ℕ} {c : ℤ} (h : FsState N T P Q L t) (hi : (ip, i) ∈ P)
    (file : (N i).type ≠ T_DIR) :
    Comp.Sat (Files.fileWriteLoop f ip addr n fuel c) t (Stops many) fun _ u => ∃ N',
      FsState N' T P Q L u ∧ Wrote f i N N' t u := by
  induction fuel generalizing N t c with
  | zero => exact .pure ⟨N, h, .refl f i N t⟩
  | succ fuel ih =>
    unfold Files.fileWriteLoop
    refine .ite (fun more => ?_) fun _ => .pure ⟨N, h, .refl f i N t⟩
    refine chunk_sat h hi file (lt_min (by omega) (by decide)) (min_le_right _ _)
      (fun _ _ stop _ => stop) ?_
    intro r y u hu same chunk _ _ _ fileU user
    have wrote : Wrote f i N (Function.update N i y) t u := by
      refine ⟨fun j hj => Function.update_of_ne hj _ _, ?_, .of_off fileU, user⟩
      rw [Function.update_self]
      exact same
    have file' : (Function.update N i y i).type ≠ T_DIR := by
      rw [Function.update_self, same.type]
      exact file
    refine .ite (fun _ => .pure ⟨_, hu, wrote⟩) fun _ => (ih hu file').post ?_
    rintro _ v ⟨N', hv, wrote'⟩
    exact ⟨N', hv, wrote.trans wrote'⟩

theorem seekEnd_keeps (h : FsState N T P Q L t) (hi : (ip, i) ∈ P) {E : String → Files → Prop} :
    Comp.Sat (Files.seekEnd f ip) t E fun _ u => FsState N T P Q L u ∧ Wrote f i N N t u ∧
      Looked L t.vol u.vol ∧ (u.file f).off = (N i).size := by
  unfold Files.seekEnd
  refine .call (ilock_keeps h hi) ?_
  rintro _ u ⟨hu, look, file, user⟩
  have size := hu.between.fsys.size (List.mem_append_left Q hi) (hu.held _ hi)
  refine .gets (.modify ?_)
  have hset := hu.setFile (f := f) (x := { u.file f with off := (u.vol.inode ip).d.size.toNat })
    Iff.rfl fun _ => ⟨rfl, rfl, rfl⟩
  refine (iunlock_keeps hset hi).post ?_
  rintro _ _ rfl
  refine ⟨hset, ⟨fun _ _ => rfl, .refl _, .of_off (k := (u.vol.inode ip).d.size.toNat) ?_, user⟩, look,
    ?_⟩
  · change Function.update u.file f _ = _
    rw [file]
  · rw [Files.setFile_self]
    exact size

/-- `file_write` changes nothing but the contents of its file. -/
theorem fileWrite_keeps (h : FsState N T P Q L t) (live : 0 < (t.file f).ref) :
    Comp.Sat (Files.fileWrite f addr n) t (Stops many) fun _ u => ∃ N' ip i, FsState N' T P Q L u ∧
      Wrote f i N N' t u ∧ (t.file f).ip = some ip ∧ (ip, i) ∈ P ∧
        (N' = N ∨ (N i).type ≠ T_DIR) := by
  obtain ⟨type, ip, i, slot, hi, hL, write⟩ := h.slot live
  unfold Files.fileWrite
  refine .get (.ite (fun _ => .pure ⟨N, ip, i, h, .refl f i N t, slot, hi, Or.inl rfl⟩)
    fun writable => .ite (fun _ => ?_) fun bad => absurd type bad)
  have file := write (by simpa using writable)
  refine .call (inodeOf_sat slot) ?_
  rintro _ t' ⟨rfl, same'⟩
  rw [same']
  refine .call (P := fun _ u => FsState N T P Q L u ∧ Wrote f i N N t u)
    (.ite (fun _ => (seekEnd_keeps h hi).post fun _ _ hu => ⟨hu.1, hu.2.1⟩) fun _ =>
      .pure ⟨h, .refl f i N t⟩) ?_
  rintro _ u ⟨hu, wrote⟩
  refine .call (fileWriteLoop_keeps hu hi file) ?_
  rintro c v ⟨N', hv, wrote'⟩
  exact .pure ⟨N', _, i, hv, wrote.trans wrote', slot, hi, Or.inr file⟩

end Write

section Close

theorem InUse.congr {s v : Vol} (h : v.view BITMAP = s.view BITMAP) (b : ℕ) :
    InUse v b ↔ InUse s b := by
  unfold InUse
  rw [h]

/-- The slots of `L` that references of `R` still hold. -/
def stillHeld (L : List (Fin NINODE)) (R : List Ref) : List (Fin NINODE) :=
  L.filter fun jp => decide (jp ∈ R.map Prod.fst)

theorem mem_stillHeld {R : List Ref} {jp : Fin NINODE} :
    jp ∈ stillHeld L R ↔ jp ∈ L ∧ jp ∈ R.map Prod.fst := by
  unfold stillHeld
  rw [List.mem_filter, decide_eq_true_iff]

/-- `iput` of a reference to a loaded slot, as a transaction. -/
theorem put_sat {R : List Ref} {s : Vol} (h : Between N ((ip, i) :: R) L s) (hL : ip ∈ L)
    (world : World N T ((ip, i) :: R) L) (held : ∀ x ∈ R, x.1 ∈ L ∨ x.2 = ROOTINO) {cap : ℕ}
    {full : Prop} :
    Comp.Sat (beginOp >>= fun _ => iput ip >>= fun _ => endOp) s (Limit cap full) fun _ v =>
      ∃ N', Between N' R (stillHeld L R) v ∧ World N' T R (stillHeld L R) ∧
        Dropped s ip i T R N N' v := by
  have sub : ∀ jp ∈ stillHeld L R, jp ∈ R.map Prod.fst := fun jp hj => (mem_stillHeld.mp hj).2
  have world' : World N T ((ip, i) :: R) (ip :: stillHeld L R) := by
    refine ⟨world.tree, fun j hj => (world.live j hj).imp id ?_⟩
    rintro ⟨jp, hjp, mem⟩
    refine ⟨jp, ?_, mem⟩
    rcases List.mem_cons.mp mem with e | mem
    · rw [(Prod.mk.inj e).1]
      exact List.mem_cons_self
    · exact List.mem_cons_of_mem _ (mem_stillHeld.mpr ⟨hjp, mem_slots mem⟩)
  refine .call (beginOp_sat h) ?_
  rintro _ _ ⟨hs, rfl⟩
  have hs' := hs.weaken (M := ip :: stillHeld L R) fun jp hj => by
    rcases List.mem_cons.mp hj with rfl | hj
    · exact hL
    · exact (mem_stillHeld.mp hj).1
  refine .call ((iput_silent ip).sat (iput_sat hs' (Nat.zero_le _) world.tree sub)) ?_
  rintro _ u ⟨⟨N', hu, tree, drop⟩, disk⟩
  refine (endOp_sat hu ?_).post ?_
  · rw [disk]
    exact h.clean
  rintro _ v ⟨hv, ended⟩
  have bits := InUse.congr (ended.view BITMAP (by decide) (Nat.le_refl _))
  have drop' : Dropped s ip i T R N N' v :=
    drop.imp id fun ⟨free, unlinked, last, blocks⟩ =>
      ⟨free, unlinked, last, fun b => (bits b).trans (blocks b)⟩
  refine ⟨N', hv, World.dropped world' tree (fun x hx => ?_) drop', drop'⟩
  exact (held x hx).imp (fun hxL => mem_stillHeld.mpr ⟨hxL, List.mem_map_of_mem hx⟩) id

theorem Dropped.kinds {R : List Ref} {s v : Vol} {N' : ℕ → Node} {o : ℤ} {k : ℕ}
    (h : Fsys o k N ((ip, i) :: R) L s) (drop : Dropped s ip i T R N N' v) : Kinds R N N' := by
  intro x hx
  rcases drop with ⟨rfl, -⟩ | ⟨rfl, -, last, -⟩
  · rfl
  · have ne : x.2 ≠ i := by
      rintro rfl
      have := h.slot_eq (List.mem_cons_of_mem _ hx) List.mem_cons_self
      exact last (this ▸ List.mem_map_of_mem hx)
    rw [Function.update_of_ne ne]

theorem setFile_twice (t : Files) (f : Fin NFILE) (x : File) (g : File → File) :
    (t.setFile f x).setFile f (g ((t.setFile f x).file f)) = t.setFile f (g x) := by
  unfold Files.setFile
  dsimp only
  rw [Function.update_self, Function.update_idem]

/-- `file_close` of an open file gives up its reference to the inode with the last one to the
    file. -/
theorem fileClose_keeps (h : FsState N T P Q L t) (live : 0 < (t.file f).ref) :
    Comp.Sat (Files.fileClose f) t (Stops many) fun _ u => ∃ N' P' L', FsState N' T P' Q L' u ∧
      Kinds P' N N' ∧ (∀ g, g ≠ f → u.file g = t.file g) ∧
      (1 < (t.file f).ref ∧ N' = N ∧ P' = P ∧ u.vol = t.vol ∨
        ∃ ip i, (t.file f).ip = some ip ∧ P.Perm ((ip, i) :: P') ∧
          Dropped t.vol ip i T (P' ++ Q) N N' u.vol) := by
  obtain ⟨type, ip, -, slot, -, hL, -⟩ := h.slot live
  unfold Files.fileClose
  refine .get (.ite (fun low => absurd live (by omega)) fun _ => .modify ?_)
  refine .ite (fun more => ?_) fun last => .gets (.modify ?_)
  · have one : 1 < (t.file f).ref := by omega
    refine .pure ⟨N, P, L, h.setFile ?_ fun _ => ⟨rfl, rfl, rfl⟩, .refl P N, fun g hg => ?_,
      Or.inl ⟨one, rfl, rfl, rfl⟩⟩
    · change 0 < (t.file f).ref - 1 ↔ _
      omega
    · exact Files.setFile_of_ne t hg _
  have set := setFile_twice t f { t.file f with ref := (t.file f).ref - 1 } fun x =>
    { x with ref := 0, type := .none }
  obtain ⟨x, hx⟩ : ∃ x : File, x = { t.file f with ref := 0, type := .none } := ⟨_, rfl⟩
  have closed : ¬ 0 < x.ref := by rw [hx]; exact Int.lt_irrefl 0
  dsimp only at set ⊢
  rw [set, ← hx, Files.setFile_self]
  dsimp only
  rw [slot]
  refine .ite (fun _ => ?_) fun bad => absurd type bad
  obtain ⟨i, P', perm, opens⟩ := h.opens.close live slot closed
  have permR : (P ++ Q).Perm ((ip, i) :: (P' ++ Q)) := perm.append_right Q
  have between : Between N ((ip, i) :: (P' ++ Q)) L t.vol :=
    (h.between.fsys.perm permR).between h.between.logged h.between.clean
  have put : Comp.Sat (beginOp >>= fun _ => iput ip >>= fun _ => endOp) t.vol
      (Limit (NINODE + 4) True) _ := put_sat between hL
    (h.world.mono permR.subset (List.Subset.refl L))
    fun y hy => h.heldAll y (permR.symm.subset (List.mem_cons_of_mem _ hy))
  refine .zoom put (fun _ _ bad => Or.inl bad) ?_
  rintro _ v ⟨N', hv, world, drop⟩
  have kinds : Kinds (P' ++ Q) N N' := Dropped.kinds between.fsys drop
  have kindsP : Kinds P' N N' := fun y hy => kinds y (List.mem_append_left Q hy)
  refine ⟨N', P', _, ⟨hv, world, h.strays, fun y hy => ?_, opens.kinds kindsP⟩, kindsP,
    fun g hg => Files.setFile_of_ne t hg _, Or.inr ⟨ip, i, rfl, perm, drop⟩⟩
  refine mem_stillHeld.mpr ⟨h.held y (perm.symm.subset (List.mem_cons_of_mem _ hy)), ?_⟩
  exact List.mem_map_of_mem (List.mem_append_left Q hy)

end Close

end EasyXv6.Sys
