import EasyXv6.Sys.FileCalls

set_option autoImplicit false

/-!
# The calls that take a path

Each is one transaction. What it does before the transaction ends is in the log, and reaches the
disk with the end.
-/
namespace EasyXv6.Fs.Vol
open Lib

section OpenInode

variable {cap : ℕ} {full : Prop} {N : ℕ → Node} {R : List Ref} {L : List (Fin NINODE)} {s : Vol}
  {T : Dirs} {path : List UInt8} {omode : BitVec 32}

/-- `sys_open` is to make a new file. -/
def Creates (T : Dirs) (path : List UInt8) (omode : BitVec 32) : Prop :=
  omode &&& O_CREATE ≠ 0 ∧ Missing T path

theorem openInode_silent (path : List UInt8) (omode : BitVec 32) :
    Silent (openInode path omode) := by
  unfold openInode
  refine .ite (create_silent _ _ _ _) (.bind (namei_silent _) fun r => ?_)
  split
  · exact .pure _
  · exact .bind (ilock_silent _) fun _ => .gets fun i =>
      .ite (.bind (iunlockput_silent _) fun _ => .pure _) (.pure _)

/-- The search of `sys_open`. A file that is not opened for reading only is no directory. -/
theorem openInode_sat (h : Fsys 1 0 N R L s) (world : World N T R L)
    (sub : ∀ jp ∈ L, jp ∈ R.map Prod.fst) (hcap : used R + 3 ≤ cap) (hfull : full) :
    Comp.Sat (openInode path omode) s (Limit cap full) fun r s' => ∃ Q, Strays [path] Q ∧
      match r with
      | none => Fsys 1 0 N (Q ++ R) L s' ∧ Looked L s s' ∧ ¬ Creates T path omode
      | some ip => ∃ j N' T', World N' T' R L ∧ Kinds R N N' ∧ 0 < T'.links j ∧
          (omode ≠ O_RDONLY → (N' j).type ≠ T_DIR) ∧ Fsys 1 9 N' ((ip, j) :: (Q ++ R)) (ip :: L) s' ∧
          (Creates T path omode ∧ (N j).type = 0 ∨
            ¬ Creates T path omode ∧ N' = N ∧ T' = T ∧ Looked L s s') := by
  unfold openInode
  refine .ite (fun create => ?_) fun find => ?_
  · refine (create_sat h world.tree (Or.inr rfl) sub hcap hfull).post ?_
    rintro (_ | ip) t ⟨rp, ht⟩
    · exact ⟨_, leak_strays rp path, ht.1, ht.2.1, fun new => ht.2.2 new.2⟩
    · obtain ⟨j, N', T', made, ht⟩ := ht
      refine ⟨_, leak_strays rp path, j, N', T', world.grows made.tree made.grows,
        h.kinds made.grows, made.linked, fun _ => made.file rfl, ht, ?_⟩
      obtain ⟨d, x, name, found, hx, new | old⟩ := made.found
      · exact Or.inl ⟨⟨create, (missing_iff found hx).mpr new.1⟩, new.2⟩
      · exact Or.inr ⟨fun new => old.1 ((missing_iff found hx).mp new.2), old.2⟩
  · have never : ¬ Creates T path omode := fun new => find new.1
    refine .call (namei_sat world.tree (by decide) sub (by omega) h) ?_
    rintro (_ | ip) t ⟨look, rp, ht⟩
    · exact .pure ⟨_, leak_strays rp path, ht.2, look, never⟩
    obtain ⟨j, name, -, linked, ht⟩ := ht
    refine .call (ilock_sat ht List.mem_cons_self) ?_
    rintro _ u ⟨hu, -, look'⟩
    refine .gets (.ite (fun bad => ?_) fun good => ?_)
    · refine .call (iunlockput_linked_sat (M := L) hu world.tree (by decide)
        (Nat.add_pos_left linked _) fun jp hj => ⟨List.mem_cons_of_mem _ hj, ?_⟩) ?_
      · rw [List.map_append]
        exact List.mem_append_right _ (sub jp hj)
      rintro _ v ⟨hv, look''⟩
      exact .pure ⟨_, leak_strays rp path, hv, look.trans (look'.trans look''), never⟩
    · refine .pure ⟨_, leak_strays rp path, j, N, T, world, .refl R N, linked, fun write dir => ?_,
        hu.mono (by omega), Or.inr ⟨never, rfl, rfl, look.trans look'⟩⟩
      rw [hu.type List.mem_cons_self List.mem_cons_self] at good
      exact good ⟨dir, write⟩

/-- There are no devices: no call makes one. -/
theorem Fsys.not_device {o : ℤ} {k i : ℕ} {ip : Fin NINODE} (h : Fsys o k N R L s)
    (hi : (ip, i) ∈ R) : (N i).type ≠ T_DEVICE := by
  have used := (h.alloc hi).2.2
  obtain ⟨V, D, l, at', rfl, -⟩ := h.shows
  have alloc := nodes_type_ne used
  have type : (nodes V D i).type = (D i).type := by rw [nodes_of_alloc alloc]; rfl
  rw [type]
  rcases at'.ok.laid.type i alloc with e | e
  · rw [e]
    decide
  · rw [e]
    decide

end OpenInode

section Committed

variable {N : ℕ → Node} {R : List Ref} {L : List (Fin NINODE)} {s u v : Vol}

/-- The disk is the same but for the log. -/
def SameDisk (s v : Vol) : Prop := ∀ b, ¬ Log.InLog b → v.blk.bio.disk b = s.blk.bio.disk b

/-- What was loaded still is, with the same fields. -/
def SameLoaded (s v : Vol) : Prop :=
  ∀ ip, Loaded s ip → Loaded v ip ∧ (v.inode ip).inum = (s.inode ip).inum ∧
    (v.inode ip).d = (s.inode ip).d

/-- A transaction that has only looked at the file system writes nothing. -/
theorem Between.sameDisk (h : Between N R L s) (look : Looked L s.begun u) (ended : Ended u v) :
    SameDisk s v := by
  intro b hb
  have none : Log.LogCtx.logged u.blk.ctx = [] := by
    rw [look.ctx]
    exact h.logged
  rw [ended.disk b hb, none]
  unfold Log.committed
  rw [if_neg List.not_mem_nil, look.disk]
  rfl

/-- The slots whose inodes are loaded. -/
def loadedSlots (s : Vol) : List (Fin NINODE) :=
  (List.finRange NINODE).filter fun ip => decide (0 < (s.inode ip).ref ∧ (s.inode ip).valid = true)

theorem mem_loadedSlots {ip : Fin NINODE} : ip ∈ loadedSlots s ↔ Loaded s ip := by
  unfold loadedSlots
  rw [List.mem_filter, decide_eq_true_iff]
  exact ⟨fun h => ⟨h.2.1, h.2.2⟩, fun h => ⟨List.mem_finRange ip, h.live, h.valid⟩⟩

theorem Fsys.complete {o : ℤ} {k : ℕ} (h : Fsys o k N R L s) :
    Fsys o k N R (loadedSlots s) s := by
  refine ⟨h.shows, h.refs.count, h.refs.inum, fun ip hip => ?_⟩
  have loaded := mem_loadedSlots.mp hip
  exact ⟨mem_slots (h.refs.mem loaded.live), loaded.valid⟩

/-- Slots that keep their copies while references are added. -/
theorem sameLoaded {o o' : ℤ} {k k' : ℕ} {N' : ℕ → Node} {R' : List Ref}
    (h : Fsys o k N R (loadedSlots s) s) (h' : Fsys o' k' N' R' (loadedSlots s) v) (sub : R ⊆ R')
    (keep : ∀ jp ∈ loadedSlots s, (v.inode jp).d = (s.inode jp).d) : SameLoaded s v := by
  intro ip loaded
  have mem := mem_loadedSlots.mpr loaded
  have ref := h.refs.mem loaded.live
  exact ⟨h'.isLoaded mem, h'.inum (sub ref), keep ip mem⟩

end Committed

end EasyXv6.Fs.Vol

namespace EasyXv6.Sys
open Lib Mem Proc Fs Vol

variable {N : ℕ → Node} {T : Dirs} {P Q R : List Ref} {L : List (Fin NINODE)} {s : System}
  {p : Fin NPROC}

/-- Every loaded slot may be listed. -/
theorem FsState.complete {t : Files} (h : FsState N T P Q L t) :
    FsState N T P Q (loadedSlots t.vol) t := by
  have sub : L ⊆ loadedSlots t.vol := fun ip hip => mem_loadedSlots.mpr (h.between.fsys.isLoaded hip)
  exact ⟨h.between.fsys.complete.between h.between.logged h.between.clean,
    h.world.mono (List.Subset.refl _) sub, h.strays, fun x hx => sub (h.held x hx), h.opens⟩

/-- The path at `ptr` in user memory. -/
def pathAt (mem : UserMem) (ptr : ℕ) : Option (List UInt8) :=
  let c := mem.copyin ptr 128
  if c.1 then some (cstr (nameOf c.2) 127) else none

theorem argPath_pathAt (s : System) (ptr : ℕ) :
    (argPath ptr).run s = .ok (pathAt s.files.vol.user ptr) s := rfl

def System.withVol (s : System) (v : Vol) : System :=
  { s with files := { s.files with vol := v } }

theorem onVol_sat {α : Type} {m : Comp Vol α} {F : String → Vol → Prop} {G : α → Vol → Prop}
    {E : String → System → Prop} {K : α → System → Prop} (h : Comp.Sat m s.files.vol F G)
    (hE : ∀ w v, F w v → E w (s.withVol v)) (hQ : ∀ a v, G a v → K a (s.withVol v)) :
    Comp.Sat (onVol m) s E K :=
  .zoom (E := E) (.zoom (E := fun w t => E w { s with files := t })
    (Q := fun a t => K a { s with files := t }) h hE hQ) (fun _ _ he => he) fun _ _ hq => hq

/-- What a call with a path argument does, where its transaction ends in `u`. -/
def PathCall (s : System) (ptr : ℕ) (r : ℤ) (s' : System)
    (G : List UInt8 → ℤ → (ℕ → Node) → List Ref → List (Fin NINODE) → System → Prop) : Prop :=
  pathAt s.files.vol.user ptr = none ∧ r = -1 ∧ s' = s ∨
  ∃ path N' R' L' u, pathAt s.files.vol.user ptr = some path ∧ G path r N' R' L' u ∧
    s' = u.withVol s'.files.vol ∧ Between N' R' L' s'.files.vol ∧
      Ended u.files.vol s'.files.vol

theorem withPath_fs {ptr : ℕ} {body : List UInt8 → Comp System ℤ} {E : String → System → Prop}
    {G : List UInt8 → ℤ → (ℕ → Node) → List Ref → List (Fin NINODE) → System → Prop}
    (h : Between N R L s.files.vol)
    (spec : ∀ path, Fsys 1 0 N R L s.files.vol.begun →
      Comp.Sat (body path) (s.withVol s.files.vol.begun) E fun r u =>
        u.files.vol.blk.bio.disk = s.files.vol.blk.bio.disk ∧ ∃ k N' R' L',
          Fsys 1 k N' R' L' u.files.vol ∧ G path r N' R' L' u) :
    Comp.Sat (withPath ptr body) s E fun r s' => PathCall s ptr r s' G := by
  unfold withPath
  refine .call (P := fun o t => o = pathAt s.files.vol.user ptr ∧ t = s)
    (.of_run (argPath_pathAt s ptr) ⟨rfl, rfl⟩) ?_
  rintro o t ⟨ho, ht⟩
  rw [ht]
  cases o with
  | none => exact .pure (Or.inl ⟨ho.symm, rfl, rfl⟩)
  | some path =>
    refine .call (onVol_sat (beginOp_sat (E := fun _ _ => False) h) (fun _ _ no => False.elim no)
      (K := fun _ u => Fsys 1 0 N R L s.files.vol.begun ∧ u = s.withVol s.files.vol.begun) ?_) ?_
    · rintro _ _ ⟨hv, rfl⟩
      exact ⟨hv, rfl⟩
    rintro _ _ ⟨fsys, rfl⟩
    refine .call (spec path fsys) ?_
    rintro r u ⟨disk, k, N', R', L', hu, hG⟩
    refine .call (onVol_sat (endOp_sat (E := fun _ _ => False) hu (by rw [disk]; exact h.clean))
      (fun _ _ no => False.elim no) (K := fun _ s' => s' = u.withVol s'.files.vol ∧
        Between N' R' L' s'.files.vol ∧ Ended u.files.vol s'.files.vol)
      fun _ v hv => ⟨rfl, hv⟩) ?_
    rintro _ s' hs'
    exact .pure (Or.inr ⟨path, N', R', L', u, ho.symm, hG, hs'⟩)

/-- The file system once a call has left references of its walks behind. -/
theorem FsState.walked {N' : ℕ → Node} {T' : Dirs} {Qc : List Ref} {t t' : Files}
    {paths : List (List UInt8)} (h : FsState N T P Q L t)
    (between : Between N' (Qc ++ (P ++ Q)) L t'.vol) (world : World N' T' (Qc ++ (P ++ Q)) L)
    (kinds : Kinds (P ++ Q) N N') (strays : Strays paths Qc) (file : t'.file = t.file) :
    FsState N' T' P (Qc ++ Q) L t' := by
  have perm : (Qc ++ (P ++ Q)).Perm (P ++ (Qc ++ Q)) := List.perm_append_comm_assoc Qc P Q
  refine ⟨(between.fsys.perm perm).between between.logged between.clean,
    world.mono perm.subset (List.Subset.refl L), fun x hx => ?_, h.held, ?_⟩
  · exact (List.mem_append.mp hx).elim (strays.root x) (h.strays x)
  · rw [file]
    exact h.opens.kinds fun x hx => kinds x (List.mem_append_left Q hx)

/-- What a call has done whose transaction ended in `u`, where `F` holds. -/
def Names (N : ℕ → Node) (P Q : List Ref) (L : List (Fin NINODE)) (s s' : System)
    (paths : List (List UInt8)) (F : Vol → Prop) : Prop :=
  ∃ N' T' Qc u, Strays paths Qc ∧ Kinds (P ++ Q) N N' ∧ FsState N' T' P (Qc ++ Q) L s'.files ∧
    F u ∧ Ended u s'.files.vol ∧ s'.kernel = s.kernel ∧ s'.files.file = s.files.file

theorem names_fs {ptr : ℕ} {m : List UInt8 → Comp Vol ℤ} {many : Prop}
    (paths : List UInt8 → List (List UInt8)) {F : List UInt8 → ℤ → Vol → Prop}
    (h : FsState N T P Q L s.files) (silent : ∀ path, Silent (m path))
    (spec : ∀ path, Fsys 1 0 N (P ++ Q) L s.files.vol.begun →
      Comp.Sat (m path) s.files.vol.begun (Fails (NINODE + 4) True many) fun r v =>
        ∃ Qc N' T' k, Strays (paths path) Qc ∧ World N' T' (Qc ++ (P ++ Q)) L ∧
          Kinds (P ++ Q) N N' ∧ Fsys 1 k N' (Qc ++ (P ++ Q)) L v ∧ F path r v) :
    Comp.Sat (withPath ptr fun path => onVol (m path)) s (fun w u => Stops many w u.files)
      fun r s' => pathAt s.files.vol.user ptr = none ∧ r = -1 ∧ s' = s ∨
        ∃ path, pathAt s.files.vol.user ptr = some path ∧
          Names N P Q L s s' (paths path) (F path r) := by
  refine (withPath_fs (G := fun path r N' R' L' u => ∃ Qc T', R' = Qc ++ (P ++ Q) ∧ L' = L ∧
    Strays (paths path) Qc ∧ World N' T' R' L ∧ Kinds (P ++ Q) N N' ∧ u.kernel = s.kernel ∧
      u.files.file = s.files.file ∧ F path r u.files.vol) h.between fun path fsys => ?_).post ?_
  · refine onVol_sat ((silent path).sat (spec path fsys)) (fun w v bad => bad) ?_
    rintro r v ⟨⟨Qc, N', T', k, strays, world, kinds, hv, hF⟩, disk⟩
    exact ⟨disk, k, N', _, L, hv, Qc, T', rfl, rfl, strays, world, kinds, rfl, rfl, hF⟩
  · rintro r s' (none | ⟨path, N', R', L', u, hpath, hG, hs', between, ended⟩)
    · exact Or.inl none
    obtain ⟨Qc, T', rfl, rfl, strays, world, kinds, kernel, file, hF⟩ := hG
    have file' : s'.files.file = s.files.file := by rw [hs']; exact file
    refine Or.inr ⟨path, hpath, N', T', Qc, u.files.vol, strays, kinds, ?_, hF, ended, ?_, file'⟩
    · exact h.walked between world kinds strays file'
    · rw [hs']
      exact kernel

section NameCalls

variable {ptr : ℕ} (many : Prop)

theorem World.strays {Qc : List Ref} (h : World N T R L) : World N T (Qc ++ R) L :=
  h.mono (List.subset_append_right Qc R) (List.Subset.refl L)

theorem room (R : List Ref) : used R + 4 ≤ NINODE + 4 := Nat.add_le_add_right (used_le R) 4

theorem sysMkdir_fs (h : FsState N T P Q L s.files) :
    Comp.Sat (sysMkdir ptr) s (fun w u => Stops many w u.files) fun r s' =>
      pathAt s.files.vol.user ptr = none ∧ r = -1 ∧ s' = s ∨
        ∃ path, pathAt s.files.vol.user ptr = some path ∧
          Names N P Q L s s' [path] fun u => r = -1 → Looked L s.files.vol.begun u := by
  have cap := room (P ++ Q)
  refine names_fs (fun path => [path])
    (F := fun _ r u => r = -1 → Looked L s.files.vol.begun u) h mkdir_silent fun path fsys => ?_
  refine fails_of_limit ((mkdir_sat fsys h.world h.sub (by omega) trivial).post ?_)
  rintro r v ⟨Qc, strays, ⟨bad, hv, look⟩ | ⟨good, N', T', world, kinds, hv⟩⟩
  · exact ⟨Qc, N, T, 0, strays, World.strays h.world, .refl _ _, hv, fun _ => look⟩
  · refine ⟨Qc, N', T', 9, strays, World.strays world, kinds, hv, fun bad => ?_⟩
    rw [good] at bad
    cases bad

/-- The inodes of the references that stay keep their types when a name goes. -/
theorem Unnamed.kinds {o : ℤ} {k i : ℕ} {ip : Fin NINODE} {N' : ℕ → Node} {v w : Vol}
    (h : Unnamed N N' R ip i v w) (hw : Fsys o k N' R L w) : Kinds R N N' := by
  intro x hx
  by_cases hxi : x.2 = i
  · have used := (hw.alloc hx).2.2
    rw [hxi] at used ⊢
    exact h.kept.resolve_left used
  · exact h.others _ hxi

theorem sysUnlink_fs (h : FsState N T P Q L s.files) :
    Comp.Sat (sysUnlink ptr) s (fun w u => Stops (∃ j, 2 ^ 15 ≤ T.links j) w u.files) fun r s' =>
      pathAt s.files.vol.user ptr = none ∧ r = -1 ∧ s' = s ∨
        ∃ path, pathAt s.files.vol.user ptr = some path ∧
          Names N P Q L s s' [path] fun u => r = -1 → Looked L s.files.vol.begun u := by
  have cap := room (P ++ Q)
  refine names_fs (fun path => [path])
    (F := fun _ r u => r = -1 → Looked L s.files.vol.begun u) h unlink_silent fun path fsys => ?_
  have spec : Comp.Sat (unlink path) s.files.vol.begun
      (Fails (NINODE + 4) True (∃ j, 2 ^ 15 ≤ T.links j)) _ :=
    unlink_sat fsys h.world h.sub h.heldAll (by omega)
  refine spec.post ?_
  rintro r v ⟨Qc, strays, ⟨bad, hv, look⟩ | ⟨good, N', T', ip, j, t, world, hv, -, -, -, -, -, gone⟩⟩
  · exact ⟨Qc, N, T, 0, strays, World.strays h.world, .refl _ _, hv, fun _ => look⟩
  · refine ⟨Qc, N', T', 3, strays, world, fun x hx => ?_, hv, fun bad => ?_⟩
    · exact Unnamed.kinds gone hv x (List.mem_append_right Qc hx)
    · rw [good] at bad
      cases bad

/-- What the transaction of a `sys_link` that returns -1 has done. -/
def LinkFailed (N : ℕ → Node) (T : Dirs) (L : List (Fin NINODE)) (s : Vol) (oldpath : List UInt8)
    (u : Vol) : Prop :=
  Looked L s u ∧ (∀ i, ¬ LinkSource N T oldpath i) ∨ ∃ i, LinkSource N T oldpath i ∧ Resaved i L s u

theorem sysLink_fs {oldptr newptr : ℕ} (h : FsState N T P Q L s.files) :
    Comp.Sat (sysLink oldptr newptr) s (fun w u => Stops many w u.files) fun r s' =>
      (pathAt s.files.vol.user oldptr = none ∨ pathAt s.files.vol.user newptr = none) ∧ r = -1 ∧
          s' = s ∨
        ∃ oldpath newpath, pathAt s.files.vol.user oldptr = some oldpath ∧
          pathAt s.files.vol.user newptr = some newpath ∧
          Names N P Q L s s' [oldpath, newpath] fun u =>
            r = -1 → LinkFailed N T L s.files.vol.begun oldpath u := by
  have cap := room (P ++ Q)
  unfold sysLink
  refine .call (P := fun o t => o = pathAt s.files.vol.user oldptr ∧ t = s)
    (.of_run (argPath_pathAt s oldptr) ⟨rfl, rfl⟩) ?_
  rintro o t ⟨ho, ht⟩
  rw [ht]
  cases o with
  | none => exact .pure (Or.inl ⟨Or.inl ho.symm, rfl, rfl⟩)
  | some oldpath =>
    refine (names_fs (fun path => [oldpath, path])
      (F := fun _ r u => r = -1 → LinkFailed N T L s.files.vol.begun oldpath u) h
      (link_silent oldpath) fun path fsys => ?_).post ?_
    · refine fails_of_limit ((link_sat fsys h.world h.sub cap trivial).post ?_)
      rintro r v ⟨Qc, N', T', strays, world, kinds, hv, ⟨-, failed⟩ | good⟩
      · exact ⟨Qc, N', T', 9, strays, World.strays world, kinds, hv, fun _ => failed⟩
      · refine ⟨Qc, N', T', 9, strays, World.strays world, kinds, hv, fun bad => ?_⟩
        rw [good] at bad
        cases bad
    · rintro r s' (⟨none, bad, same⟩ | ⟨path, hpath, names⟩)
      · exact Or.inl ⟨Or.inr none, bad, same⟩
      · exact Or.inr ⟨oldpath, path, ho.symm, hpath, names⟩

end NameCalls

section Open

variable {path : List UInt8} {omode : BitVec 32} {f : Fin NFILE}

/-- The same files are open. What a free entry holds does not matter. -/
def SameOpen (t u : Files) : Prop :=
  ∀ f, (u.file f).ref = (t.file f).ref ∧ (0 < (t.file f).ref → u.file f = t.file f)

theorem SameOpen.refl (t : Files) : SameOpen t t := fun _ => ⟨rfl, fun _ => rfl⟩

/-- A free entry stays free. -/
theorem SameOpen.of_free {t u : Files} {x : File} (free : (t.file f).ref = 0) (hx : x.ref = 0)
    (h : u.file = Function.update t.file f x) : SameOpen t u := by
  intro g
  rw [h]
  by_cases hg : g = f
  · rw [hg, Function.update_self, hx, free]
    exact ⟨rfl, fun live => absurd live (Int.lt_irrefl 0)⟩
  · rw [Function.update_of_ne hg]
    exact ⟨rfl, fun _ => rfl⟩

theorem Opens.sameOpen {t u : Files} (h : Opens N P t.file) (same : SameOpen t u) :
    Opens N P u.file := by
  have uses : ∀ ip, slotUses u.file ip = slotUses t.file ip := fun ip =>
    Finset.sum_congr rfl fun f _ => by
      rw [(same f).1]
      by_cases live : 0 < (t.file f).ref
      · rw [(same f).2 live]
      · rw [if_neg fun hh => live hh.1, if_neg fun hh => live hh.1]
  refine ⟨fun ip => (h.count ip).trans (uses ip).symm, fun f live => ?_⟩
  rw [(same f).1] at live
  rw [(same f).2 live]
  exact h.file f live

/-- No file or no descriptor is free. -/
def Exhausted (s : System) (p : Fin NPROC) : Prop :=
  (∀ f, (s.files.file f).ref ≠ 0) ∨ ∀ fd, (s.kernel.proc p).ofile fd ≠ none

theorem allocFile_fs {E : String → System → Prop} :
    Comp.Sat (onFiles Files.allocFile) s E fun o u => match o with
      | none => u = s ∧ ∀ f, (s.files.file f).ref ≠ 0
      | some f => (s.files.file f).ref = 0 ∧ u = { s with files := s.files.setFile f .taken } := by
  refine Comp.Sat.zoom (F := fun _ _ => False) (P := fun o t => match o with
    | none => t = s.files ∧ ∀ f, (s.files.file f).ref ≠ 0
    | some f => (s.files.file f).ref = 0 ∧ t = s.files.setFile f .taken) ?_
    (fun _ _ no => False.elim no) ?_
  · unfold Files.allocFile
    refine .get ?_
    split
    next f hf =>
      have free : (s.files.file f).ref = 0 := by simpa using List.find?_some hf
      exact .modify (.pure ⟨free, rfl⟩)
    next hn =>
      refine .pure ⟨rfl, fun f free => ?_⟩
      have := List.find?_eq_none.mp hn f (List.mem_finRange f)
      exact this (by simpa using free)
  · rintro (_ | f) t ht
    · exact ⟨by rw [ht.1], ht.2⟩
    · exact ⟨ht.1, by rw [ht.2]⟩

theorem fdalloc_fs {E : String → System → Prop} :
    Comp.Sat (fdalloc p f) s E fun o u => u.files = s.files ∧ match o with
      | none => u = s ∧ ∀ fd, (s.kernel.proc p).ofile fd ≠ none
      | some _ => True := by
  unfold fdalloc
  refine .get ?_
  split
  next fd _ => exact .modify (.pure ⟨rfl, trivial⟩)
  next hn =>
    refine .pure ⟨rfl, rfl, fun fd free => ?_⟩
    exact List.find?_eq_none.mp hn fd (List.mem_finRange fd) (by simpa using free)

/-- A file that has only been taken is closed without a trace. -/
theorem fileClose_taken {t : Files} (h : t.file f = .taken) {E : String → Files → Prop} :
    Comp.Sat (Files.fileClose f) t E fun _ u => u = t.setFile f { File.taken with ref := 0 } := by
  unfold Files.fileClose
  refine .get ?_
  rw [h]
  refine .ite (fun low => absurd low (by decide)) fun _ => .modify ?_
  refine .ite (fun more => absurd more (by decide)) fun _ => .gets (.modify ?_)
  rw [h]
  have set := setFile_twice t f { File.taken with ref := File.taken.ref - 1 } fun x =>
    { x with ref := 0, type := .none }
  dsimp only at set ⊢
  rw [set]
  exact .ite (fun bad => absurd bad (by decide)) fun _ => .pure rfl

/-- What the transaction of a `sys_open` has done before it ends, in `u`. -/
def OpenEnds (N : ℕ → Node) (T : Dirs) (P Q : List Ref) (L : List (Fin NINODE)) (p : Fin NPROC)
    (omode : BitVec 32) (s : System) (path : List UInt8) (r : ℤ) (N' : ℕ → Node) (R' : List Ref)
    (L' : List (Fin NINODE)) (u : System) : Prop :=
  ∃ Qc T', Strays [path] Qc ∧ Kinds (P ++ Q) N N' ∧
    (r = -1 ∧ R' = Qc ++ (P ++ Q) ∧ L' = L ∧ World N' T' R' L ∧ u.kernel = s.kernel ∧
        SameOpen s.files u.files ∧
        (¬ Creates T path omode ∧ Looked L s.files.vol u.files.vol ∨
          Creates T path omode ∧ Exhausted s p ∧ ∃ j, (N j).type = 0 ∧ (N' j).type ≠ 0) ∨
      0 ≤ r ∧ ∃ ip j, R' = (ip, j) :: (Qc ++ (P ++ Q)) ∧ L' = ip :: L ∧ World N' T' R' L' ∧
        Opens N' ((ip, j) :: P) u.files.file)

theorem openBody_fs (fsys : Fsys 1 0 N (P ++ Q) L s.files.vol) (world : World N T (P ++ Q) L)
    (sub : ∀ jp ∈ L, jp ∈ (P ++ Q).map Prod.fst) (opens : Opens N P s.files.file) {many : Prop} :
    Comp.Sat (openBody p omode path) s (fun w u => Stops many w u.files) fun r u =>
      u.files.vol.blk.bio.disk = s.files.vol.blk.bio.disk ∧ ∃ k N' R' L',
        Fsys 1 k N' R' L' u.files.vol ∧ OpenEnds N T P Q L p omode s path r N' R' L' u := by
  have cap := room (P ++ Q)
  unfold openBody
  have spec : Comp.Sat (openInode path omode) s.files.vol (Limit (NINODE + 4) True) _ :=
    openInode_sat fsys world sub (by omega) trivial
  refine .call (onVol_sat ((openInode_silent path omode).sat spec) (fun _ _ bad => Or.inl bad)
    (K := fun o u => ∃ v, u = s.withVol v ∧ v.blk.bio.disk = s.files.vol.blk.bio.disk ∧
      ∃ Qc, Strays [path] Qc ∧ match o with
      | none => Fsys 1 0 N (Qc ++ (P ++ Q)) L v ∧ Looked L s.files.vol v ∧ ¬ Creates T path omode
      | some ip => ∃ j N' T', World N' T' (P ++ Q) L ∧ Kinds (P ++ Q) N N' ∧ 0 < T'.links j ∧
          (omode ≠ O_RDONLY → (N' j).type ≠ T_DIR) ∧
          Fsys 1 9 N' ((ip, j) :: (Qc ++ (P ++ Q))) (ip :: L) v ∧
          (Creates T path omode ∧ (N j).type = 0 ∨
            ¬ Creates T path omode ∧ N' = N ∧ T' = T ∧ Looked L s.files.vol v))
    fun o v hv => ⟨v, rfl, hv.2, hv.1⟩) ?_
  rintro (_ | ip) _ ⟨v, rfl, disk, Qc, strays, found⟩
  · obtain ⟨hv, look, never⟩ := found
    exact .pure ⟨disk, 0, N, _, L, hv, Qc, T, strays, .refl _ _, Or.inl ⟨rfl, rfl, rfl,
      World.strays world, rfl, .refl _, Or.inl ⟨never, look⟩⟩⟩
  obtain ⟨j, N', T', world', kinds, linked, write, hv, made⟩ := found
  have hL : ∀ jp ∈ L, jp ∈ ip :: L ∧ jp ∈ (Qc ++ (P ++ Q)).map Prod.fst := by
    intro jp hj
    refine ⟨List.mem_cons_of_mem _ hj, ?_⟩
    rw [List.map_append]
    exact List.mem_append_right _ (sub jp hj)
  -- where a table is full, the inode is given up
  have back : ∀ u : System, u.files.vol = v → u.kernel = s.kernel → SameOpen s.files u.files →
      Exhausted s p → Comp.Sat (onVol (iunlockput ip) >>= fun _ => pure (-1)) u
        (fun w u => Stops many w u.files) fun r u =>
          u.files.vol.blk.bio.disk = s.files.vol.blk.bio.disk ∧ ∃ k N' R' L',
            Fsys 1 k N' R' L' u.files.vol ∧ OpenEnds N T P Q L p omode s path r N' R' L' u := by
    intro u vol kernel same full
    have spec : Comp.Sat (iunlockput ip) v (Limit (NINODE + 4) True) _ :=
      iunlockput_linked_sat hv world'.tree (by decide) (Nat.add_pos_left linked _) hL
    have put := (iunlockput_silent ip).sat spec
    rw [← vol] at put
    refine .call (onVol_sat put (fun _ _ bad => Or.inl bad) (K := fun _ z =>
      z = u.withVol z.files.vol ∧ (Fsys 1 9 N' (Qc ++ (P ++ Q)) L z.files.vol ∧
        Looked L u.files.vol z.files.vol) ∧
          z.files.vol.blk.bio.disk = u.files.vol.blk.bio.disk) fun _ z hz => ⟨rfl, hz⟩) ?_
    rintro _ z ⟨same', ⟨hz, look⟩, disk'⟩
    have fileZ : z.files.file = u.files.file := by rw [same']; rfl
    refine .pure ⟨by rw [disk', vol, disk], 9, N', _, L, hz, Qc, T', strays, kinds,
      Or.inl ⟨rfl, rfl, rfl, World.strays world', ?_, ?_, ?_⟩⟩
    · rw [same']
      exact kernel
    · intro g
      rw [fileZ]
      exact same g
    · rcases made with ⟨new, free⟩ | ⟨never, rfl, rfl, look'⟩
      · exact Or.inr ⟨new, full, j, free, (hv.alloc List.mem_cons_self).2.2⟩
      · rw [vol] at look
        exact Or.inl ⟨never, look'.trans look⟩
  refine .call allocFile_fs ?_
  rintro (_ | f) u hu
  · exact back u (by rw [hu.1]; rfl) (by rw [hu.1]; rfl) (by rw [hu.1]; exact .refl _)
      (Or.inl hu.2)
  obtain ⟨free, hu⟩ := hu
  change (s.files.file f).ref = 0 at free
  refine .call fdalloc_fs ?_
  rintro (_ | fd) w ⟨hw, rest⟩
  · obtain ⟨rfl, full⟩ := rest
    have taken : w.files.file f = .taken := by
      rw [hu]
      exact Files.setFile_self _ f _
    have close := fileClose_taken (E := fun _ _ => False) taken
    refine .call (P := fun _ z => z =
      ⟨w.kernel, w.files.setFile f { File.taken with ref := 0 }⟩)
        (.zoom close (fun _ _ no => False.elim no) fun _ _ hz => by rw [hz]) ?_
    rintro _ z hz
    have same : SameOpen s.files z.files := by
      refine .of_free (f := f) (x := { File.taken with ref := 0 }) free rfl ?_
      rw [hz, hu]
      exact Function.update_idem ..
    have kernel : w.kernel = s.kernel := by rw [hu]; rfl
    exact back z (by rw [hz, hu]; rfl) (by rw [hz]; exact kernel) same
      (Or.inr (by rw [← kernel]; exact full))
  · have vol : w.files.vol = v := by rw [hw, hu]; rfl
    rw [← vol] at hv
    have type := hv.type List.mem_cons_self List.mem_cons_self
    refine .gets (.call (P := fun _ z => z = ⟨w.kernel, w.files.setFile f
      (opened ip (w.files.vol.inode ip) omode (w.files.file f))⟩) (.of_run rfl rfl) ?_)
    rintro _ z hz
    have volZ : z.files.vol = w.files.vol := by rw [hz]; rfl
    rw [← volZ] at hv
    refine .call (onVol_sat (iunlock_sat (E := fun _ _ => False) hv List.mem_cons_self)
      (fun _ _ no => False.elim no) (K := fun _ a => a = z) ?_) ?_
    · rintro _ _ rfl
      rfl
    rintro _ a rfl
    have notDevice : ¬ (w.files.vol.inode ip).d.type = T_DEVICE := by
      rw [type]
      exact hv.not_device List.mem_cons_self
    have taken : w.files.file f = .taken := by
      rw [hw, hu]
      exact Files.setFile_self _ f _
    have fileZ : a.files.file = Function.update s.files.file f
        (opened ip (w.files.vol.inode ip) omode .taken) := by
      rw [hz, taken, hw, hu]
      exact Function.update_idem ..
    refine .pure ⟨by rw [volZ, vol, disk], 9, N', _, _, hv, Qc, T', strays, kinds,
      Or.inr ⟨Int.natCast_nonneg _, ip, j, rfl, rfl, ?_, ?_⟩⟩
    · exact world'.mono (fun x hx => List.mem_cons_of_mem _ (List.mem_append_right Qc hx))
        (List.subset_cons_self ip L)
    · rw [fileZ]
      have opens' := opens.kinds fun x hx => kinds x (List.mem_append_left Q hx)
      have none : ¬ 0 < (s.files.file f).ref := by rw [free]; decide
      refine opens'.take none ?_ ?_ ?_ ?_ ?_
      · unfold opened
        rw [if_neg notDevice]
        exact Int.one_pos
      · unfold opened
        rw [if_neg notDevice]
      · rfl
      · intro hw'
        refine write ?_
        rintro rfl
        have none : decide (O_RDONLY &&& O_WRONLY ≠ 0 ∨ O_RDONLY &&& O_RDWR ≠ 0) = false := by decide
        exact absurd (none.symm.trans hw') Bool.false_ne_true
      · intro j' hj'
        exact (hv.inum_eq List.mem_cons_self (List.mem_cons_of_mem _ (List.mem_append_right Qc
          (List.mem_append_left Q hj')))).symm

/-- What a `sys_open` of a path has done. -/
def Opened (N : ℕ → Node) (T : Dirs) (P Q : List Ref) (L : List (Fin NINODE)) (p : Fin NPROC)
    (omode : BitVec 32) (s : System) (path : List UInt8) (r : ℤ) (s' : System) : Prop :=
  ∃ N' T' P' Qc L' u, Strays [path] Qc ∧ Kinds (P ++ Q) N N' ∧
    FsState N' T' P' (Qc ++ Q) L' s'.files ∧ Ended u s'.files.vol ∧
      (r = -1 ∧ L' = L ∧ s'.kernel = s.kernel ∧ SameOpen s.files s'.files ∧
          (¬ Creates T path omode ∧ Looked L s.files.vol.begun u ∨
            Creates T path omode ∧ Exhausted s p ∧ ∃ j, (N j).type = 0 ∧ (N' j).type ≠ 0) ∨
        0 ≤ r)

theorem sysOpen_fs {ptr : ℕ} (many : Prop) (h : FsState N T P Q L s.files) :
    Comp.Sat (sysOpen p ptr omode) s (fun w u => Stops many w u.files) fun r s' =>
      pathAt s.files.vol.user ptr = none ∧ r = -1 ∧ s' = s ∨
        ∃ path, pathAt s.files.vol.user ptr = some path ∧ Opened N T P Q L p omode s path r s' := by
  refine (withPath_fs (G := OpenEnds N T P Q L p omode (s.withVol s.files.vol.begun)) h.between
    fun path fsys => openBody_fs (s := s.withVol s.files.vol.begun) fsys h.world h.sub h.opens).post ?_
  rintro r s' (none | ⟨path, N', R', L', u, hpath, ⟨Qc, T', strays, kinds, cases⟩, hs', between,
    ended⟩)
  · exact Or.inl none
  have file : s'.files.file = u.files.file := by rw [hs']; rfl
  refine Or.inr ⟨path, hpath, ?_⟩
  rcases cases with ⟨bad, rfl, rfl, world, kernel, same, why⟩ | ⟨good, ip, j, rfl, rfl, world, opens⟩
  · have perm : (Qc ++ (P ++ Q)).Perm (P ++ (Qc ++ Q)) := List.perm_append_comm_assoc Qc P Q
    have opens := (h.opens.sameOpen same).kinds fun x hx => kinds x (List.mem_append_left Q hx)
    refine ⟨N', T', P, Qc, L', u.files.vol, strays, kinds,
      ⟨(between.fsys.perm perm).between between.logged between.clean,
        world.mono perm.subset (List.Subset.refl L'), fun x hx => ?_, h.held, file ▸ opens⟩, ended,
      Or.inl ⟨bad, rfl, by rw [hs']; exact kernel, fun f => by rw [file]; exact same f, why⟩⟩
    exact (List.mem_append.mp hx).elim (strays.root x) (h.strays x)
  · have perm : ((ip, j) :: (Qc ++ (P ++ Q))).Perm ((ip, j) :: P ++ (Qc ++ Q)) :=
      (List.perm_append_comm_assoc Qc P Q).cons (ip, j)
    refine ⟨N', T', (ip, j) :: P, Qc, ip :: L, u.files.vol, strays, kinds,
      ⟨(between.fsys.perm perm).between between.logged between.clean,
        world.mono perm.subset (List.Subset.refl _), fun x hx => ?_, fun x hx => ?_, file ▸ opens⟩,
      ended, Or.inr good⟩
    · exact (List.mem_append.mp hx).elim (strays.root x) (h.strays x)
    · rcases List.mem_cons.mp hx with rfl | hx
      · exact List.mem_cons_self
      · exact List.mem_cons_of_mem _ (h.held x hx)

end Open

end EasyXv6.Sys
