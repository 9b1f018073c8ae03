import EasyXv6.Sys.PathCalls

set_option autoImplicit false

/-!
# The file system along runs
-/
namespace EasyXv6.Sys
open Lib Mem Proc Fs Vol

variable {N : ℕ → Node} {T : Dirs} {P Q : List Ref} {L : List (Fin NINODE)} {s : System}
  {p : Fin NPROC} {f : Fin NFILE}

/-- The paths that a call walks. -/
def Call.paths (mem : UserMem) : Call → List (List UInt8)
  | .open ptr _ => (pathAt mem ptr).toList
  | .mkdir ptr => (pathAt mem ptr).toList
  | .unlink ptr => (pathAt mem ptr).toList
  | .link oldptr newptr => (pathAt mem oldptr).toList ++ (pathAt mem newptr).toList
  | _ => []

/-- The state after a call that walks `paths`. -/
def After (Q : List Ref) (paths : List (List UInt8)) (t : Files) : Prop :=
  ∃ N T P Qc L, FsState N T P (Qc ++ Q) L t ∧ Strays paths Qc

theorem FsState.after {t : Files} (h : FsState N T P Q L t) (paths : List (List UInt8)) :
    After Q paths t := ⟨N, T, P, [], L, h, nofun, fun _ => rfl⟩

theorem Strays.of_sub {ps qs : List (List UInt8)} (h : Strays ps Q) (sub : ps ⊆ qs) : Strays qs Q :=
  h.mono sub

/-- The file of a descriptor is open. -/
theorem During.live {fd : Fin NOFILE} (h : During p (fun _ => 0) s)
    (hf : (s.kernel.proc p).ofile fd = some f) : 0 < (s.files.file f).ref := by
  rw [h.refs, add_zero]
  refine Int.natCast_pos.mpr (Nat.pos_of_ne_zero fun none => ?_)
  exact holders_eq_zero none p fd hf

/-- The state of a call that does not concern the file system. -/
theorem FsState.user {t : Files} (h : FsState N T P Q L t) (mem : UserMem) :
    FsState N T P Q L { t with vol := { t.vol with user := mem } } := by
  obtain ⟨V, D, l, at', nodes, fits⟩ := h.between.fsys.shows
  exact ⟨⟨⟨⟨V, D, l, ⟨at'.blk.congr rfl rfl, at'.ok⟩, nodes, fits⟩, h.between.fsys.refs⟩,
    h.between.logged, h.between.clean⟩, h.world, h.strays, h.held, h.opens⟩

section Calls

variable {fd : ℤ} {addr : ℕ} {n : ℤ} {many : Prop}

theorem withFile {α : Type} {k : Fin NOFILE → Fin NFILE → Comp System α} {m : Comp System α}
    {E : String → System → Prop} {G : α → System → Prop} (during : During p (fun _ => 0) s)
    (none : Comp.Sat m s E G)
    (some : ∀ i f, (s.kernel.proc p).ofile i = some f → 0 < (s.files.file f).ref →
      Comp.Sat (k i f) s E G) :
    Comp.Sat (argFd p fd >>= fun o => match o with
      | .none => m
      | .some (i, f) => k i f) s E G := by
  refine .call (argFd_sat fd) ?_
  rintro (_ | ⟨i, f⟩) t ⟨rfl, hf⟩
  · exact none
  · exact some i f (hf i f rfl) (during.live (hf i f rfl))

theorem onFiles_sat {α : Type} {m : Comp Files α} {F : String → Files → Prop}
    {G : α → Files → Prop} {E : String → System → Prop} {K : α → System → Prop}
    (h : Comp.Sat m s.files F G) (hE : ∀ w t, F w t → E w { s with files := t })
    (hQ : ∀ a t, G a t → K a { s with files := t }) : Comp.Sat (onFiles m) s E K := .zoom h hE hQ

theorem sysClose_fs (h : FsState N T P Q L s.files) (during : During p (fun _ => 0) s) :
    Comp.Sat (sysClose p fd) s (fun w u => Stops many w u.files) fun _ u => After Q [] u.files := by
  refine withFile during (.pure (h.after [])) fun i f _ live => ?_
  refine .modify (.call (onFiles_sat (fileClose_keeps h live) (fun _ _ bad => bad)
    (K := fun _ u => After Q [] u.files) ?_) fun _ u hu => .pure hu)
  rintro _ t ⟨N', P', L', ht, -⟩
  exact ht.after []

theorem sysRead_fs (h : FsState N T P Q L s.files) (during : During p (fun _ => 0) s) :
    Comp.Sat (sysRead p fd addr n) s (fun w u => Stops many w u.files) fun _ u =>
      FsState N T P Q L u.files := by
  refine withFile during (.pure h) fun i f _ live => ?_
  exact onFiles_sat (fileRead_keeps (E := fun _ _ => False) h live) (fun _ _ no => False.elim no)
    fun _ t ht => ht.1

theorem sysWrite_fs (h : FsState N T P Q L s.files) (during : During p (fun _ => 0) s) :
    Comp.Sat (sysWrite p fd addr n) s (fun w u => Stops many w u.files) fun _ u =>
      After Q [] u.files := by
  refine withFile during (.pure (h.after [])) fun i f _ live => ?_
  refine onFiles_sat (fileWrite_keeps h live) (fun _ _ bad => bad) ?_
  rintro _ t ⟨N', ip, i, ht, -⟩
  exact ht.after []

theorem fileDup_keeps {t : Files} (h : FsState N T P Q L t) (live : 0 < (t.file f).ref)
    {E : String → Files → Prop} :
    Comp.Sat (Files.fileDup f) t E fun _ u => FsState N T P Q L u := by
  unfold Files.fileDup
  refine .get (.ite (fun low => absurd live (by omega)) fun _ => .modified ?_)
  refine h.setFile (f := f) (x := { t.file f with ref := (t.file f).ref + 1 }) ?_
    fun _ => ⟨rfl, rfl, rfl⟩
  change 0 < (t.file f).ref + 1 ↔ _
  omega

theorem sysDup_fs (h : FsState N T P Q L s.files) (during : During p (fun _ => 0) s) :
    Comp.Sat (sysDup p fd) s (fun w u => Stops many w u.files) fun _ u =>
      FsState N T P Q L u.files := by
  refine withFile during (.pure h) fun i f _ live => ?_
  refine .call fdalloc_fs ?_
  rintro (_ | newfd) u ⟨same, -⟩
  · exact .pure (by rw [same]; exact h)
  · have hu : FsState N T P Q L u.files := by rw [same]; exact h
    have live' : 0 < (u.files.file f).ref := by rw [same]; exact live
    exact .call (onFiles_sat (fileDup_keeps (E := fun _ _ => False) hu live')
      (fun _ _ no => False.elim no) (K := fun _ w => FsState N T P Q L w.files)
      fun _ _ hw => hw) fun _ _ hw => .pure hw

theorem copyOut_user {v : Vol} {dst m : ℕ} {src : ℕ → UInt8} {E : String → Vol → Prop} :
    Comp.Sat (copyOut true dst src m) v E fun _ v' => ∃ mem, v' = { v with user := mem } := by
  unfold copyOut
  exact .get (.ite (fun _ => .modify (.pure ⟨_, rfl⟩)) fun no => absurd rfl no)

theorem sysFstat_fs (h : FsState N T P Q L s.files) (during : During p (fun _ => 0) s) :
    Comp.Sat (sysFstat p fd addr) s (fun w u => Stops many w u.files) fun _ u =>
      FsState N T P Q L u.files := by
  refine withFile during (.pure h) fun i f _ live => ?_
  obtain ⟨-, ip, j, slot, hi, -⟩ := h.slot live
  refine .get (.ite (fun _ => .pure h) fun _ => ?_)
  refine .call (onFiles_sat (inodeOf_sat (E := fun _ _ => False) slot)
    (fun _ _ no => False.elim no) (K := fun jp u => jp = ip ∧ FsState N T P Q L u.files) ?_) ?_
  · rintro jp t ⟨rfl, same⟩
    exact ⟨rfl, by rw [same]; exact h⟩
  rintro _ u ⟨rfl, hu⟩
  refine .call (onFiles_sat (ilock_keeps (E := fun _ _ => False) hu hi)
    (fun _ _ no => False.elim no) (K := fun _ w => FsState N T P Q L w.files)
    fun _ _ hw => hw.1) ?_
  rintro _ w hw
  refine .gets (.call (onFiles_sat (iunlock_keeps (E := fun _ _ => False) hw hi)
    (fun _ _ no => False.elim no) (K := fun _ x => FsState N T P Q L x.files) ?_) ?_)
  · rintro _ _ rfl
    exact hw
  rintro _ x hx
  refine .call (onVol_sat (copyOut_user (E := fun _ _ => False)) (fun _ _ no => False.elim no)
    (K := fun _ y => FsState N T P Q L y.files) ?_) fun _ _ hy => .pure hy
  rintro _ _ ⟨mem, rfl⟩
  exact hx.user mem

theorem Names.after {s' : System} {paths : List (List UInt8)} {F : Vol → Prop}
    (h : Names N P Q L s s' paths F) : After Q paths s'.files := by
  obtain ⟨N', T', Qc, u, strays, -, hs', -⟩ := h
  exact ⟨N', T', P, Qc, L, hs', strays⟩

/-- Every call leads from a state between two calls to the next, or ends in one of the panics for a
    lack of room. -/
theorem call_fs (c : Call) (h : FsState N T P Q L s.files) (during : During p (fun _ => 0) s) :
    Comp.Sat (c.comp p) s (fun w u => Stops (∃ j, 2 ^ 15 ≤ T.links j) w u.files) fun _ u =>
      After Q (c.paths s.files.vol.user) u.files := by
  cases c with
  | «open» ptr omode =>
    refine (sysOpen_fs _ h).post ?_
    rintro r u (⟨-, -, rfl⟩ | ⟨path, hpath, N', T', P', Qc, L', v, strays, -, hu, -⟩)
    · exact h.after _
    · refine ⟨N', T', P', Qc, L', hu, ?_⟩
      rw [Call.paths, hpath]
      exact strays
  | close fd => exact sysClose_fs h during
  | read fd addr n => exact (sysRead_fs h during).post fun _ _ hu => hu.after _
  | write fd addr n => exact sysWrite_fs h during
  | mkdir ptr =>
    refine (sysMkdir_fs _ h).post ?_
    rintro r u (⟨-, -, rfl⟩ | ⟨path, hpath, names⟩)
    · exact h.after _
    · rw [Call.paths, hpath]
      exact names.after
  | unlink ptr =>
    refine (sysUnlink_fs h).post ?_
    rintro r u (⟨-, -, rfl⟩ | ⟨path, hpath, names⟩)
    · exact h.after _
    · rw [Call.paths, hpath]
      exact names.after
  | link oldptr newptr =>
    refine (sysLink_fs _ h).post ?_
    rintro r u (⟨-, -, rfl⟩ | ⟨oldpath, newpath, hold, hnew, names⟩)
    · exact h.after _
    · rw [Call.paths, hold, hnew]
      exact names.after
  | fstat fd addr => exact (sysFstat_fs h during).post fun _ _ hu => hu.after _
  | dup fd => exact (sysDup_fs h during).post fun _ _ hu => hu.after _

end Calls

section Processes

variable {many : Prop}

theorem exitFd_fs {k : ℕ} (h : FsState N T P Q L s.files) (during : During p (fun _ => 0) s) :
    Comp.Sat (exitFd p k) s (fun w u => Stops many w u.files) fun _ u => After Q [] u.files := by
  unfold exitFd
  refine .get ?_
  split
  next hk =>
    split
    next f hf =>
      refine .call (onFiles_sat (fileClose_keeps h (during.live hf)) (fun _ _ bad => bad)
        (K := fun _ u => After Q [] u.files) ?_) fun _ u hu => .modified hu
      rintro _ t ⟨N', P', L', ht, -⟩
      exact ht.after []
    next => exact .pure (h.after [])
  next => exact .pure (h.after [])

variable (many) in
/-- The first descriptors of a process that ends are closed one after the other. -/
theorem exitFds_fs (k : ℕ) (h : FsState N T P Q L s.files) (during : During p (fun _ => 0) s) :
    Comp.Sat (.forUpTo k (exitFd p)) s (fun w u => Stops many w u.files) fun _ u =>
      After Q [] u.files := by
  refine Comp.Sat.post (Comp.Sat.forUpTo (I := fun k u => After Q [] u.files ∧
    During p (fun _ => 0) u ∧ ∀ d : Fin NOFILE, d.val < k → (u.kernel.proc p).ofile d = none)
    ⟨h.after [], during, fun d hd => absurd hd (Nat.not_lt_zero _)⟩ ?_) fun _ _ hu => hu.1
  rintro k - u ⟨⟨N', T', P', Qc, L', hu, strays⟩, during', closed⟩
  have none : Qc = [] := strays.absolute nofun
  rw [none] at hu
  exact (exitFd_fs hu during').and (exitFd_sat during' closed)

theorem onKernel_files {α : Type} (m : Comp Kernel α) {t : Files} (h : s.files = t) :
    Comp.Sat (onKernel m) s anyHalt fun _ u => u.files = t := by
  refine Comp.Sat.zoom (F := fun _ _ => True) (P := fun _ _ => True) ?_ (fun _ _ _ => trivial)
    fun _ _ _ => h
  unfold Comp.Sat
  split <;> trivial

theorem forkFd_fs {np : Fin NPROC} {k : ℕ} (h : FsState N T P Q L s.files) :
    Comp.Sat (forkFd p np k) s anyHalt fun _ u => FsState N T P Q L u.files := by
  unfold forkFd
  refine .get ?_
  split
  next hk =>
    split
    next f hf =>
      refine .call (onFiles_sat (F := fun _ _ => True) (G := fun _ t => FsState N T P Q L t) ?_
        (fun _ _ _ => trivial) (K := fun _ u => FsState N T P Q L u.files) fun _ _ hu => hu)
        fun _ u hu => .modified hu
      -- a count below 1 is a panic
      by_cases live : 0 < (s.files.file f).ref
      · exact fileDup_keeps h live
      · unfold Files.fileDup
        exact .get (.ite (fun _ => .halt trivial) fun high => absurd high (by omega))
    next => exact .pure h
  next => exact .pure h

theorem procFork_fs {Ly : Layout} (h : FsState N T P Q L s.files) :
    Comp.Sat (procFork Ly p) s anyHalt fun _ u => FsState N T P Q L u.files := by
  unfold procFork
  refine .call (onKernel_files _ rfl) ?_
  rintro (_ | np) s₁ h₁
  · exact .pure (by rw [h₁]; exact h)
  refine .gets (.gets (.call (onKernel_files _ h₁) ?_))
  rintro _ s₂ h₂
  have start : FsState N T P Q L s₂.files := by rw [h₂]; exact h
  refine .call (Comp.Sat.forUpTo (I := fun _ u => FsState N T P Q L u.files) start
    fun k _ u hu => forkFd_fs hu) ?_
  rintro _ s₃ h₃
  exact .call (onKernel_files _ rfl) fun _ s₄ h₄ => .pure (by rw [h₄]; exact h₃)

end Processes

section Runs

variable {Ly : Layout} {s' : System} {e : Event}

/-- The paths that are walked in a step. -/
def Event.paths : Event → List (List UInt8)
  | .call _ mem c _ => c.paths mem
  | _ => []

theorem Step.after (h : FsState N T P Q L s.files) (refs : RefsExact s) (st : Step Ly s e s') :
    After Q e.paths s'.files := by
  cases st with
  | @call _ p mem c ret run hr =>
    have start := refs.during run
    exact (call_fs c (s := s.withUser mem) (h.user mem)
      ⟨start.refs, start.closed, start.busy⟩).ok hr
  | fork run hr => exact ((procFork_fs h).ok hr).after []
  | @exit _ p st run hr =>
    unfold procExit at hr
    rw [Comp.run_ite] at hr
    split at hr
    · cases hr
    obtain ⟨_, t, hloop, hexit⟩ := (Comp.bind_ok_iff _ _ _ _ _).mp hr
    obtain ⟨k', hk, rfl⟩ := (Comp.zoom_ok_iff _ _ _ _ _ _).mp hexit
    have closed : After Q [] t.files := (exitFds_fs True _ h (refs.during run)).ok hloop
    exact closed
  | wait run hr =>
    obtain ⟨k', hk, rfl⟩ := (Comp.zoom_ok_iff _ _ _ _ _ _).mp hr
    exact h.after []
  | other same =>
    rw [same.files]
    exact h.after []

/-- What holds between two calls. -/
structure Ready (s : System) : Prop where
  refs : RefsExact s
  fs : ∃ N T P Q L, FsState N T P Q L s.files

theorem Ready.step (h : Ready s) (st : Step Ly s e s') : Ready s' := by
  obtain ⟨N, T, P, Q, L, hs⟩ := h.fs
  obtain ⟨N', T', P', Qc, L', hs', -⟩ := st.after hs h.refs
  exact ⟨h.refs.step st, N', T', P', Qc ++ Q, L', hs'⟩

theorem Started.fs (h : Started s) : ∃ N, FsState N rootTree [] [] [] s.files := by
  obtain ⟨N, between, world⟩ := h.mounted.between
  have free : ∀ f, ¬ 0 < (s.files.file f).ref := fun f => by rw [h.noFiles.file]; exact lt_irrefl 0
  refine ⟨N, between, world, nofun, nofun, fun ip => ?_, fun f live => absurd live (free f)⟩
  exact (Finset.sum_eq_zero fun f _ => if_neg fun hh => free f hh.1).symm

theorem Started.ready (h : Started s) : Ready s := by
  obtain ⟨N, hs⟩ := h.fs
  exact ⟨h.noFiles.exact, N, rootTree, [], [], [], hs⟩

theorem Started.run {tr : List (Event × System)} (h : Started s) (hr : Along (Step Ly) s tr) :
    Ready (final s tr) := Along.invariant (fun _ _ _ => Ready.step) hr h.ready

/-- The panics for a lack of room, and that of `sys_unlink`. -/
def roomPanics : List String :=
  ["fs_alloc: out of blocks", "ialloc: no inodes", "dirlink: write", "iget: no inodes",
    "unlink: nlink < 1"]

theorem Stops.mem {many : Prop} {w : String} {t : Files} (h : Stops many w t) : w ∈ roomPanics := by
  unfold roomPanics
  rcases h with (⟨-, ⟨rfl, -⟩ | rfl | ⟨rfl, -⟩⟩ | ⟨rfl, -⟩) | ⟨rfl, -⟩ <;> decide

/-- The panics that a call or an exit of a process can end in. -/
theorem Ready.panics (h : Ready s) (running : (s.kernel.proc p).state = .running) :
    (∀ (mem : UserMem) (c : Call) w t, (c.comp p).run (s.withUser mem) = .halt w t →
      w ∈ roomPanics) ∧
    ∀ k w t, (Comp.forUpTo k (exitFd p)).run s = .halt w t → w ∈ roomPanics := by
  obtain ⟨N, T, P, Q, L, hs⟩ := h.fs
  have during := h.refs.during running
  refine ⟨fun mem c w t hr => ?_, fun k w t hr => ?_⟩
  · exact Stops.mem ((call_fs c (s := s.withUser mem) (hs.user mem)
      ⟨during.refs, during.closed, during.busy⟩).halted hr)
  · exact Stops.mem ((exitFds_fs True k hs during).halted hr)

/-- The files at the end of a transaction: between two calls of the process `p`, after some chunks of
    a write, and after some of the closes of an exit. -/
inductive Boundary (p : Fin NPROC) (s : System) : Files → Prop
  | call : Boundary p s s.files
  | chunks {mem : UserMem} {fd : Fin NOFILE} {f : Fin NFILE} {ip : Fin NINODE} {addr m : ℕ} {n c : ℤ}
      {u : Files} (fd : (s.kernel.proc p).ofile fd = some f) (slot : (s.files.file f).ip = some ip)
      (writable : (s.files.file f).writable = true)
      (run : ((if (s.files.file f).append then Files.seekEnd f ip else pure ()) >>= fun _ =>
        Files.fileWriteLoop f ip addr n m 0).run (s.withUser mem).files = .ok c u) : Boundary p s u
  | closes {k : ℕ} {u : System} (run : (Comp.forUpTo k (exitFd p)).run s = .ok () u) :
      Boundary p s u.files

theorem Ready.boundary {t : Files} (h : Ready s) (running : (s.kernel.proc p).state = .running)
    (hb : Boundary p s t) : ∃ N T P Q L, FsState N T P Q L t := by
  obtain ⟨N, T, P, Q, L, hs⟩ := h.fs
  have during := h.refs.during running
  cases hb with
  | call => exact ⟨N, T, P, Q, L, hs⟩
  | @chunks mem fd f ip addr m n c u fd slot writable run =>
    have start := hs.user mem
    obtain ⟨-, jp, i, slot', hi, -, write⟩ := hs.slot (during.live fd)
    obtain rfl : jp = ip := Option.some.inj (slot'.symm.trans slot)
    have spec : Comp.Sat ((if (s.files.file f).append then Files.seekEnd f jp else pure ()) >>=
        fun _ => Files.fileWriteLoop f jp addr n m 0) (s.withUser mem).files (Stops True)
          fun _ u => ∃ N', FsState N' T P Q L u := by
      refine .call (P := fun _ u => FsState N T P Q L u) (.ite (fun _ => ?_) fun _ => .pure start) ?_
      · exact (seekEnd_keeps start hi).post fun _ _ hu => hu.1
      · rintro _ v hv
        refine (fileWriteLoop_keeps hv hi (write writable)).post ?_
        rintro _ u ⟨N', hu, -⟩
        exact ⟨N', hu⟩
    obtain ⟨N', hu⟩ := spec.ok run
    exact ⟨N', T, P, Q, L, hu⟩
  | closes run =>
    obtain ⟨N', T', P', Qc, L', hu, -⟩ := (exitFds_fs True _ hs during).ok run
    exact ⟨N', T', P', Qc ++ Q, L', hu⟩

end Runs

end EasyXv6.Sys
