import EasyXv6.Fs.Remount
import EasyXv6.Sys.Links
import EasyXv6.Sys.Ownership
import EasyXv6.Sys.Reading

set_option autoImplicit false

/-!
# Crashes of the whole system

A crash may come before or after any write to the disk that a call makes. The recovery that the next
start brings to its end finds a whole file system.
-/
namespace EasyXv6.Sys
open Lib Mem Proc Fs Vol

variable {N : ℕ → Node} {T : Dirs} {P Q : List Ref} {L : List (Fin NINODE)} {t : Files} {s : System}
  {p : Fin NPROC} {f : Fin NFILE} {ip : Fin NINODE} {i addr : ℕ} {n : ℤ}

section Predicates

/-- A crash between `s` and `u` leaves a disk from which the recovery leads to that of `s` or that of
    `u`. -/
def Atomic (s u : Vol) : Prop :=
  Log.CrashSafe (fun d => Log.Recoverable s.blk.bio.disk d ∨ Log.Recoverable u.blk.bio.disk d) s.blk u.blk

/-- The recovery from the disk leads to the one of a state between two calls. -/
def Sound (d : ℕ → Block) : Prop :=
  ∃ N T P Q L t, FsState N T P Q L t ∧ Log.Recoverable t.vol.blk.bio.disk d

/-- Nothing that a call has done up to now has reached the disk. -/
def Untouched (s u : System) : Prop := Unwritten s.files u.files

theorem Untouched.refl (s : System) : Untouched s s := Unwritten.refl _

theorem Untouched.trans (s t u : System) (h : Untouched s t) (h' : Untouched t u) : Untouched s u :=
  Unwritten.trans _ _ _ h h'

theorem Between.recoverable {R : List Ref} {v : Vol} (h : Between N R L v) :
    Log.Recoverable v.blk.bio.disk v.blk.bio.disk := .of_clean h.clean fun _ _ => rfl

theorem Between.atomic_of_quiet {R : List Ref} {v w : Vol} (h : Between N R L v) (quiet : Quiet v w) :
    Atomic v w := .of_same (Or.inl (Between.recoverable h)) quiet.1 quiet.2

/-- A transaction is atomic: nothing of it reaches the disk before its end. -/
theorem Between.atomic {R : List Ref} {v u w : Vol} (h : Between N R L v) (quiet : Quiet v u)
    (ended : Ended u w) : Atomic v w := by
  have safe := ended.safe
  rw [quiet.1] at safe
  exact (Log.CrashSafe.of_same (Or.inl (Between.recoverable h)) quiet.1 quiet.2).trans safe

theorem FsState.sound (h : FsState N T P Q L t) : Sound t.vol.blk.bio.disk :=
  ⟨N, T, P, Q, L, t, h, Between.recoverable h.between⟩

/-- Where both ends are states between two calls, a crash in between leaves a sound disk. -/
theorem Atomic.sound {N' : ℕ → Node} {T' : Dirs} {P' Q' : List Ref} {L' : List (Fin NINODE)} {u : Files}
    (h : FsState N T P Q L t) (h' : FsState N' T' P' Q' L' u) (all : Atomic t.vol u.vol) :
    Log.CrashSafe Sound t.vol.blk u.vol.blk := by
  apply Log.CrashSafe.imp all
  intro d either
  rcases either with old | new
  · exact ⟨N, T, P, Q, L, t, h, old⟩
  · exact ⟨N', T', P', Q', L', u, h', new⟩

end Predicates

section Silent

theorem onFiles_untouched {α : Type} {m : Comp Files α} (h : Comp.Always Unwritten m) :
    Comp.Always Untouched (onFiles m) := .zoom (fun _ _ hq => hq) h

theorem onVol_untouched {α : Type} {m : Comp Vol α} (h : Silent m) : Comp.Always Untouched (onVol m) :=
  onFiles_untouched (onVol_silent h)

theorem onKernel_untouched {α : Type} (m : Comp Kernel α) : Comp.Always Untouched (onKernel m) := by
  have any : Comp.Always (fun _ _ : Kernel => True) m := fun k => trivial
  exact .zoom (fun s _ _ => .refl s) any

theorem inodeOf_silent (f : Fin NFILE) : Comp.Always Unwritten (Files.inodeOf f) := by
  unfold Files.inodeOf
  refine .bind .trans (.get .refl) fun t => ?_
  split
  · exact .pure .refl _
  · exact .halt .refl _

theorem fileRead_silent (f : Fin NFILE) (addr : ℕ) (n : ℤ) :
    Comp.Always Unwritten (Files.fileRead f addr n) := by
  unfold Files.fileRead Files.advance
  refine .bind .trans (.get .refl) fun t => .ite (.pure .refl _) (.ite ?_ (.halt .refl _))
  refine .bind .trans (inodeOf_silent f) fun ip => .bind .trans (onVol_silent (ilock_silent ip)) fun _ =>
    .bind .trans (onVol_silent (readi_silent _ _ _ _ _)) fun r => .bind .trans ?_ fun _ =>
      .bind .trans (onVol_silent (iunlock_silent ip)) fun _ => .pure .refl _
  exact .ite (modFile_silent _ _) (.pure .refl ())

theorem fileDup_silent (f : Fin NFILE) : Comp.Always Unwritten (Files.fileDup f) := by
  unfold Files.fileDup
  exact .bind .trans (.get .refl) fun t => .ite (.halt .refl _) (modFile_silent _ _)

theorem argFd_untouched (p : Fin NPROC) (fd : ℤ) : Comp.Always Untouched (argFd p fd) := by
  unfold argFd
  refine .bind .trans (.get .refl) fun s => ?_
  split <;> exact .pure .refl _

theorem fdalloc_untouched (p : Fin NPROC) (f : Fin NFILE) : Comp.Always Untouched (fdalloc p f) := by
  unfold fdalloc setFd
  refine .bind .trans (.get .refl) fun s => ?_
  split
  · exact .bind .trans (onKernel_untouched _) fun _ => .pure .refl _
  · exact .pure .refl _

end Silent

section Calls

variable {fd : ℤ} {ptr : ℕ} {path : List UInt8}

/-- `iput` of a loaded slot as a transaction. -/
theorem put_atomic {R : List Ref} {v : Vol} (h : Between N ((ip, i) :: R) L v) (hL : ip ∈ L)
    (tree : Tree [] N T) : Comp.Sat (beginOp >>= fun _ => iput ip >>= fun _ => endOp) v
      (fun _ w => Quiet v w) fun _ w => Atomic v w := by
  refine .call (beginOp_sat h) ?_
  rintro _ _ ⟨hs, rfl⟩
  have hs' : Fsys 1 0 N ((ip, i) :: R) (ip :: []) v.begun := hs.weaken fun jp hj => by
    rw [List.mem_singleton.mp hj]
    exact hL
  have put : Comp.Sat (iput ip) v.begun (Limit (NINODE + 4) True) _ :=
    iput_sat hs' (Nat.zero_le _) tree (by simp)
  refine .call ((put.always (iput_silent ip)).imp (fun _ _ bad => bad.2) fun _ _ hu => hu) ?_
  rintro _ u ⟨⟨N', hu, -⟩, quiet⟩
  refine (endOp_sat hu (by rw [quiet.1]; exact h.clean)).post ?_
  rintro _ w ⟨-, ended⟩
  exact Between.atomic h (u := u) quiet ended

theorem fileClose_atomic (h : FsState N T P Q L t) (live : 0 < (t.file f).ref) :
    Comp.Sat (Files.fileClose f) t (fun _ u => Unwritten t u) fun _ u => Atomic t.vol u.vol := by
  obtain ⟨type, ip, j, slot, hi, hL, -⟩ := h.slot live
  unfold Files.fileClose
  refine .get (.ite (fun low => absurd live (by omega)) fun _ => .modify ?_)
  refine .ite (fun _ => .pure ?_) fun _ => .gets (.modify (.ite (fun _ => ?_) fun _ => .pure ?_))
  · exact Between.atomic_of_quiet h.between (.refl _)
  · dsimp only
    rw [Files.setFile_self]
    dsimp only
    rw [slot]
    have perm := List.perm_cons_erase (List.mem_append_left Q hi)
    have between : Between N ((ip, j) :: (P ++ Q).erase (ip, j)) L t.vol :=
      (h.between.fsys.perm perm).between h.between.logged h.between.clean
    exact .zoom (put_atomic between hL h.world.tree) (fun _ _ quiet => quiet) fun _ _ all => all
  · exact Between.atomic_of_quiet h.between (.refl _)

theorem sysClose_atomic (h : FsState N T P Q L s.files) (during : During p (fun _ => 0) s) :
    Comp.Sat (sysClose p fd) s (fun _ u => Untouched s u) fun _ u => Atomic s.files.vol u.files.vol := by
  refine withFile during (.pure (Between.atomic_of_quiet h.between (.refl _))) fun k f _ live => ?_
  exact .modify (.call (onFiles_sat (fileClose_atomic h live) (fun _ _ quiet => quiet)
    (K := fun _ u => Atomic s.files.vol u.files.vol) fun _ _ all => all) fun _ _ all => .pure all)

/-- A call with a path argument is one transaction. -/
theorem withPath_atomic {body : List UInt8 → Comp System ℤ} (h : FsState N T P Q L s.files)
    (spec : ∀ path, Fsys 1 0 N (P ++ Q) L s.files.vol.begun →
      Comp.Sat (body path) (s.withVol s.files.vol.begun) (fun _ u => Untouched s u) fun _ u =>
        Untouched s u ∧ ∃ k N' R' L', Fsys 1 k N' R' L' u.files.vol) :
    Comp.Sat (withPath ptr body) s (fun _ u => Untouched s u) fun _ u =>
      Atomic s.files.vol u.files.vol := by
  refine (withPath_fs (G := fun _ _ _ _ _ u => Untouched s u) h.between fun path fsys => ?_).post ?_
  · refine (spec path fsys).post ?_
    rintro r u ⟨quiet, k, N', R', L', hu⟩
    exact ⟨quiet.1, k, N', R', L', hu, quiet⟩
  · rintro r u (⟨-, -, rfl⟩ | ⟨path, N', R', L', v, -, quiet, -, -, ended⟩)
    · exact Between.atomic_of_quiet h.between (.refl _)
    · exact Between.atomic h.between quiet ended

/-- What works on the inodes only, silently. -/
theorem names_atomic {m : List UInt8 → Comp Vol ℤ} {E : String → Vol → Prop}
    (h : FsState N T P Q L s.files) (silent : ∀ path, Silent (m path))
    (spec : ∀ path, Fsys 1 0 N (P ++ Q) L s.files.vol.begun →
      Comp.Sat (m path) s.files.vol.begun E fun _ v => ∃ k N' R' L', Fsys 1 k N' R' L' v) :
    Comp.Sat (withPath ptr fun path => onVol (m path)) s (fun _ u => Untouched s u) fun _ u =>
      Atomic s.files.vol u.files.vol :=
  withPath_atomic h fun path fsys => onVol_sat ((spec path fsys).always (silent path))
    (fun _ _ bad => bad.2) fun _ _ good => ⟨good.2, good.1⟩

theorem sysMkdir_atomic (h : FsState N T P Q L s.files) : Comp.Sat (sysMkdir ptr) s
    (fun _ u => Untouched s u) fun _ u => Atomic s.files.vol u.files.vol := by
  have cap := room (P ++ Q)
  refine names_atomic (E := Limit (NINODE + 4) True) h mkdir_silent fun path fsys =>
    (mkdir_sat fsys h.world h.sub (by omega) trivial).post ?_
  rintro r v ⟨Qc, -, ⟨-, hv, -⟩ | ⟨-, N', T', -, -, hv⟩⟩
  · exact ⟨_, _, _, _, hv⟩
  · exact ⟨_, _, _, _, hv⟩

theorem sysUnlink_atomic (h : FsState N T P Q L s.files) : Comp.Sat (sysUnlink ptr) s
    (fun _ u => Untouched s u) fun _ u => Atomic s.files.vol u.files.vol := by
  have cap := room (P ++ Q)
  refine names_atomic (E := Fails (NINODE + 4) True (∃ j, 2 ^ 15 ≤ T.links j)) h unlink_silent
    fun path fsys => Comp.Sat.post (unlink_sat fsys h.world h.sub h.heldAll (by omega)) ?_
  rintro r v ⟨Qc, -, ⟨-, hv, -⟩ | ⟨-, N', T', ip, j, t, -, hv, -⟩⟩
  · exact ⟨_, _, _, _, hv⟩
  · exact ⟨_, _, _, _, hv⟩

theorem sysLink_atomic {oldptr newptr : ℕ} (h : FsState N T P Q L s.files) :
    Comp.Sat (sysLink oldptr newptr) s (fun _ u => Untouched s u) fun _ u =>
      Atomic s.files.vol u.files.vol := by
  have cap := room (P ++ Q)
  unfold sysLink
  refine .call (P := fun _ t => t = s) (.of_run (argPath_pathAt s oldptr) rfl) ?_
  rintro o t ht
  rw [ht]
  cases o with
  | none => exact .pure (Between.atomic_of_quiet h.between (.refl _))
  | some oldpath =>
    refine names_atomic (E := Limit (NINODE + 4) True) h (link_silent oldpath) fun path fsys =>
      (link_sat fsys h.world h.sub cap trivial).post ?_
    rintro r v ⟨Qc, N', T', -, -, -, hv, -⟩
    exact ⟨_, _, _, _, hv⟩

/-- What is silent keeps the disk as a call has found it. -/
theorem untouched_sat {α : Type} {m : Comp System α} {u : System} (silent : Comp.Always Untouched m)
    (h : Untouched s u) : Comp.Sat m u (fun _ v => Untouched s v) fun _ v => Untouched s v := by
  have quiet := silent u
  apply Comp.Sat.of_outcome
  · intro a v hr
    rw [hr] at quiet
    exact .trans _ _ _ h quiet
  · intro w v hr
    rw [hr] at quiet
    exact .trans _ _ _ h quiet

/-- `sys_open` closes only a file that it has just taken, and writes nothing before its transaction
    ends. -/
theorem openBody_untouched {u : System} {omode : BitVec 32} (h : Untouched s u) :
    Comp.Sat (openBody p omode path) u (fun _ v => Untouched s v) fun _ v => Untouched s v := by
  have put : ∀ (ip : Fin NINODE) v, Untouched s v →
      Comp.Sat (onVol (iunlockput ip) >>= fun _ => pure (-1 : ℤ)) v (fun _ v => Untouched s v)
        fun _ v => Untouched s v := fun ip v hv =>
    .call (untouched_sat (onVol_untouched (iunlockput_silent ip)) hv) fun _ _ hw => .pure hw
  unfold openBody
  refine .call (untouched_sat (onVol_untouched (openInode_silent path omode)) h) ?_
  rintro (_ | ip) v hv
  · exact .pure hv
  refine .call allocFile_fs ?_
  rintro (_ | f) v₁ h₁
  · rw [h₁.1]
    exact put ip v hv
  have taken : v₁.files.file f = .taken := by
    rw [h₁.2]
    exact Files.setFile_self _ f _
  have hv₁ : Untouched s v₁ := by
    rw [h₁.2]
    exact hv
  refine .call fdalloc_fs ?_
  rintro (_ | fd) v₂ ⟨files, -⟩
  · have hv₂ : Untouched s v₂ := by
      unfold Untouched
      rw [files]
      exact hv₁
    rw [← files] at taken
    refine .call (onFiles_sat (fileClose_taken (E := fun _ _ => False) taken)
      (fun _ _ no => False.elim no) (K := fun _ w => Untouched s w) ?_) fun _ w hw => put ip w hw
    rintro _ _ rfl
    exact hv₂
  · have hv₂ : Untouched s v₂ := by
      unfold Untouched
      rw [files]
      exact hv₁
    exact .gets (.call (untouched_sat (onFiles_untouched (modFile_silent _ _)) hv₂) fun _ _ hw =>
      .call (untouched_sat (onVol_untouched (iunlock_silent ip)) hw) fun _ _ hx => .pure hx)

theorem sysOpen_atomic {omode : BitVec 32} (h : FsState N T P Q L s.files) :
    Comp.Sat (sysOpen p ptr omode) s (fun _ u => Untouched s u) fun _ u =>
      Atomic s.files.vol u.files.vol := by
  refine withPath_atomic h fun path fsys => ?_
  have body : Comp.Sat (openBody p omode path) (s.withVol s.files.vol.begun)
      (fun w u => Stops True w u.files) _ :=
    openBody_fs (s := s.withVol s.files.vol.begun) fsys h.world h.sub h.opens
  have begun : Untouched s (s.withVol s.files.vol.begun) := ⟨rfl, rfl⟩
  refine ((openBody_untouched begun).and body).post ?_
  rintro r u ⟨quiet, -, k, N', R', L', hu, -⟩
  exact ⟨quiet, k, N', R', L', hu⟩

/-- A crash of a call that is silent leaves the disk as it was. -/
theorem atomic_of_untouched {α : Type} {m : Comp System α} (h : FsState N T P Q L s.files)
    (silent : Comp.Always Untouched m) :
    Comp.Sat m s (fun _ u => Untouched s u) fun _ u => Atomic s.files.vol u.files.vol :=
  (untouched_sat silent (.refl s)).post fun _ _ quiet => Between.atomic_of_quiet h.between quiet

theorem sysRead_atomic (h : FsState N T P Q L s.files) : Comp.Sat (sysRead p fd addr n) s
    (fun _ u => Untouched s u) fun _ u => Atomic s.files.vol u.files.vol := by
  refine atomic_of_untouched h (.bind .trans (argFd_untouched p fd) fun o => ?_)
  split
  · exact .pure .refl _
  · exact onFiles_untouched (fileRead_silent _ addr n)

theorem sysFstat_atomic (h : FsState N T P Q L s.files) : Comp.Sat (sysFstat p fd addr) s
    (fun _ u => Untouched s u) fun _ u => Atomic s.files.vol u.files.vol := by
  refine atomic_of_untouched h (.bind .trans (argFd_untouched p fd) fun o => ?_)
  split
  · exact .pure .refl _
  · refine .bind .trans (.get .refl) fun u => .ite (.pure .refl _) ?_
    exact .bind .trans (onFiles_untouched (inodeOf_silent _)) fun ip =>
      .bind .trans (onVol_untouched (ilock_silent ip)) fun _ => .bind .trans (.gets .refl _) fun _ =>
        .bind .trans (onVol_untouched (iunlock_silent ip)) fun _ =>
          .bind .trans (onVol_untouched (copyOut_silent _ _ _ _)) fun _ => .pure .refl _

theorem sysDup_atomic (h : FsState N T P Q L s.files) : Comp.Sat (sysDup p fd) s
    (fun _ u => Untouched s u) fun _ u => Atomic s.files.vol u.files.vol := by
  refine atomic_of_untouched h (.bind .trans (argFd_untouched p fd) fun o => ?_)
  split
  · exact .pure .refl _
  · refine .bind .trans (fdalloc_untouched p _) fun o => ?_
    split
    · exact .pure .refl _
    · exact .bind .trans (onFiles_untouched (fileDup_silent _)) fun _ => .pure .refl _

end Calls

section Writes

/-- A write is a run of transactions. -/
theorem fileWriteLoop_sound {fuel : ℕ} {c : ℤ} {t₀ : Files} (h : FsState N T P Q L t) (hi : (ip, i) ∈ P)
    (file : (N i).type ≠ T_DIR) (safe : Log.CrashSafe Sound t₀.vol.blk t.vol.blk) :
    Comp.Sat (Files.fileWriteLoop f ip addr n fuel c) t
      (fun _ u => Log.CrashSafe Sound t₀.vol.blk u.vol.blk)
      fun _ u => Log.CrashSafe Sound t₀.vol.blk u.vol.blk := by
  induction fuel generalizing N t c with
  | zero => exact .pure safe
  | succ fuel ih =>
    unfold Files.fileWriteLoop
    refine .ite (fun more => ?_) fun _ => .pure safe
    have stop : ∀ (w : String) (u : Files), Stops True w u → Unwritten t u →
        Log.CrashSafe Sound t₀.vol.blk u.vol.blk :=
      fun w u _ quiet => safe.trans (.of_same h.sound quiet.1 quiet.2)
    refine chunk_sat h hi file (lt_min (by omega) (by decide)) (min_le_right _ _) stop ?_
    intro r y u hu same _ _ _ atomic _ _
    have safe' := safe.trans (Atomic.sound h hu atomic)
    have file' : (Function.update N i y i).type ≠ T_DIR := by
      rw [Function.update_self, same.type]
      exact file
    exact .ite (fun _ => .pure safe') fun _ => ih hu file' safe'

theorem fileWrite_sound (h : FsState N T P Q L t) (live : 0 < (t.file f).ref) :
    Comp.Sat (Files.fileWrite f addr n) t (fun _ u => Log.CrashSafe Sound t.vol.blk u.vol.blk)
      fun _ u => Log.CrashSafe Sound t.vol.blk u.vol.blk := by
  obtain ⟨type, ip, i, slot, hi, hL, write⟩ := h.slot live
  have here : Log.CrashSafe Sound t.vol.blk t.vol.blk := .refl h.sound
  unfold Files.fileWrite
  refine .get (.ite (fun _ => .pure here) fun writable => .ite (fun _ => ?_) fun bad => absurd type bad)
  have file := write (by simpa using writable)
  refine .call (inodeOf_sat slot) ?_
  rintro _ t' ⟨rfl, same'⟩
  rw [same']
  refine .call (P := fun _ u => FsState N T P Q L u ∧ Log.CrashSafe Sound t.vol.blk u.vol.blk)
    (.ite (fun _ => ?_) fun _ => .pure ⟨h, here⟩) ?_
  · have seek := (seekEnd_keeps (E := fun _ _ => False) (f := f) h hi).always (seekEnd_silent f _)
    refine seek.imp (fun _ _ no => no.1.elim) ?_
    rintro _ u ⟨⟨hu, -⟩, quiet⟩
    exact ⟨hu, .of_same h.sound quiet.1 quiet.2⟩
  rintro _ u ⟨hu, safe⟩
  exact .call (fileWriteLoop_sound hu hi file safe) fun _ _ done => .pure done

theorem sysWrite_sound {fd : ℤ} (h : FsState N T P Q L s.files) (during : During p (fun _ => 0) s) :
    Comp.Sat (sysWrite p fd addr n) s (fun _ u => Log.CrashSafe Sound s.files.vol.blk u.files.vol.blk)
      fun _ u => Log.CrashSafe Sound s.files.vol.blk u.files.vol.blk :=
  withFile during (.pure (.refl h.sound)) fun _ _ _ live =>
    onFiles_sat (fileWrite_sound h live) (fun _ _ safe => safe) fun _ _ safe => safe

end Writes

section Ends

theorem exitFd_sound {k : ℕ} {s₀ : System} (h : FsState N T P Q L s.files)
    (during : During p (fun _ => 0) s) (safe : Log.CrashSafe Sound s₀.files.vol.blk s.files.vol.blk) :
    Comp.Sat (exitFd p k) s (fun _ u => Log.CrashSafe Sound s₀.files.vol.blk u.files.vol.blk)
      fun _ u => Log.CrashSafe Sound s₀.files.vol.blk u.files.vol.blk := by
  unfold exitFd
  refine .get ?_
  split
  next hk =>
    split
    next f hf =>
      have live := during.live hf
      have close : Comp.Sat (Files.fileClose f) s.files (Stops True) _ := fileClose_keeps h live
      refine .call (onFiles_sat (((fileClose_atomic h live).and close)) (fun _ _ quiet => ?_)
        (K := fun _ u => Log.CrashSafe Sound s₀.files.vol.blk u.files.vol.blk) ?_)
        fun _ u hu => .modified hu
      · exact safe.trans (.of_same h.sound quiet.1 quiet.2)
      · rintro _ t ⟨all, N', P', L', ht, -⟩
        exact safe.trans (Atomic.sound h ht all)
    next => exact .pure safe
  next => exact .pure safe

/-- Every close of a process that ends is a transaction of its own. -/
theorem exitFds_sound (k : ℕ) (h : FsState N T P Q L s.files) (during : During p (fun _ => 0) s) :
    Comp.Sat (.forUpTo k (exitFd p)) s
      (fun _ u => Log.CrashSafe Sound s.files.vol.blk u.files.vol.blk)
      fun _ u => Log.CrashSafe Sound s.files.vol.blk u.files.vol.blk := by
  refine Comp.Sat.post (Comp.Sat.forUpTo (I := fun k u => After Q [] u.files ∧
    Log.CrashSafe Sound s.files.vol.blk u.files.vol.blk ∧ During p (fun _ => 0) u ∧
      ∀ d : Fin NOFILE, d.val < k → (u.kernel.proc p).ofile d = none)
    ⟨h.after [], .refl h.sound, during, fun d hd => absurd hd (Nat.not_lt_zero _)⟩ ?_) fun _ _ hu => hu.2.1
  rintro k - u ⟨⟨N', T', P', Qc, L', hu, strays⟩, safe, during', closed⟩
  have none : Qc = [] := strays.absolute (by simp)
  rw [none] at hu
  have keep : Comp.Sat (exitFd p k) u (fun w v => Stops True w v.files) _ := exitFd_fs hu during'
  refine ((exitFd_sound hu during' safe).and (keep.and (exitFd_sat during' closed))).post ?_
  rintro _ v ⟨safe', after, during'', closed'⟩
  exact ⟨after, safe', during'', closed'⟩

end Ends

section Runs

/-- What a crash of a computation with outcome `o` may leave on the disk. -/
def CrashLeaves {α : Type} (s : System) (o : Outcome System α) (d : ℕ → Block) : Prop :=
  ∃ ws done, o.state.files.vol.blk.bio.issued = s.files.vol.blk.bio.issued ++ ws ∧ done <+: ws ∧
    d = applyWrites done s.files.vol.blk.bio.disk

/-- The file system is whole: no block has two owners, no file has holes, the linked directories form a
    tree and every link count is exact. -/
structure Whole (v : Vol) : Prop where
  blocks : BlocksExclusive v
  noHoles : NoHoles v
  tree : TreeIntegrity v
  links : LinksExact v

theorem Between.whole {R : List Ref} {v : Vol} (h : Between N R L v) (tree : Tree [] N T) : Whole v :=
  ⟨Between.exclusive h, Between.noHoles h, h.treeIntegrity tree, fun _ used => Between.nlink_eq h tree used⟩

variable {Ly : Layout} {tr : List (Event × System)} {b : Blk} {d : ℕ → Block}

/-- A recovery of a sound disk returns, and every one leads to a whole file system. -/
theorem Sound.recovers (h : Sound d) : (∃ b, Log.Recovers d b) ∧
    ∀ b, Log.Recovers d b → Whole (remount b) := by
  obtain ⟨N, T, P, Q, L, t, ht, recoverable⟩ := h
  refine ⟨recoverable.returns, fun b recovers => ?_⟩
  obtain ⟨between, tree⟩ := ht.between.remount ht.world.tree (recoverable.restarted recovers)
  exact Between.whole between tree

/-- The writes of an outcome are those between its two states. -/
theorem CrashLeaves.of_safe {α : Type} {Z : (ℕ → Block) → Prop} {o : Outcome System α}
    (safe : Log.CrashSafe Z s.files.vol.blk o.state.files.vol.blk) (crash : CrashLeaves s o d) : Z d := by
  obtain ⟨ws, done, issued, hd, rfl⟩ := crash
  obtain ⟨ws', issued', all⟩ := safe
  obtain rfl : ws' = ws := List.append_cancel_left (issued'.issued.symm.trans issued)
  rw [List.prefix_iff_eq_take.mp hd]
  exact all _

/-- The calls whose changes are one transaction at most. -/
def Call.single : Call → Bool
  | .write _ _ _ => false
  | _ => true

theorem call_atomic (c : Call) (one : c.single = true) (h : FsState N T P Q L s.files)
    (during : During p (fun _ => 0) s) :
    Comp.Sat (c.comp p) s (fun _ u => Untouched s u) fun _ u => Atomic s.files.vol u.files.vol := by
  cases c with
  | «open» ptr omode => exact sysOpen_atomic h
  | close fd => exact sysClose_atomic h during
  | read fd addr n => exact sysRead_atomic h
  | write fd addr n => cases one
  | mkdir ptr => exact sysMkdir_atomic h
  | unlink ptr => exact sysUnlink_atomic h
  | link oldptr newptr => exact sysLink_atomic h
  | fstat fd addr => exact sysFstat_atomic h
  | dup fd => exact sysDup_atomic h

theorem call_sound (c : Call) (h : FsState N T P Q L s.files) (during : During p (fun _ => 0) s) :
    Comp.Sat (c.comp p) s (fun _ u => Log.CrashSafe Sound s.files.vol.blk u.files.vol.blk)
      fun _ u => Log.CrashSafe Sound s.files.vol.blk u.files.vol.blk := by
  by_cases one : c.single = true
  · refine ((call_atomic c one h during).and (call_fs c h during)).imp (fun _ _ quiet => ?_) ?_
    · exact .of_same h.sound quiet.1 quiet.2
    · rintro r u ⟨all, N', T', P', Qc, L', hu, -⟩
      exact Atomic.sound h hu all
  · cases c with
    | write fd addr n => exact sysWrite_sound h during
    | _ => exact absurd rfl one

/-- A crash at any write of any call, or of the closes of an exit, in any state of any run leaves a disk
    that some recovery brings to its end; however often crashes cut the recoveries before it short, the
    first to return finds a whole file system. -/
theorem crash_consistent (start : Started s) (hr : Along (Step Ly) s tr)
    (running : ((final s tr).kernel.proc p).state = .running) :
    (∀ (mem : UserMem) (c : Call) d,
      CrashLeaves (final s tr) ((c.comp p).run ((final s tr).withUser mem)) d →
        (∃ b, Log.Recovers d b) ∧ ∀ b, Log.Recovers d b → Whole (remount b)) ∧
    ∀ k d, CrashLeaves (final s tr) ((Comp.forUpTo k (exitFd p)).run (final s tr)) d →
      (∃ b, Log.Recovers d b) ∧ ∀ b, Log.Recovers d b → Whole (remount b) := by
  have ready := start.run hr
  obtain ⟨N, T, P, Q, L, hs⟩ := ready.fs
  have during := ready.refs.during running
  constructor
  · intro mem c d crash
    have user : During p (fun _ => 0) ((final s tr).withUser mem) :=
      ⟨during.refs, during.closed, during.busy⟩
    have spec := call_sound c (s := (final s tr).withUser mem) (hs.user mem) user
    refine Sound.recovers (crash.of_safe ?_)
    cases ho : (c.comp p).run ((final s tr).withUser mem) with
    | ok r u => exact spec.ok ho
    | halt w u => exact spec.halted ho
  · intro k d crash
    have spec := exitFds_sound k hs during
    refine Sound.recovers (crash.of_safe ?_)
    cases ho : (Comp.forUpTo k (exitFd p)).run (final s tr) with
    | ok r u => exact spec.ok ho
    | halt w u => exact spec.halted ho

/-- Every call but `sys_write` is atomic: after a crash at any of its writes the recovered disk is that
    before the call or, if the call would have returned, that after it. -/
theorem calls_crash_atomic (start : Started s) (hr : Along (Step Ly) s tr)
    (running : ((final s tr).kernel.proc p).state = .running) {mem : UserMem} {c : Call}
    (one : c.single = true)
    (crash : CrashLeaves (final s tr) ((c.comp p).run ((final s tr).withUser mem)) d)
    (recovers : Log.Recovers d b) :
    (∀ a, ¬ Log.InLog a → b.bio.disk a = (final s tr).files.vol.blk.bio.disk a) ∨
    ∃ r u, (c.comp p).run ((final s tr).withUser mem) = .ok r u ∧
      ∀ a, ¬ Log.InLog a → b.bio.disk a = u.files.vol.blk.bio.disk a := by
  have ready := start.run hr
  obtain ⟨N, T, P, Q, L, hs⟩ := ready.fs
  have during := ready.refs.during running
  have user : During p (fun _ => 0) ((final s tr).withUser mem) :=
    ⟨during.refs, during.closed, during.busy⟩
  have spec := call_atomic c one (s := (final s tr).withUser mem) (hs.user mem) user
  cases ho : (c.comp p).run ((final s tr).withUser mem) with
  | ok r u =>
    rw [ho] at crash
    rcases crash.of_safe (spec.ok ho) with old | new
    · exact Or.inl (old.disk recovers)
    · exact Or.inr ⟨r, u, rfl, new.disk recovers⟩
  | halt w u =>
    rw [ho] at crash
    have quiet : Untouched ((final s tr).withUser mem) u := spec.halted ho
    have same : Log.CrashSafe (Log.Recoverable (final s tr).files.vol.blk.bio.disk)
        (final s tr).files.vol.blk u.files.vol.blk :=
      .of_same (Between.recoverable hs.between) quiet.1 quiet.2
    exact Or.inl ((crash.of_safe same).disk recovers)

end Runs

section Example

/-- The disk after a crash in the middle of the commit that makes the directory `/a`. -/
def exampleCut : ℕ → Block := applyWrites (exampleMade.files.vol.blk.bio.issued.take 7) emptyDisk

/-- What the next boot makes of it. -/
def exampleRecovered : Blk := ((Log.logInit ROOTDEV Log.formatted).run (Log.boot exampleCut)).state

theorem exampleCut_leaves : CrashLeaves exampleSystem
    ((sysMkdir 0).run (exampleSystem.withUser (stringMem [SLASH, 97]))) exampleCut :=
  ⟨exampleMade.files.vol.blk.bio.issued, _, rfl, List.take_prefix 7 _, rfl⟩

theorem exampleCut_recovers : Log.Recovers exampleCut exampleRecovered := by
  have value : ((Log.logInit ROOTDEV Log.formatted).run (Log.boot exampleCut)).value = some () := by
    decide +kernel
  exact .returned (Outcome.eq_ok value)

theorem exampleSystem_running : (exampleSystem.kernel.proc proczero).state = .running := rfl

theorem exampleSystem_along : Along (Step exampleLayout) exampleSystem [] := trivial

theorem crash_consistent_cut : Whole (remount exampleRecovered) :=
  ((crash_consistent exampleSystem_started exampleSystem_along exampleSystem_running).1
    (stringMem [SLASH, 97]) (.mkdir 0) exampleCut exampleCut_leaves).2 exampleRecovered
    exampleCut_recovers

theorem calls_crash_atomic_cut :
    (∀ a, ¬ Log.InLog a → exampleRecovered.bio.disk a = emptyDisk a) ∨
    ∃ r u, (sysMkdir 0).run (exampleSystem.withUser (stringMem [SLASH, 97])) = .ok r u ∧
      ∀ a, ¬ Log.InLog a → exampleRecovered.bio.disk a = u.files.vol.blk.bio.disk a :=
  have leaves : CrashLeaves (final exampleSystem [])
      ((Call.comp proczero (.mkdir 0)).run (exampleSystem.withUser (stringMem [SLASH, 97])))
      exampleCut := exampleCut_leaves
  calls_crash_atomic exampleSystem_started exampleSystem_along exampleSystem_running rfl leaves
    exampleCut_recovers

end Example

end EasyXv6.Sys
