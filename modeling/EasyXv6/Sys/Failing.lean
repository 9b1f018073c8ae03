import EasyXv6.Fs.Observed
import EasyXv6.Sys.Kept

set_option autoImplicit false

/-!
# Calls that fail

A call that returns -1 is compared with the state before it: the disk outside the log, the loaded
inodes, the open files and the descriptors.
-/
namespace EasyXv6.Fs.Vol
open Lib

/-- The disk holds the same files: the inodes, the bitmap and the contents of all blocks. -/
structure SameOnDisk (s v : Vol) : Prop where
  inode : ∀ i < NINODES, v.onDisk i = s.onDisk i
  block : ∀ b, ¬ Log.InLog b → b < INODES ∨ BITMAP ≤ b → v.blk.bio.disk b = s.blk.bio.disk b

/-- A loaded copy of the inode `i` differs from that on the disk. -/
def Unsynced (s : Vol) (i : ℕ) : Prop :=
  ∃ ip, Loaded s ip ∧ (s.inode ip).inum = i ∧ (s.inode ip).d ≠ s.onDisk i

variable {N N' : ℕ → Node} {R R' : List Ref} {L L' : List (Fin NINODE)} {s u v : Vol} {i : ℕ}

theorem SameDisk.sameOnDisk (h : SameDisk s v) : SameOnDisk s v := by
  refine ⟨fun i _ => ?_, fun b hb _ => h b hb⟩
  unfold onDisk
  rw [h _ (not_inLog_of_high (Nat.le_add_right ..))]

/-- A state in which a free inode is in use has other files on the disk. -/
theorem Between.not_sameOnDisk (h : Between N R L s) (h' : Between N' R' L' v)
    (free : (N i).type = 0) (used : (N' i).type ≠ 0) : ¬ SameOnDisk s v := by
  intro same
  obtain ⟨V, D, at', rfl⟩ := h'.at0
  obtain ⟨h1, hi, -⟩ := nodes_type_ne used
  rw [← h'.type_onDisk h1 hi, same.inode i hi, h.type_onDisk h1 hi] at used
  exact used free

theorem Between.resaved_lt (h : Between N R L s) (saved : Resaved i L' s.begun u) : i < NINODES := by
  obtain ⟨ip, t, look, loaded, rfl, -⟩ := saved.fresh
  rcases look.fresh ip loaded with ⟨old, inum, -⟩ | ⟨lt, -⟩
  · rw [inum]
    exact (h.fsys.alloc (h.fsys.refs.mem old.live)).2.1
  · exact lt

/-- Where only the inode `i` has been written, the disk is the same exactly when the copy that the
    kernel goes by was the one on the disk. -/
theorem Between.resaved_iff (h : Between N R (loadedSlots s) s) (hi : i < NINODES)
    (saved : Resaved i (loadedSlots s) s.begun u) (ended : Ended u v) :
    SameOnDisk s v ↔ ¬ Unsynced s i := by
  have logged : Log.LogCtx.logged u.blk.ctx = [INODES + i / IPB] := by
    rw [saved.logged, show Log.LogCtx.logged s.begun.blk.ctx = [] from h.logged]
    rfl
  have home : ∀ j, ¬ Log.InLog (INODES + j / IPB) := fun j =>
    not_inLog_of_high (Nat.le_add_right ..)
  have other : ∀ b, b ≠ INODES + i / IPB → ¬ Log.InLog b →
      v.blk.bio.disk b = s.blk.bio.disk b := by
    intro b hb hlog
    rw [ended.disk b hlog, logged, Log.committed, if_neg (by simpa using hb), saved.disk]
    rfl
  have written : v.blk.bio.disk (INODES + i / IPB) = u.view (INODES + i / IPB) := by
    rw [ended.disk _ (home i), logged, Log.committed, if_pos List.mem_cons_self]
  -- the other inodes in the block of `i` are written as they were
  have inode : ∀ j < NINODES, j ≠ i → v.onDisk j = s.onDisk j := by
    intro j hj hne
    by_cases same : INODES + j / IPB = INODES + i / IPB
    · have := saved.stored j hj hne
      unfold stored at this
      rw [onDisk, same, written, ← same, this]
      exact h.stored_eq hj
    · rw [onDisk, other _ same (home j), onDisk]
  have self : v.onDisk i = u.stored i := by rw [onDisk, written, stored]
  constructor
  · rintro same ⟨ip, loaded, inum, differs⟩
    have copy := saved.own ip (mem_loadedSlots.mpr loaded) inum
    exact differs ((copy.symm.trans self.symm).trans (same.inode i hi))
  · intro synced
    refine ⟨fun j hj => ?_, fun b hlog hb => other b ?_ hlog⟩
    · by_cases hne : j = i
      · obtain ⟨ip, t, look, loaded, inum, copy⟩ := saved.fresh
        rw [hne, self, copy]
        rcases look.fresh ip loaded with ⟨old, inum', same⟩ | ⟨-, same⟩
        · by_contra differs
          rw [same] at differs
          exact synced ⟨ip, ⟨old.live, old.valid⟩, inum'.symm.trans inum, differs⟩
        · rw [same, inum]
          exact h.stored_eq hi
      · exact inode j hj hne
    · have below := Image.inodeBlock_le hi
      have above : INODES ≤ INODES + i / IPB := Nat.le_add_right ..
      omega

end EasyXv6.Fs.Vol

namespace EasyXv6.Sys
open Lib Mem Proc Fs Vol

variable {N : ℕ → Node} {T : Dirs} {P Q : List Ref} {L : List (Fin NINODE)} {s s' : System}
  {p : Fin NPROC} {Ly : Layout} {mem : UserMem}

/-- The calls that change names. -/
def Call.IsName : Call → Prop
  | .mkdir _ => True
  | .unlink _ => True
  | .link _ _ => True
  | _ => False

/-- The call is a `sys_link` that counts a link of a file of which a loaded copy differs from that on
    the disk. -/
def LinksUnsynced (N : ℕ → Node) (T : Dirs) (mem : UserMem) (v : Vol) : Call → Prop
  | .link oldptr newptr => ∃ oldpath i, pathAt mem oldptr = some oldpath ∧ pathAt mem newptr ≠ none ∧
      LinkSource N T oldpath i ∧ Unsynced v i
  | _ => False

/-- The disk holds the same files, and the inodes that were loaded still are. -/
def Unchanged (s v : Vol) : Prop := SameOnDisk s v ∧ SameLoaded s v

/-- A failed call keeps what was loaded. -/
theorem Names.sameLoaded {paths : List (List UInt8)} {F : Vol → Prop}
    (h : FsState N T P Q (loadedSlots s.files.vol) s.files)
    (names : Names N P Q (loadedSlots s.files.vol) s s' paths F)
    (keep : ∀ u, F u → ∀ jp ∈ loadedSlots s.files.vol, (u.inode jp).d = (s.files.vol.inode jp).d) :
    SameLoaded s.files.vol s'.files.vol := by
  obtain ⟨N', T', Qc, u, -, -, hs', hF, ended, -⟩ := names
  refine Vol.sameLoaded h.between.fsys hs'.between.fsys ?_ fun jp hj => ?_
  · exact fun x hx => (List.mem_append.mp hx).elim (fun hx => List.mem_append_left _ hx)
      fun hx => List.mem_append_right _ (List.mem_append_right Qc hx)
  · rw [ended.rest]
    exact keep u hF jp hj

theorem Unchanged.refl (v : Vol) : Unchanged v v :=
  ⟨⟨fun _ _ => rfl, fun _ _ _ => rfl⟩, fun _ loaded => ⟨loaded, rfl, rfl⟩⟩

/-- A call whose transaction has only looked at the file system changes nothing. -/
theorem Names.unchanged {paths : List (List UInt8)} {F : Vol → Prop}
    (h : FsState N T P Q (loadedSlots s.files.vol) s.files)
    (names : Names N P Q (loadedSlots s.files.vol) s s' paths F)
    (look : ∀ u, F u → Looked (loadedSlots s.files.vol) s.files.vol.begun u) :
    Unchanged s.files.vol s'.files.vol := by
  refine ⟨?_, names.sameLoaded h fun u hF jp hj => (look u hF).keep jp hj⟩
  obtain ⟨N', T', Qc, u, -, -, -, hF, ended, -⟩ := names
  exact (h.between.sameDisk (look u hF) ended).sameOnDisk

theorem linkSource_unique {oldpath : List UInt8} {i j : ℕ} (h : LinkSource N T oldpath i)
    (h' : LinkSource N T oldpath j) : i = j := by
  obtain ⟨⟨name, found⟩, -⟩ := h
  obtain ⟨⟨name', found'⟩, -⟩ := h'
  rw [found] at found'
  exact (Prod.mk.inj (Option.some.inj found')).1

theorem FsState.name_failed_iff (c : Call) (h : FsState N T P Q (loadedSlots s.files.vol) s.files)
    (name : c.IsName) (failed : (c.comp p).run s = .ok (-1) s') :
    Unchanged s.files.vol s'.files.vol ↔
      ¬ LinksUnsynced N T s.files.vol.user s.files.vol c := by
  cases c with
  | mkdir ptr =>
    refine iff_of_true ?_ id
    rcases (sysMkdir_fs True h).ok failed with ⟨-, -, rfl⟩ | ⟨path, -, names⟩
    · exact .refl _
    · exact names.unchanged h fun u hu => hu rfl
  | unlink ptr =>
    refine iff_of_true ?_ id
    rcases (sysUnlink_fs h).ok failed with ⟨-, -, rfl⟩ | ⟨path, -, names⟩
    · exact .refl _
    · exact names.unchanged h fun u hu => hu rfl
  | link oldptr newptr =>
    rcases (sysLink_fs True h).ok failed with ⟨none, -, rfl⟩ | ⟨oldpath, newpath, hold, hnew, names⟩
    · refine iff_of_true (.refl _) ?_
      rintro ⟨oldpath, i, hold, hnew, -⟩
      rcases none with none | none
      · rw [none] at hold
        cases hold
      · exact hnew none
    have keep := names.sameLoaded h fun u hu jp hj => by
      rcases hu rfl with ⟨look, -⟩ | ⟨i, -, saved⟩
      · exact look.keep jp hj
      · exact saved.keep jp hj
    obtain ⟨N', T', Qc, u, -, -, -, hu, ended, -⟩ := names
    rcases hu rfl with ⟨look, no⟩ | ⟨i, source, saved⟩
    · refine iff_of_true ⟨(h.between.sameDisk look ended).sameOnDisk, keep⟩ ?_
      rintro ⟨oldpath', i, hold', -, source, -⟩
      rw [hold, Option.some.injEq] at hold'
      subst hold'
      exact no i source
    · have hi := h.between.resaved_lt saved
      rw [Unchanged, and_iff_left keep, h.between.resaved_iff hi saved ended]
      refine not_congr ⟨fun un => ⟨oldpath, i, hold, ?_, source, un⟩, ?_⟩
      · rw [hnew]
        exact nofun
      · rintro ⟨oldpath', j, hold', -, source', un⟩
        rw [hold, Option.some.injEq] at hold'
        subst hold'
        rwa [linkSource_unique source source']
  | _ => exact name.elim

/-- In every state of every run a `sys_mkdir`, `sys_unlink` or `sys_link` that fails changes nothing,
    but for a `sys_link` of a file of which a loaded copy differs from that on the disk. -/
theorem failed_names_atomic_iff {s₀ : System} {tr : List (Event × System)} (start : Started s₀)
    (hr : Along (Step Ly) s₀ tr) (before : s = (final s₀ tr).withUser mem) {c : Call}
    (name : c.IsName) (failed : (c.comp p).run s = .ok (-1) s') :
    ∃ N T P Q L, FsState N T P Q L s.files ∧
      (Unchanged s.files.vol s'.files.vol ↔ ¬ LinksUnsynced N T mem s.files.vol c) := by
  obtain ⟨N, T, P, Q, L, h⟩ := (start.run hr).fs
  subst before
  have here : FsState N T P Q _ ((final s₀ tr).withUser mem).files := (h.user mem).complete
  exact ⟨N, T, P, Q, _, here, here.name_failed_iff c name failed⟩

section Example

/-- Two paths in the memory of the process: `/f` at 0 and `/x/y` at 3. -/
def exampleLinkMem : UserMem := stringMem [SLASH, 102, 0, SLASH, 120, SLASH, 121]

/-- The process makes a file. -/
def exampleCreated : System :=
  ((sysOpen proczero 0 (O_CREATE ||| O_RDWR)).run (exampleSystem.withUser exampleLinkMem)).state

/-- A write from memory that is not mapped fails. -/
def exampleUnsynced : System :=
  ((sysWrite proczero 0 0 1).run (exampleCreated.withUser fun _ => none)).state

/-- A link in a directory that there is not fails. -/
def exampleUnlinked : System :=
  ((sysLink 0 3).run (exampleUnsynced.withUser exampleLinkMem)).state

theorem exampleUnlinked_run : (sysLink 0 3).run (exampleUnsynced.withUser exampleLinkMem) =
    .ok (-1) exampleUnlinked := by
  have value : ((sysLink 0 3).run (exampleUnsynced.withUser exampleLinkMem)).value = some (-1) := by
    decide +kernel
  exact Outcome.eq_ok value

theorem exampleUnsynced_run : Along (Step exampleLayout) exampleSystem
    [(.call proczero exampleLinkMem (.open 0 (O_CREATE ||| O_RDWR)) 0, exampleCreated),
      (.call proczero (fun _ => none) (.write 0 0 1) (-1), exampleUnsynced)] := by
  have create : ((sysOpen proczero 0 (O_CREATE ||| O_RDWR)).run
      (exampleSystem.withUser exampleLinkMem)).value = some 0 := by decide +kernel
  have write : ((sysWrite proczero 0 0 1).run (exampleCreated.withUser fun _ => none)).value =
      some (-1) := by decide +kernel
  have running : (exampleCreated.kernel.proc proczero).state = .running := by decide +kernel
  exact ⟨.call rfl (Outcome.eq_ok create), .call running (Outcome.eq_ok write), trivial⟩

/-- The failing link writes the address of a block that the file has no use for. -/
theorem failed_link_not_atomic : ∃ s', Started exampleSystem ∧
    Along (Step exampleLayout) exampleSystem
      [(.call proczero exampleLinkMem (.open 0 (O_CREATE ||| O_RDWR)) 0, exampleCreated),
        (.call proczero (fun _ => none) (.write 0 0 1) (-1), exampleUnsynced)] ∧
    (sysLink 0 3).run (exampleUnsynced.withUser exampleLinkMem) = .ok (-1) s' ∧
    ((exampleUnsynced.withUser exampleLinkMem).files.vol.onDisk 2).addr 0 = 0 ∧
    (s'.files.vol.onDisk 2).addr 0 ≠ 0 ∧
    ¬ Unchanged (exampleUnsynced.withUser exampleLinkMem).files.vol s'.files.vol := by
  have before : ((exampleUnsynced.withUser exampleLinkMem).files.vol.onDisk 2).addr 0 = 0 := by
    decide +kernel
  have after : (exampleUnlinked.files.vol.onDisk 2).addr 0 ≠ 0 := by decide +kernel
  refine ⟨_, exampleSystem_started, exampleUnsynced_run, exampleUnlinked_run, before, after,
    fun same => after ?_⟩
  rw [same.1.inode 2 (by decide)]
  exact before

theorem failed_names_atomic_iff_link : ∃ (s' : System) (N : ℕ → Node) (T : Dirs) (P Q : List Ref)
    (L : List (Fin NINODE)),
    (sysLink 0 3).run (exampleUnsynced.withUser exampleLinkMem) = .ok (-1) s' ∧
    FsState N T P Q L (exampleUnsynced.withUser exampleLinkMem).files ∧
      (Unchanged (exampleUnsynced.withUser exampleLinkMem).files.vol s'.files.vol ↔
        ¬ LinksUnsynced N T exampleLinkMem (exampleUnsynced.withUser exampleLinkMem).files.vol
          (.link 0 3)) := by
  obtain ⟨N, T, P, Q, L, h⟩ := failed_names_atomic_iff (p := proczero) (c := .link 0 3)
    exampleSystem_started exampleUnsynced_run rfl trivial exampleUnlinked_run
  exact ⟨_, N, T, P, Q, L, exampleUnlinked_run, h⟩

end Example

section Open

variable {omode : BitVec 32} {ptr : ℕ}

/-- A `sys_open` that fails has had no effect. -/
def NoEffect (s s' : System) : Prop :=
  SameOnDisk s.files.vol s'.files.vol ∧ SameOpen s.files s'.files ∧ s'.kernel = s.kernel

theorem FsState.open_failed_iff (h : FsState N T P Q L s.files)
    (failed : (sysOpen p ptr omode).run s = .ok (-1) s') :
    NoEffect s s' ↔ ¬ ∃ path, pathAt s.files.vol.user ptr = some path ∧ Creates T path omode ∧
      Exhausted s p := by
  rcases (sysOpen_fs True h).ok failed with ⟨none, -, rfl⟩ | ⟨path, hpath, opened⟩
  · refine iff_of_true ⟨⟨fun _ _ => rfl, fun _ _ _ => rfl⟩, .refl _, rfl⟩ ?_
    rintro ⟨path, hpath, -⟩
    rw [none] at hpath
    cases hpath
  obtain ⟨N', T', P', Qc, L', u, -, -, hs', ended, ⟨-, rfl, kernel, same, cases⟩ | good⟩ := opened
  · rcases cases with ⟨never, look⟩ | ⟨new, full, j, free, used⟩
    · refine iff_of_true ⟨(h.between.sameDisk look ended).sameOnDisk, same, kernel⟩ ?_
      rintro ⟨path', hpath', new, -⟩
      rw [hpath, Option.some.injEq] at hpath'
      exact never (hpath' ▸ new)
    · refine iff_of_false (fun none => ?_) (not_not.mpr ⟨path, hpath, new, full⟩)
      exact h.between.not_sameOnDisk hs'.between free used none.1
  · exact absurd good (by decide)

/-- In every state of every run a `sys_open` that fails has no effect, but for one that has made a
    file and finds no free entry in the table of open files or in that of descriptors. -/
theorem failed_open_no_effect_iff {s₀ : System} {tr : List (Event × System)} (start : Started s₀)
    (hr : Along (Step Ly) s₀ tr) (before : s = (final s₀ tr).withUser mem)
    (failed : (sysOpen p ptr omode).run s = .ok (-1) s') :
    ∃ N T P Q L, FsState N T P Q L s.files ∧
      (NoEffect s s' ↔ ¬ ∃ path, pathAt mem ptr = some path ∧ Creates T path omode ∧
        Exhausted s p) := by
  obtain ⟨N, T, P, Q, L, h⟩ := (start.run hr).fs
  subst before
  have here : FsState N T P Q L ((final s₀ tr).withUser mem).files := h.user mem
  exact ⟨N, T, P, Q, L, here, here.open_failed_iff failed⟩

/-- The process has opened the root and taken `n` more descriptors of it. -/
def exampleDups : ℕ → System
  | 0 => ((sysOpen proczero 0 O_RDONLY).run (exampleSystem.withUser (stringMem [SLASH]))).state
  | n + 1 => ((sysDup proczero 0).run ((exampleDups n).withUser fun _ => none)).state

def exampleDupRun : ℕ → List (Event × System)
  | 0 => [(.call proczero (stringMem [SLASH]) (.open 0 O_RDONLY) 0, exampleDups 0)]
  | n + 1 => exampleDupRun n ++
      [(.call proczero (fun _ => none) (.dup 0) (n + 1 : ℕ), exampleDups (n + 1))]

theorem exampleDupRun_along {n : ℕ} (hn : n ≤ 15) :
    Along (Step exampleLayout) exampleSystem (exampleDupRun n) ∧
      final exampleSystem (exampleDupRun n) = exampleDups n := by
  have values : ∀ n < 15, ((sysDup proczero 0).run ((exampleDups n).withUser fun _ => none)).value =
      some ((n + 1 : ℕ) : ℤ) := by decide +kernel
  have running : ∀ n < 15, ((exampleDups n).kernel.proc proczero).state = .running := by
    decide +kernel
  induction n with
  | zero => exact ⟨⟨.call rfl (Outcome.eq_ok exampleSystem_open), trivial⟩, rfl⟩
  | succ n ih =>
    obtain ⟨run, last⟩ := ih (Nat.le_of_succ_le hn)
    unfold exampleDupRun
    refine ⟨Along.append.mpr ⟨run, ?_, trivial⟩, final_append _ _ _⟩
    rw [last]
    exact .call (running n hn) (Outcome.eq_ok (values n hn))

def exampleOpenMem : UserMem := stringMem [SLASH, 102]

theorem exampleFull_run : (sysOpen proczero 0 O_CREATE).run
    ((exampleDups 15).withUser exampleOpenMem) = .ok (-1)
      ((sysOpen proczero 0 O_CREATE).run ((exampleDups 15).withUser exampleOpenMem)).state := by
  have value : ((sysOpen proczero 0 O_CREATE).run ((exampleDups 15).withUser exampleOpenMem)).value =
      some (-1) := by decide +kernel
  exact Outcome.eq_ok value

/-- The process has no free descriptor, and the file that it was to open stays. -/
theorem failed_open_makes_file : ∃ s', Started exampleSystem ∧
    Along (Step exampleLayout) exampleSystem (exampleDupRun 15) ∧
    (sysOpen proczero 0 O_CREATE).run
      ((final exampleSystem (exampleDupRun 15)).withUser exampleOpenMem) = .ok (-1) s' ∧
    ¬ NoEffect ((final exampleSystem (exampleDupRun 15)).withUser exampleOpenMem) s' := by
  obtain ⟨run, last⟩ := exampleDupRun_along (Nat.le_refl 15)
  rw [last]
  have free : (((exampleDups 15).withUser exampleOpenMem).files.vol.onDisk 2).type = 0 := by
    decide +kernel
  have made : (((sysOpen proczero 0 O_CREATE).run
      ((exampleDups 15).withUser exampleOpenMem)).state.files.vol.onDisk 2).type ≠ 0 := by
    decide +kernel
  refine ⟨_, exampleSystem_started, run, exampleFull_run, fun none => made ?_⟩
  rw [none.1.inode 2 (by decide)]
  exact free

theorem failed_open_no_effect_iff_full : ∃ (s' : System) (N : ℕ → Node) (T : Dirs)
    (P Q : List Ref) (L : List (Fin NINODE)),
    (sysOpen proczero 0 O_CREATE).run ((exampleDups 15).withUser exampleOpenMem) = .ok (-1) s' ∧
    FsState N T P Q L ((exampleDups 15).withUser exampleOpenMem).files ∧
      (NoEffect ((exampleDups 15).withUser exampleOpenMem) s' ↔
        ¬ ∃ path, pathAt exampleOpenMem 0 = some path ∧ Creates T path O_CREATE ∧
          Exhausted ((exampleDups 15).withUser exampleOpenMem) proczero) := by
  obtain ⟨run, last⟩ := exampleDupRun_along (Nat.le_refl 15)
  obtain ⟨N, T, P, Q, L, h⟩ := failed_open_no_effect_iff exampleSystem_started run
    (by rw [last]) (exampleFull_run)
  exact ⟨_, N, T, P, Q, L, exampleFull_run, h⟩

end Open

end EasyXv6.Sys
