import EasyXv6.Sys.Kept

set_option autoImplicit false

/-!
# References to inodes

Every reference to a slot of the inode cache is one of an open file, unless a call has walked a path
that does not start with `/`.
-/
namespace EasyXv6.Sys
open Lib Mem Proc Fs Vol

variable {N : ℕ → Node} {T : Dirs} {P Q : List Ref} {L : List (Fin NINODE)} {s s' : System}
  {Ly : Layout} {e : Event} {tr : List (Event × System)}

/-- The references to the slots of the cache are those of the open files. -/
def InodeRefsExact (t : Files) : Prop := ∀ ip, (t.vol.inode ip).ref = slotUses t.file ip

theorem FsState.inode_refs {t : Files} (h : FsState N T P [] L t) : InodeRefsExact t := by
  intro ip
  rw [h.between.fsys.refs.count, List.append_nil, h.opens.count]

/-- All paths that are walked in a step start at the root. -/
def Absolute (e : Event) : Prop := ∀ path ∈ e.paths, path.head? = some SLASH

/-- Between two calls no walk has left a reference behind. -/
structure Tidy (s : System) : Prop where
  refs : RefsExact s
  fs : ∃ N T P L, FsState N T P [] L s.files

theorem Tidy.step (h : Tidy s) (st : Step Ly s e s') (abs : Absolute e) : Tidy s' := by
  obtain ⟨N, T, P, L, hs⟩ := h.fs
  obtain ⟨N', T', P', Qc, L', hs', strays⟩ := st.after hs h.refs
  rw [strays.absolute abs] at hs'
  exact ⟨h.refs.step st, N', T', P', L', hs'⟩

/-- In every state of every run whose calls walk absolute paths only, each slot of the inode cache has
    as many references as there are open files on it. -/
theorem inode_refs_exact (start : Started s)
    (hr : Along (fun s e s' => Step Ly s e s' ∧ Absolute e) s tr) :
    InodeRefsExact (final s tr).files := by
  obtain ⟨N, hs⟩ := start.fs
  have tidy : Tidy (final s tr) :=
    Along.invariant (fun _ _ _ h st => Tidy.step h st.1 st.2) hr
      ⟨start.noFiles.exact, N, rootTree, [], [], hs⟩
  obtain ⟨N, T, P, L, hs⟩ := tidy.fs
  exact hs.inode_refs

section Example

theorem exampleSystem_open_along : Along (fun s e s' => Step exampleLayout s e s' ∧ Absolute e)
    exampleSystem [(.call proczero (stringMem [SLASH]) (.open 0 O_RDONLY) 0,
      ((sysOpen proczero 0 O_RDONLY).run (exampleSystem.withUser (stringMem [SLASH]))).state)] := by
  refine ⟨⟨.call rfl (Outcome.eq_ok exampleSystem_open), fun path hp => ?_⟩, trivial⟩
  have paths : Event.paths (.call proczero (stringMem [SLASH]) (.open 0 O_RDONLY) 0) = [[SLASH]] := by
    decide +kernel
  rw [paths, List.mem_singleton] at hp
  rw [hp]
  rfl

theorem inode_refs_exact_open : InodeRefsExact
    ((sysOpen proczero 0 O_RDONLY).run (exampleSystem.withUser (stringMem [SLASH]))).state.files :=
  inode_refs_exact exampleSystem_started exampleSystem_open_along

/-- The process has tried to remove `x`, which is not there. -/
def exampleLeaked : System :=
  ((sysUnlink 0).run (exampleSystem.withUser (stringMem [120]))).state

/-- A call with a relative path leaves a reference to the root. -/
theorem inode_refs_leak : Started exampleSystem ∧ Along (Step exampleLayout) exampleSystem
      [(.call proczero (stringMem [120]) (.unlink 0) (-1), exampleLeaked)] ∧
    (∀ f, (exampleLeaked.files.file f).ref = 0) ∧ (exampleLeaked.files.vol.inode 0).ref = 1 ∧
      ¬ InodeRefsExact exampleLeaked.files := by
  have value : ((sysUnlink 0).run (exampleSystem.withUser (stringMem [120]))).value = some (-1) := by
    decide +kernel
  have none : ∀ f, (exampleLeaked.files.file f).ref = 0 := by decide +kernel
  have one : (exampleLeaked.files.vol.inode 0).ref = 1 := by decide +kernel
  refine ⟨exampleSystem_started, ⟨.call rfl (Outcome.eq_ok value), trivial⟩, none, one,
    fun exact' => ?_⟩
  have zero : slotUses exampleLeaked.files.file 0 = 0 :=
    Finset.sum_eq_zero fun f _ => if_neg fun live => absurd (none f) (ne_of_gt live.1)
  have refs := exact' 0
  rw [one, zero] at refs
  cases refs

end Example

end EasyXv6.Sys
