import EasyXv6.Fs.Linked
import EasyXv6.Sys.Kept

set_option autoImplicit false

/-!
# The directory tree along runs
-/
namespace EasyXv6.Sys
open Lib Mem Proc Fs Vol

variable {s : System} {tr : List (Event × System)} {Ly : Layout}

/-- In every state of every run the linked directories form a tree, in which each entry names an inode
    in use; so no call finds an inode without a type. -/
theorem tree_integrity (start : Started s) (hr : Along (Step Ly) s tr) :
    TreeIntegrity (final s tr).files.vol ∧
    ∀ p, ((final s tr).kernel.proc p).state = .running →
      (∀ (mem : UserMem) (c : Call) w t, (c.comp p).run ((final s tr).withUser mem) = .halt w t →
        w ≠ "ilock: no type") ∧
      ∀ k w t, (Comp.forUpTo k (exitFd p)).run (final s tr) = .halt w t → w ≠ "ilock: no type" := by
  have ready := start.run hr
  obtain ⟨N, T, P, Q, L, hs⟩ := ready.fs
  have none : "ilock: no type" ∉ roomPanics := by decide
  refine ⟨hs.between.treeIntegrity hs.world.tree, fun p running => ⟨fun mem c w t hc => ?_,
    fun k w t hc => ?_⟩⟩
  · rintro rfl
    exact none ((ready.panics running).1 mem c _ t hc)
  · rintro rfl
    exact none ((ready.panics running).2 k _ t hc)

section Example

/-- The only process has made the directory `/a`. -/
def exampleMade : System :=
  ((sysMkdir 0).run (exampleSystem.withUser (stringMem [SLASH, 97]))).state

theorem exampleMade_along : Along (Step exampleLayout) exampleSystem
    [(.call proczero (stringMem [SLASH, 97]) (.mkdir 0) 0, exampleMade)] := by
  have value : ((sysMkdir 0).run (exampleSystem.withUser (stringMem [SLASH, 97]))).value = some 0 := by
    decide +kernel
  exact ⟨.call rfl (Outcome.eq_ok value), trivial⟩

theorem tree_integrity_made : TreeIntegrity exampleMade.files.vol :=
  (tree_integrity exampleSystem_started exampleMade_along).1

end Example

end EasyXv6.Sys
