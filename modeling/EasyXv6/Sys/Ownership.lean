import EasyXv6.Fs.Observed
import EasyXv6.Sys.Kept

set_option autoImplicit false

/-!
# Each block has one owner
-/
namespace EasyXv6.Sys
open Lib Mem Proc Fs Vol

variable {s : System} {tr : List (Event × System)} {Ly : Layout}

/-- The pointers of the inodes name data blocks that are in use, each of them once. -/
structure BlocksExclusive (v : Vol) : Prop where
  own : ∀ i k, v.Used i → k < NREF → v.pointer i k ≠ 0 →
    BITMAP < v.pointer i k ∧ v.pointer i k < FSSIZE ∧ v.InUse (v.pointer i k)
  once : ∀ i j k m, v.Used i → v.Used j → k < NREF → m < NREF → v.pointer i k ≠ 0 →
    v.pointer i k = v.pointer j m → i = j ∧ k = m

theorem Between.exclusive {N : ℕ → Node} {R : List Ref} {L : List (Fin NINODE)} {v : Vol}
    (h : Between N R L v) : BlocksExclusive v := by
  obtain ⟨V, D, at', -⟩ := h.at0
  refine ⟨fun i k hi hk hp => ?_, fun i j k m hi hj hk hm hp he => ?_⟩
  · have alloc := at'.used_iff.mp hi
    rw [at'.pointer_eq alloc] at hp ⊢
    rw [at'.blk.inUse_iff (known_low at'.ok.laid _ (Nat.le_refl _))]
    exact at'.ok.laid.own i alloc k hk hp
  · have alloc := at'.used_iff.mp hi
    have alloc' := at'.used_iff.mp hj
    rw [at'.pointer_eq alloc] at hp he
    rw [at'.pointer_eq alloc'] at he
    exact at'.ok.laid.inj i j alloc alloc' k hk m hm hp he

/-- In every state of every run, and at the end of every transaction, no block has two owners, and
    none of those that hold the file system itself has one; `fs_free` finds its block in use. -/
theorem blocks_exclusive (start : Started s) (hr : Along (Step Ly) s tr) :
    BlocksExclusive (final s tr).files.vol ∧
    ∀ p, ((final s tr).kernel.proc p).state = .running →
      (∀ t, Boundary p (final s tr) t → BlocksExclusive t.vol) ∧
      (∀ (mem : UserMem) (c : Call) w t, (c.comp p).run ((final s tr).withUser mem) = .halt w t →
        w ≠ "fs_free: block not in use") ∧
      ∀ k w t, (Comp.forUpTo k (exitFd p)).run (final s tr) = .halt w t →
        w ≠ "fs_free: block not in use" := by
  have ready := start.run hr
  obtain ⟨N, T, P, Q, L, hs⟩ := ready.fs
  have none : "fs_free: block not in use" ∉ roomPanics := by decide
  refine ⟨Between.exclusive hs.between, fun p running => ⟨fun t ht => ?_, fun mem c w t hc => ?_,
    fun k w t hc => ?_⟩⟩
  · obtain ⟨N', T', P', Q', L', ht'⟩ := ready.boundary running ht
    exact Between.exclusive ht'.between
  · rintro rfl
    exact none ((ready.panics running).1 mem c _ t hc)
  · rintro rfl
    exact none ((ready.panics running).2 k _ t hc)

theorem exampleSystem_opened : Along (Step exampleLayout) exampleSystem
    [(.call proczero (stringMem [SLASH]) (.open 0 O_RDONLY) 0,
      ((sysOpen proczero 0 O_RDONLY).run (exampleSystem.withUser (stringMem [SLASH]))).state)] :=
  ⟨.call rfl (Outcome.eq_ok exampleSystem_open), trivial⟩

theorem blocks_exclusive_opened : BlocksExclusive
    ((sysOpen proczero 0 O_RDONLY).run
      (exampleSystem.withUser (stringMem [SLASH]))).state.files.vol :=
  (blocks_exclusive exampleSystem_started exampleSystem_opened).1

end EasyXv6.Sys
