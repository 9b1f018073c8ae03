import EasyXv6.Mem.FlatMap
import EasyXv6.Mem.Heap
import EasyXv6.Proc.Conserve

set_option autoImplicit false

/-!
# When sys_brk does what it was asked to do

`uvm_heap_grow` rounds the old top up, `uvm_heap_ungrow` the length, the length has 32 bits and an
`int` holds it when it is rounded, and `pmem_alloc` panics where its callers would return.
-/
namespace EasyXv6.Proc
open Lib Mem Radix

variable {L : Layout} {s s' : Kernel} {free free' : List ℕ} {kernel : Multiset ℕ}
  {i : Fin NPROC} {a ret : ℕ}

section Call

/-- The slot `i` after a call that has left the memory `pm` and the top `top`. -/
def Kernel.afterBrk (s : Kernel) (i : Fin NPROC) (pm : Pmem) (top : ℕ) : Kernel :=
  ({ s with pm := pm } : Kernel).setProc i { s.proc i with heapTop := top }

@[simp] theorem afterBrk_pm (s : Kernel) (i : Fin NPROC) (pm : Pmem) (top : ℕ) :
    (s.afterBrk i pm top).pm = pm := rfl

@[simp] theorem afterBrk_proc (s : Kernel) (i : Fin NPROC) (pm : Pmem) (top : ℕ) :
    (s.afterBrk i pm top).proc i = { s.proc i with heapTop := top } := Function.update_self ..

theorem sysBrk_grows (ha : a ≠ 0) (hlt : (s.proc i).heapTop < a) :
    (sysBrk L i a).run s = .ok ret s' ↔ ∃ h pm,
      (uvmHeapGrow L (s.proc i).pgtbl (s.proc i).heapTop ((a - (s.proc i).heapTop) % 2 ^ 32)).run
        s.pm = .ok h pm ∧ ret = h.ret ∧ s' = s.afterBrk i pm h.heapTop := by
  unfold sysBrk
  rw [Comp.bind_gets_run, if_neg ha, if_pos hlt, Comp.bind_ok_iff]
  constructor
  · rintro ⟨h, t, hmem, rest⟩
    obtain ⟨pm, hpm, rfl⟩ := onMem_ok hmem
    rw [setProc, Comp.bind_modify_run, Comp.run_pure, Outcome.ok.injEq] at rest
    exact ⟨h, pm, hpm, rest.1.symm, rest.2.symm⟩
  · rintro ⟨h, pm, hmem, rfl, rfl⟩
    exact ⟨h, _, onMem_returns hmem, rfl⟩

theorem sysBrk_shrinks (ha : a ≠ 0) (hle : a ≤ (s.proc i).heapTop) :
    (sysBrk L i a).run s = .ok ret s' ↔ ∃ h pm,
      (uvmHeapUngrow L (s.proc i).pgtbl (s.proc i).heapTop
        (((s.proc i).heapTop - a) % 2 ^ 32)).run s.pm = .ok h pm ∧
      ret = h.ret ∧ s' = s.afterBrk i pm h.heapTop := by
  unfold sysBrk
  rw [Comp.bind_gets_run, if_neg ha, if_neg (Nat.not_lt.mpr hle), Comp.bind_ok_iff]
  constructor
  · rintro ⟨h, t, hmem, rest⟩
    obtain ⟨pm, hpm, rfl⟩ := onMem_ok hmem
    rw [setProc, Comp.bind_modify_run, Comp.run_pure, Outcome.ok.injEq] at rest
    exact ⟨h, pm, hpm, rest.1.symm, rest.2.symm⟩
  · rintro ⟨h, pm, hmem, rfl, rfl⟩
    exact ⟨h, _, onMem_returns hmem, rfl⟩

theorem Owned.apartTable (own : Owned L s free kernel) (hi : (s.proc i).state ≠ .unused) :
    ((free : Multiset ℕ) + tablePages L s.pm.mem (s.proc i).pgtbl).Nodup := by
  rw [← own.slotPages_eq hi]
  exact own.apart i

theorem Owned.trapframe_mapped (own : Owned L s free kernel) (hi : (s.proc i).state ≠ .unused) :
    pteAt L s.pm.mem (s.proc i).pgtbl TRAPFRAME ≠ 0 :=
  pteAt_ne_zero ((own.used i hi).trapframe.symm ▸ (own.used i hi).tf.pos)

end Call

section Exact

/-- `sys_brk(a)` sets the top to `a` and returns it, or changes nothing and returns -1. -/
def DoneOrNothing (L : Layout) (s : Kernel) (i : Fin NPROC) (a : ℕ) : Prop :=
  (∃ s', (sysBrk L i a).run s = .ok a s' ∧ (s'.proc i).heapTop = a) ∨
  ∃ s', (sysBrk L i a).run s = .ok (2 ^ 64 - 1) s' ∧ (s'.proc i).heapTop = (s.proc i).heapTop ∧
    flatten s'.pm (s.proc i).pgtbl = flatten s.pm (s.proc i).pgtbl ∧ freeOf s'.pm = freeOf s.pm

/-- The top is on a page boundary, and from it to `a` nothing is mapped and there are pages enough
    for the heap and for the tables that it needs. -/
structure CanGrow (L : Layout) (s : Kernel) (i : Fin NPROC) (a : ℕ) : Prop where
  aligned : (s.proc i).heapTop % PGSIZE = 0
  short : a - (s.proc i).heapTop < 2 ^ 32
  unmapped : ∀ k < rounds (s.proc i).heapTop a,
    pteAt L s.pm.mem (s.proc i).pgtbl ((s.proc i).heapTop + k * PGSIZE) = 0
  room : rounds (s.proc i).heapTop a + tablesNeeded L s.pm.mem (s.proc i).pgtbl
    (s.proc i).heapTop (rounds (s.proc i).heapTop a) ≤ s.pm.allocable

/-- `a` is on a page boundary, and the pages from it to the top are mapped. A stale top may lie 2 GiB
    above `a`: then the length is negative as an `int`, and unless the loop wraps around it has no
    round. -/
structure CanShrink (L : Layout) (s : Kernel) (i : Fin NPROC) (a : ℕ) : Prop where
  aligned : a % PGSIZE = 0
  short : (s.proc i).heapTop - a < 2 ^ 32
  mapped : PG_ROUND_UP ((s.proc i).heapTop - a) < 2 ^ 31 →
    ∀ k < pagesFor ((s.proc i).heapTop - a),
      Leaf L (pteAt L s.pm.mem (s.proc i).pgtbl (a + k * PGSIZE))
  large : 2 ^ 31 ≤ PG_ROUND_UP ((s.proc i).heapTop - a) →
    2 ^ 32 ≤ a + PG_ROUND_UP ((s.proc i).heapTop - a)

def CanBrk (L : Layout) (s : Kernel) (i : Fin NPROC) (a : ℕ) : Prop :=
  if (s.proc i).heapTop < a then CanGrow L s i a else CanShrink L s i a

theorem rounds_eq {lo hi : ℕ} : rounds lo hi = pagesFor (hi - lo) := rfl

theorem Owned.grow_iff (own : Owned L s free kernel) (hi : (s.proc i).state ≠ .unused)
    (hlt : (s.proc i).heapTop < a) : DoneOrNothing L s i a ↔ CanGrow L s i a := by
  have htop := own.heapTop i
  have h0 : a ≠ 0 := by omega
  have top_lt : (s.proc i).heapTop < 2 ^ 38 := by
    simp only [TRAPFRAME, TRAMPOLINE, MAXVA, PGSIZE] at htop
    omega
  have up : PG_ROUND_UP (s.proc i).heapTop < (s.proc i).heapTop + 4096 ∧
      (s.proc i).heapTop ≤ PG_ROUND_UP (s.proc i).heapTop ∧
      PG_ROUND_UP (s.proc i).heapTop % 4096 = 0 := by
    simp only [PG_ROUND_UP, PGSIZE]
    omega
  have hmod : (a - (s.proc i).heapTop) % 2 ^ 32 < 2 ^ 32 := Nat.mod_lt _ (by decide)
  constructor
  · rintro (⟨s', hr, -⟩ | ⟨s', hr, -⟩)
    · obtain ⟨h, pm, hmem, hret, -⟩ := (sysBrk_grows h0 hlt).mp hr
      obtain ⟨rfl, -, free', grown⟩ := uvmHeapGrow_grown (own.space hi) (own.apartTable hi) htop
        (own.trapframe_mapped hi) hmod hmem
      have hret' : a = PG_ROUND_UP (s.proc i).heapTop + (a - (s.proc i).heapTop) % 2 ^ 32 := hret
      have upTop : PG_ROUND_UP (s.proc i).heapTop = (s.proc i).heapTop := by omega
      have short : a - (s.proc i).heapTop < 2 ^ 32 := by omega
      rw [upTop, Nat.mod_eq_of_lt short] at grown
      refine ⟨?_, short, grown.unmapped, ?_⟩
      · rw [← upTop]
        exact pg_round_up_aligned _
      · rw [own.list.allocable, grown.cost, rounds_eq]
        omega
    · obtain ⟨h, pm, hmem, hret, -⟩ := (sysBrk_grows h0 hlt).mp hr
      obtain ⟨rfl, hend, -⟩ := uvmHeapGrow_grown (own.space hi) (own.apartTable hi) htop
        (own.trapframe_mapped hi) hmod hmem
      have hret' : 2 ^ 64 - 1 =
        PG_ROUND_UP (s.proc i).heapTop + (a - (s.proc i).heapTop) % 2 ^ 32 := hret
      omega
  · intro can
    left
    have below : (s.proc i).heapTop + pagesFor (a - (s.proc i).heapTop) * PGSIZE ≤ TRAPFRAME := by
      -- the trapframe is mapped, so the pages end below it
      by_contra above
      refine own.trapframe_mapped hi ?_
      have aligned := can.aligned
      have unmapped := can.unmapped ((TRAPFRAME - (s.proc i).heapTop) / PGSIZE) (by
        rw [rounds_eq]
        simp only [pagesFor, TRAPFRAME, TRAMPOLINE, MAXVA, PGSIZE] at *
        omega)
      have here : (s.proc i).heapTop + (TRAPFRAME - (s.proc i).heapTop) / PGSIZE * PGSIZE =
          TRAPFRAME := by
        simp only [TRAPFRAME, TRAMPOLINE, MAXVA, PGSIZE] at *
        omega
      rwa [here] at unmapped
    have room := can.room
    rw [own.list.allocable] at room
    obtain ⟨pm, hmem⟩ := uvmHeapGrow_returns (own.space hi) htop can.aligned below can.unmapped room
    have hsum : (s.proc i).heapTop + (a - (s.proc i).heapTop) = a := by omega
    rw [hsum] at hmem
    refine ⟨s.afterBrk i pm a, (sysBrk_grows h0 hlt).mpr ⟨⟨a, a⟩, pm, ?_, rfl, rfl⟩, ?_⟩
    · rw [Nat.mod_eq_of_lt can.short]
      exact hmem
    · rw [afterBrk_proc]

theorem Owned.shrink_iff (own : Owned L s free kernel) (hi : (s.proc i).state ≠ .unused)
    (h0 : a ≠ 0) (hle : a ≤ (s.proc i).heapTop) : DoneOrNothing L s i a ↔ CanShrink L s i a := by
  have htop := own.heapTop i
  have top_lt : (s.proc i).heapTop < 2 ^ 38 := by
    simp only [TRAPFRAME, TRAMPOLINE, MAXVA, PGSIZE] at htop
    omega
  have hmod : ((s.proc i).heapTop - a) % 2 ^ 32 < 2 ^ 32 := Nat.mod_lt _ (by decide)
  have hlen : ((s.proc i).heapTop - a) % 2 ^ 32 ≤ (s.proc i).heapTop := by omega
  have va_le : a ≤ MAXVA := by
    simp only [MAXVA]
    omega
  constructor
  · rintro (⟨s', hr, -⟩ | ⟨s', hr, -⟩)
    · obtain ⟨h, pm, hmem, hret, -⟩ := (sysBrk_shrinks h0 hle).mp hr
      obtain ⟨rfl, aligned, few, free', shrunk⟩ :=
        uvmHeapUngrow_shrunk (own.space hi) (own.apartTable hi) htop hlen hmem
      have hret' : a = (s.proc i).heapTop - ((s.proc i).heapTop - a) % 2 ^ 32 := hret
      have short : (s.proc i).heapTop - a < 2 ^ 32 := by omega
      rw [← hret'] at aligned few shrunk
      rw [Nat.mod_eq_of_lt short] at few shrunk
      refine ⟨aligned, short, ?_, ?_⟩
      · intro small k hk
        have mapped := shrunk.mapped k
        rw [unmapRounds_small va_le small short] at mapped
        exact mapped hk
      · intro large
        by_contra high
        exact Nat.not_lt.mpr few (unmapRounds_huge va_le large short (Nat.lt_of_not_le high))
    · obtain ⟨h, pm, hmem, hret, -⟩ := (sysBrk_shrinks h0 hle).mp hr
      obtain ⟨rfl, -⟩ :=
        uvmHeapUngrow_shrunk (own.space hi) (own.apartTable hi) htop hlen hmem
      have hret' : 2 ^ 64 - 1 = (s.proc i).heapTop - ((s.proc i).heapTop - a) % 2 ^ 32 := hret
      omega
  · intro can
    left
    have back : (s.proc i).heapTop - ((s.proc i).heapTop - a) = a := by omega
    obtain ⟨pm, hmem⟩ : ∃ pm, (uvmHeapUngrow L (s.proc i).pgtbl (s.proc i).heapTop
        ((s.proc i).heapTop - a)).run s.pm = .ok ⟨a, a⟩ pm := by
      have returns := uvmHeapUngrow_returns (own.space hi) (own.apartTable hi) htop
        (Nat.sub_le (s.proc i).heapTop a)
      rw [back] at returns
      by_cases small : PG_ROUND_UP ((s.proc i).heapTop - a) < 2 ^ 31
      · rw [unmapRounds_small va_le small can.short] at returns
        refine returns can.aligned ?_ (can.mapped small)
        simp only [pagesFor, PGSIZE]
        omega
      · rw [unmapRounds_zero va_le (Nat.not_lt.mp small) can.short
          (can.large (Nat.not_lt.mp small))] at returns
        refine returns can.aligned ?_ fun k hk => absurd hk (Nat.not_lt_zero k)
        omega
    refine ⟨s.afterBrk i pm a, (sysBrk_shrinks h0 hle).mpr ⟨⟨a, a⟩, pm, ?_, rfl, rfl⟩, ?_⟩
    · rw [Nat.mod_eq_of_lt can.short]
      exact hmem
    · rw [afterBrk_proc]

/-- In every state that the system reaches, `sys_brk(a)` does what it was asked to do or nothing
    exactly when it can grow or shrink the heap to `a`. -/
theorem brk_done_or_nothing_iff {m : ℕ → Page} {taken : List Page} {code : ℕ → UInt8}
    {kernel : List ℕ} {s₀ : Kernel} {tr : List (Label × Kernel)}
    (hboot : (boot L taken code).run (powerOn m) = .ok kernel s₀)
    (hrun : Along (Step L kernel) s₀ tr) {i : Fin NPROC}
    (running : ((final s₀ tr).proc i).state = .running) {a : ℕ} (ha : a ≠ 0) :
    DoneOrNothing L (final s₀ tr) i a ↔ CanBrk L (final s₀ tr) i a := by
  obtain ⟨free₀, own₀, -⟩ := boot_ok hboot
  obtain ⟨free, own⟩ := own₀.run hrun
  unfold CanBrk
  split
  next hlt => exact own.grow_iff (not_unused_of_running running) hlt
  next hge => exact own.shrink_iff (not_unused_of_running running) ha (Nat.not_lt.mp hge)

section Example

variable {m : ℕ → Page} {code : ℕ → UInt8}

/-- The first process has one page and can have another one. -/
theorem canGrow_after_boot (L : Layout) (m : ℕ → Page) (code : ℕ → UInt8)
    (room : 15 ≤ (PHYSTOP - L.allocBegin) / PGSIZE) :
    ∃ kernel s₀, (boot L [] code).run (powerOn m) = .ok kernel s₀ ∧
      Along (Step L kernel) s₀ [(.other proczero, s₀.dispatch proczero)] ∧
      ((s₀.dispatch proczero).proc proczero).state = .running ∧
      ((s₀.dispatch proczero).proc proczero).heapTop = 4096 ∧
      CanGrow L (s₀.dispatch proczero) proczero 8192 := by
  obtain ⟨kernel, s₀, hboot, left⟩ := boot_returns L m [] code (by change 0 + 12 ≤ _; omega)
  obtain ⟨free, own, -, tf, r, proc, first⟩ := boot_ok hboot
  have runnable : (s₀.proc proczero).state = .runnable := by rw [proc, Function.update_self]
  have root : (s₀.proc proczero).pgtbl = r := by rw [proc, Function.update_self]
  have top : (s₀.proc proczero).heapTop = 4096 := by
    rw [proc, Function.update_self]
    rfl
  refine ⟨kernel, s₀, hboot, ⟨step_dispatch (Or.inl runnable), trivial⟩, ?_, ?_, ?_⟩
  · rw [dispatch_self]
  · rw [dispatch_self]
    exact top
  have rounds1 : rounds 4096 8192 = 1 := by decide
  refine ⟨?_, ?_, ?_, ?_⟩ <;> rw [dispatch_self] <;> dsimp only <;> rw [top]
  · decide
  · decide
  · rw [rounds1, root]
    intro k hk
    have hk0 : k = 0 := Nat.lt_one_iff.mp hk
    subst hk0
    by_contra mapped
    have elsewhere := (first.rest (4096 + 0 * PGSIZE) (by decide) (by decide)).2 mapped
    revert elsewhere
    decide
  · rw [rounds1, root]
    have tables := tablesNeeded_le L s₀.pm.mem r 4096 1
    change _ ≤ s₀.pm.allocable + 0 + 12 at left
    change 1 + tablesNeeded L s₀.pm.mem r 4096 1 ≤ s₀.pm.allocable
    omega

theorem brk_done_or_nothing_boot : ∃ kernel s₀,
    (boot exampleLayout [] fun _ => 0).run (powerOn fun _ => Bytes.zero) = .ok kernel s₀ ∧
      DoneOrNothing exampleLayout (s₀.dispatch proczero) proczero 8192 := by
  obtain ⟨kernel, s₀, hboot, run, running, top, can⟩ :=
    canGrow_after_boot exampleLayout (fun _ => Bytes.zero) (fun _ => 0) (by decide)
  refine ⟨kernel, s₀, hboot, (brk_done_or_nothing_iff hboot run running (by decide)).mpr ?_⟩
  change CanBrk _ (s₀.dispatch proczero) _ _
  rw [CanBrk, top, if_pos (by decide)]
  exact can

/-- The first process cannot give back a part of its page. -/
theorem brk_unaligned_panics : ∃ kernel s₀,
    (boot exampleLayout [] fun _ => 0).run (powerOn fun _ => Bytes.zero) = .ok kernel s₀ ∧
      Along (Step exampleLayout kernel) s₀ [(.other proczero, s₀.dispatch proczero)] ∧
      ((s₀.dispatch proczero).proc proczero).state = .running ∧
      (∃ t, (sysBrk exampleLayout proczero 100).run (s₀.dispatch proczero) =
        .halt "uvmunmap: not aligned" t) ∧
      ¬ DoneOrNothing exampleLayout (s₀.dispatch proczero) proczero 100 := by
  obtain ⟨kernel, s₀, hboot, run, running, top, -⟩ :=
    canGrow_after_boot exampleLayout (fun _ => Bytes.zero) (fun _ => 0) (by decide)
  have halts : ∃ t, (sysBrk exampleLayout proczero 100).run (s₀.dispatch proczero) =
      .halt "uvmunmap: not aligned" t := by
    unfold sysBrk uvmHeapUngrow vmUnmappages
    rw [Comp.bind_gets_run, if_neg (by decide), top, if_neg (by decide)]
    exact ⟨_, rfl⟩
  refine ⟨kernel, s₀, hboot, run, running, halts, ?_⟩
  obtain ⟨t, halts⟩ := halts
  rintro (⟨s', hr, -⟩ | ⟨s', hr, -⟩) <;> rw [halts] at hr <;> cases hr

end Example

end Exact

end EasyXv6.Proc
