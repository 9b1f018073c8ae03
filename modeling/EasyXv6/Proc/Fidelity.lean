import EasyXv6.Proc.Start

set_option autoImplicit false

/-!
# What a child has of its parent

`proc_fork` copies the pages below the parent's `heap_top`, the registers and the descriptors. It
does not copy `heap_top` itself: the child keeps the one that its slot had.
-/
namespace EasyXv6.Proc
open Lib Mem Radix

/-- The byte and the permissions that a user program finds at an address. -/
def userView (L : Layout) (m : ℕ → Page) (r va : ℕ) : UInt8 × ℕ :=
  ((m (PTE2PA (pteAt L m r va))).byte (va % PGSIZE), PTE_FLAGS (pteAt L m r va) % 2 ^ 8)

/-- What the child `c` should have of its parent `i` after a fork from `s` to `s'`. -/
structure Faithful (L : Layout) (s : Kernel) (i c : Fin NPROC) (s' : Kernel) : Prop where
  heapTop : (s'.proc c).heapTop = (s.proc i).heapTop
  memory : ∀ va < (s.proc i).heapTop,
    userView L s'.pm.mem (s'.proc c).pgtbl va = userView L s.pm.mem (s.proc i).pgtbl va
  regs : ∀ off < TRAPFRAME_SIZE, off < A0 ∨ A0 + 8 ≤ off →
    (s'.pm.mem (s'.proc c).tf).byte off = (s.pm.mem (s.proc i).tf).byte off
  a0 : (s'.pm.mem (s'.proc c).tf).num A0 8 = 0
  ofile : (s'.proc c).ofile = (s.proc i).ofile
  apart : ∀ va < (s.proc i).heapTop, ∀ va' < (s.proc i).heapTop,
    PTE2PA (pteAt L s'.pm.mem (s'.proc c).pgtbl va) ≠ PTE2PA (pteAt L s'.pm.mem (s.proc i).pgtbl va')
  parent : s'.proc i = s.proc i
  parentSpace : ∀ va, pteAt L s'.pm.mem (s.proc i).pgtbl va = pteAt L s.pm.mem (s.proc i).pgtbl va ∧
    userView L s'.pm.mem (s.proc i).pgtbl va = userView L s.pm.mem (s.proc i).pgtbl va

variable {L : Layout} {s s' : Kernel} {free free' : List ℕ} {kernel : Multiset ℕ}
  {i c : Fin NPROC} {tf r : ℕ}

section Forked

theorem Forked.child (h : Forked L s free i c tf r s' free') :
    s'.proc c = (s.proc c).child (s.proc i) i s.nextpid tf r := by
  rw [h.proc, Function.update_self]

theorem Forked.parent (h : Forked L s free i c tf r s' free') (hi : (s.proc i).state ≠ .unused) :
    s'.proc i = s.proc i := by
  have hic : i ≠ c := by
    rintro rfl
    exact hi (firstUnused_state h.slot)
  rw [h.proc, Function.update_of_ne hic]

theorem round_of_lt {va top : ℕ} (hva : va < top) : va / PGSIZE < rounds 0 top := by
  simp only [rounds, PGSIZE]
  omega

theorem sameEntry_round {va : ℕ} (hva : va < TRAPFRAME) : SameEntry va (va / PGSIZE * PGSIZE) := by
  have lt : va < 2 ^ 39 := Nat.lt_trans hva (by decide)
  rw [sameEntry_iff lt (Nat.lt_of_le_of_lt (Nat.div_mul_le_self _ _) lt),
    Nat.mul_div_cancel _ (by decide)]

/-- The data page that the child has at an address below `heap_top`. -/
theorem Forked.page (h : Forked L s free i c tf r s' free') (own : Owned L s free kernel) {va : ℕ}
    (hva : va < (s.proc i).heapTop) : isValid (pteAt L s.pm.mem (s.proc i).pgtbl va) ∧
      ∃ page ∈ free, InRange L page ∧ pteAt L s'.pm.mem r va =
        leafPte page (PTE_FLAGS (pteAt L s.pm.mem (s.proc i).pgtbl va) % 2 ^ 8) ∧
      s'.pm.mem page = s.pm.mem (PTE2PA (pteAt L s.pm.mem (s.proc i).pgtbl va)) := by
  have same := sameEntry_round (Nat.lt_of_lt_of_le hva (own.heapTop i))
  rw [same.pteAt_eq, same.pteAt_eq]
  exact h.copied _ (round_of_lt hva)

theorem perm_lt (pte : ℕ) : PTE_FLAGS pte % 2 ^ 8 < 2 ^ 10 :=
  Nat.lt_trans (Nat.mod_lt _ (by decide)) (by decide)

/-- The permissions of a valid page survive the copy. -/
theorem flags_child {pte : ℕ} (valid : isValid pte) (page : ℕ) :
    PTE_FLAGS (leafPte page (PTE_FLAGS pte % 2 ^ 8)) % 2 ^ 8 = PTE_FLAGS pte % 2 ^ 8 := by
  rw [pte_flags_leafPte (perm_lt pte)]
  apply Nat.eq_of_testBit_eq
  intro j
  rw [Nat.testBit_mod_two_pow, Nat.testBit_or, Nat.testBit_mod_two_pow]
  cases j with
  | zero =>
    have low : (PTE_FLAGS pte).testBit 0 = true := by
      rw [PTE_FLAGS, Nat.testBit_mod_two_pow]
      simpa [isValid] using valid
    simp [low]
  | succ j =>
    have high : PTE_V.testBit (j + 1) = false := by
      rw [PTE_V, Nat.testBit_succ]
      simp
    rw [high, Bool.or_false, ← Bool.and_assoc, Bool.and_self]

theorem Forked.faithful_iff (h : Forked L s free i c tf r s' free') (own : Owned L s free kernel)
    (hi : (s.proc i).state ≠ .unused) :
    Faithful L s i c s' ↔ (s.proc c).heapTop = (s.proc i).heapTop := by
  have child := h.child
  have top : (s'.proc c).heapTop = (s.proc c).heapTop := by rw [child]; rfl
  have root : (s'.proc c).pgtbl = r := by rw [child]; rfl
  have frame : (s'.proc c).tf = tf := by rw [child]; rfl
  have ptes : ∀ va, pteAt L s'.pm.mem (s.proc i).pgtbl va = pteAt L s.pm.mem (s.proc i).pgtbl va :=
    fun va => pteAt_of_same fun q hq => h.frame q (own.notFree (own.mem_slotPages_of_node hi hq))
  constructor
  · intro f
    rw [← top]
    exact f.heapTop
  · intro htop
    refine ⟨top.trans htop, ?_, ?_, ?_, ?_, ?_, h.parent hi, ?_⟩
    · intro va hva
      obtain ⟨valid, page, -, range, pte, bytes⟩ := h.page own hva
      rw [root, userView, pte, flags_child valid, pte2pa_leafPte (perm_lt _) range.1 range.lt_pa, bytes]
      rfl
    · intro off hoff hne
      obtain ⟨base, regs⟩ := h.regs
      rw [frame, regs, Bytes.putNum, Bytes.byte_put_of_disjoint _ _ _ _ _ hne,
        Bytes.byte_put _ _ _ _ _ (Nat.lt_trans hoff (by decide)),
        if_pos ⟨Nat.zero_le _, by omega⟩, Nat.sub_zero]
    · obtain ⟨base, regs⟩ := h.regs
      rw [frame, regs, Bytes.num_putNum_self _ _ _ _ (by decide), Nat.zero_mod]
    · have closed := own.closed c (Or.inl (firstUnused_state h.slot))
      funext fd
      rw [child]
      change (if ((s.proc i).ofile fd).isSome then _ else (s.proc c).ofile fd) = _
      rw [closed fd]
      cases (s.proc i).ofile fd <;> rfl
    · intro va hva va' hva'
      obtain ⟨valid, page, taken, range, pte, -⟩ := h.page own hva
      rw [root, pte, ptes, pte2pa_leafPte (perm_lt _) range.1 range.lt_pa]
      exact ne_of_mem_of_not_mem taken (own.data_notFree hi va')
    · intro va
      refine ⟨ptes va, ?_⟩
      rw [userView, ptes, h.frame _ (own.data_notFree hi va)]
      rfl

end Forked

/-- A fork is faithful exactly when the slot that the child gets happens to hold the parent's
    `heap_top` already. -/
theorem fork_faithful_iff {m : ℕ → Page} {taken : List Page} {code : ℕ → UInt8} {kernel : List ℕ}
    {s₀ : Kernel} {tr : List (Label × Kernel)} {pid : ℤ}
    (hboot : (boot L taken code).run (powerOn m) = .ok kernel s₀)
    (hrun : Along (Step L kernel) s₀ tr) (run : ((final s₀ tr).proc i).state = .running)
    (hfork : (procFork L i).run (final s₀ tr) = .ok pid s') (hpid : pid ≠ -1) :
    ∃ c, firstUnused (final s₀ tr).proc = some c ∧ (Faithful L (final s₀ tr) i c s' ↔
      ((final s₀ tr).proc c).heapTop = ((final s₀ tr).proc i).heapTop) := by
  obtain ⟨free₀, own₀, -⟩ := boot_ok hboot
  obtain ⟨free, own⟩ := own₀.run hrun
  have hi := not_unused_of_running run
  rcases procFork_ok own hi hfork with ⟨-, failed, -⟩ | ⟨-, c, tf, r, free', forked⟩
  · exact absurd failed hpid
  · exact ⟨c, forked.slot, forked.faithful_iff own hi⟩

theorem exampleLayout_room : 21 ≤ (PHYSTOP - exampleLayout.allocBegin) / PGSIZE := by decide

theorem fork_faithful_iff_boot : ∃ kernel s₀ s',
    (boot exampleLayout [] fun _ => 0).run (powerOn fun _ => Bytes.zero) = .ok kernel s₀ ∧
      (procFork exampleLayout proczero).run (s₀.dispatch proczero) = .ok 2 s' ∧
      ∃ c, firstUnused (s₀.dispatch proczero).proc = some c ∧
        (Faithful exampleLayout (s₀.dispatch proczero) proczero c s' ↔
          ((s₀.dispatch proczero).proc c).heapTop = ((s₀.dispatch proczero).proc proczero).heapTop) := by
  obtain ⟨kernel, s₀, s', hboot, live, slot, hfork⟩ :=
    fork_after_boot exampleLayout (fun _ => Bytes.zero) (fun _ => 0) exampleLayout_room
  have run : Along (Step exampleLayout kernel) s₀ [(.other proczero, s₀.dispatch proczero)] :=
    ⟨step_dispatch live, trivial⟩
  have running : ((final s₀ [(Label.other proczero, s₀.dispatch proczero)]).proc proczero).state =
      .running := by
    change ((s₀.dispatch proczero).proc proczero).state = _
    rw [dispatch_self]
  exact ⟨kernel, s₀, s', hboot, hfork, fork_faithful_iff hboot run running hfork (by decide)⟩

/-- The first child of the first process has `heap_top` 0. -/
theorem fork_unfaithful_boot : ∃ kernel s₀ s' c,
    (boot exampleLayout [] fun _ => 0).run (powerOn fun _ => Bytes.zero) = .ok kernel s₀ ∧
      Along (Step exampleLayout kernel) s₀ [(.other proczero, s₀.dispatch proczero)] ∧
      (procFork exampleLayout proczero).run (s₀.dispatch proczero) = .ok 2 s' ∧
      firstUnused (s₀.dispatch proczero).proc = some c ∧
      (s'.proc c).heapTop = 0 ∧ (s'.proc proczero).heapTop = 4096 ∧
      ¬ Faithful exampleLayout (s₀.dispatch proczero) proczero c s' := by
  obtain ⟨kernel, s₀, s', hboot, live, slot, hfork⟩ :=
    fork_after_boot exampleLayout (fun _ => Bytes.zero) (fun _ => 0) exampleLayout_room
  obtain ⟨free, own, -, tf, r, proc, -⟩ := boot_ok hboot
  have run : Along (Step exampleLayout kernel) s₀ [(.other proczero, s₀.dispatch proczero)] :=
    ⟨step_dispatch live, trivial⟩
  obtain ⟨free₁, own₁⟩ := own.run run
  change Owned _ (s₀.dispatch proczero) _ _ at own₁
  have top : ((s₀.dispatch proczero).proc proczero).heapTop = 4096 := by
    rw [dispatch_self, proc, Function.update_self]
    rfl
  have hi : ((s₀.dispatch proczero).proc proczero).state ≠ .unused := by
    rw [dispatch_self]
    simp
  have top' : ((s₀.dispatch proczero).proc 1).heapTop = 0 := by
    have idle : (s₀.proc 1).state ≠ .running := by
      rw [proc, Function.update_of_ne (by decide)]
      simp [procInit]
    rw [dispatch_other (by decide) idle, proc, Function.update_of_ne (by decide)]
    rfl
  rcases procFork_ok own₁ hi hfork with ⟨-, failed, -⟩ | ⟨-, c, tf', r', free', forked⟩
  · cases failed
  cases slot.symm.trans forked.slot
  have child : (s'.proc 1).heapTop = 0 := by
    rw [forked.child]
    exact top'
  have parent : (s'.proc proczero).heapTop = 4096 := by rw [forked.parent hi, top]
  refine ⟨kernel, s₀, s', 1, hboot, run, hfork, slot, child, parent, ?_⟩
  intro faithful
  have same := faithful.heapTop
  rw [child, top] at same
  cases same

end EasyXv6.Proc
