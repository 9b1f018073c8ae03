import EasyXv6.Proc.Start

set_option autoImplicit false

/-!
# No page is lost and none is freed twice
-/
namespace EasyXv6.Proc
open Lib Mem Radix Finset

variable {L : Layout} {s s' t u : Kernel} {free free' : List ℕ} {kernel : Multiset ℕ}
  {i c : Fin NPROC} {q : ℕ}

section FreeList

/-- The free list of length `n` from `head` on. -/
def listFrom (mem : ℕ → Page) : ℕ → ℕ → List ℕ
  | 0, _ => []
  | n + 1, head => head :: listFrom mem n (Pmem.nextOf (mem head))

def freeOf (pm : Pmem) : List ℕ := listFrom pm.mem pm.allocable pm.next

theorem listFrom_of_linked {mem : ℕ → Page} {head : ℕ} (h : Linked mem head free) :
    listFrom mem free.length head = free := by
  induction free generalizing head with
  | nil => rfl
  | cons p ps ih =>
    obtain ⟨rfl, rest⟩ := h
    rw [List.length_cons, listFrom, ih rest]

theorem freeOf_eq {pm : Pmem} (h : FreeList L pm free) : freeOf pm = free := by
  rw [freeOf, h.allocable]
  exact listFrom_of_linked h.linked

end FreeList

section Places

/-- Where a page can be: in the free list, with the kernel since boot, a trapframe, or a node or
    another leaf of a table. -/
inductive Place
  | free
  | kernel
  | trapframe (i : Fin NPROC)
  | table (i : Fin NPROC)

def trapframeOf (s : Kernel) (i : Fin NPROC) : Multiset ℕ :=
  if (s.proc i).tf = 0 then 0 else {(s.proc i).tf}

def holds (L : Layout) (s : Kernel) (kernel : Multiset ℕ) : Place → Multiset ℕ
  | .free => freeOf s.pm
  | .kernel => kernel
  | .trapframe i => trapframeOf s i
  | .table i => slotPages L s i - trapframeOf s i

theorem Owned.trapframe_le (own : Owned L s free kernel) (i : Fin NPROC) :
    trapframeOf s i ≤ slotPages L s i := by
  by_cases hu : (s.proc i).state = .unused
  · rw [trapframeOf, if_pos (own.unused i hu).tf]
    exact Multiset.zero_le _
  · rw [trapframeOf, if_neg (Nat.ne_of_gt (own.used i hu).tf.pos)]
    exact Multiset.singleton_le.mpr (own.tf_mem hu)

theorem Owned.slot_split (own : Owned L s free kernel) (i : Fin NPROC) :
    holds L s kernel (.trapframe i) + holds L s kernel (.table i) = slotPages L s i :=
  add_tsub_cancel_of_le (own.trapframe_le i)

theorem Owned.holds_le (own : Owned L s free kernel) (pl : Place) :
    holds L s kernel pl ≤ allPages L := by
  rw [← own.pages, ← freeOf_eq own.list]
  cases pl with
  | free =>
    rw [add_assoc]
    exact Multiset.le_add_right _ _
  | kernel =>
    rw [add_right_comm]
    exact Multiset.le_add_left _ _
  | trapframe i =>
    refine le_trans ?_ (Multiset.le_add_left _ _)
    exact (own.trapframe_le i).trans (slotPages_le L s i)
  | table i =>
    refine le_trans ?_ (Multiset.le_add_left _ _)
    exact le_trans (Multiset.sub_le_self _ _) (slotPages_le L s i)

/-- The slot that a place belongs to. -/
def Place.slot : Place → Option (Fin NPROC)
  | .trapframe i | .table i => some i
  | _ => none

theorem Owned.holds_slot (own : Owned L s free kernel) {pl : Place} (hi : pl.slot = some i)
    (h : q ∈ holds L s kernel pl) : q ∈ slotPages L s i := by
  rw [← own.slot_split i, Multiset.mem_add]
  cases pl <;> cases hi
  · exact Or.inl h
  · exact Or.inr h

theorem Owned.one_place (own : Owned L s free kernel) {pl pl' : Place}
    (h : q ∈ holds L s kernel pl) (h' : q ∈ holds L s kernel pl') : pl = pl' := by
  have apart : ∀ i, ((holds L s kernel (.trapframe i)) + holds L s kernel (.table i)).Nodup := by
    intro i
    rw [own.slot_split]
    exact (Multiset.nodup_add.mp (own.apart i)).2.1
  have free_kernel : q ∈ holds L s kernel .free → q ∉ holds L s kernel .kernel := by
    intro hf hk
    refine (own.kernel_apart hk).1 ?_
    rw [← freeOf_eq own.list]
    exact Multiset.mem_coe.mp hf
  have free_slot : ∀ {pl i}, pl.slot = some i → q ∈ holds L s kernel pl →
      q ∉ holds L s kernel .free ∧ q ∉ holds L s kernel .kernel := by
    intro pl i hi hpl
    have hs := own.holds_slot hi hpl
    refine ⟨?_, fun hk => (own.kernel_apart hk).2 i hs⟩
    intro hf
    refine own.notFree hs ?_
    rw [← freeOf_eq own.list]
    exact Multiset.mem_coe.mp hf
  have slots : ∀ {pl pl' i j}, pl.slot = some i → pl'.slot = some j → q ∈ holds L s kernel pl →
      q ∈ holds L s kernel pl' → i = j := by
    intro pl pl' i j hi hj hpl hpl'
    by_contra hne
    exact own.disjoint hne (own.holds_slot hi hpl) (own.holds_slot hj hpl')
  cases pl with
  | free =>
    cases pl' with
    | free => rfl
    | kernel => exact absurd h' (free_kernel h)
    | trapframe i => exact absurd h (free_slot rfl h').1
    | table i => exact absurd h (free_slot rfl h').1
  | kernel =>
    cases pl' with
    | free => exact absurd h (free_kernel h')
    | kernel => rfl
    | trapframe i => exact absurd h (free_slot rfl h').2
    | table i => exact absurd h (free_slot rfl h').2
  | trapframe i =>
    cases pl' with
    | free => exact absurd h' (free_slot rfl h).1
    | kernel => exact absurd h' (free_slot rfl h).2
    | trapframe j => rw [slots rfl rfl h h']
    | table j =>
      cases slots rfl rfl h h'
      exact absurd h' (Multiset.disjoint_left.mp (Multiset.nodup_add.mp (apart i)).2.2 h)
  | table i =>
    cases pl' with
    | free => exact absurd h' (free_slot rfl h).1
    | kernel => exact absurd h' (free_slot rfl h).2
    | trapframe j =>
      cases slots rfl rfl h h'
      exact absurd h (Multiset.disjoint_left.mp (Multiset.nodup_add.mp (apart i)).2.2 h')
    | table j => rw [slots rfl rfl h h']

theorem Owned.some_place (own : Owned L s free kernel) (hq : InRange L q) :
    ∃ pl, q ∈ holds L s kernel pl := by
  rw [← mem_allPages, ← own.pages, Multiset.mem_add, Multiset.mem_add] at hq
  rcases hq with (hf | hk) | hs
  · refine ⟨.free, ?_⟩
    rw [holds, freeOf_eq own.list]
    exact hf
  · exact ⟨.kernel, hk⟩
  · obtain ⟨i, -, hi⟩ := Multiset.mem_sum.mp hs
    rw [← own.slot_split i, Multiset.mem_add] at hi
    rcases hi with h | h
    · exact ⟨.trapframe i, h⟩
    · exact ⟨.table i, h⟩

end Places

section Ledger

/-- What is held on behalf of the slot `c` at the end of a run: pages that have left the free list
    are added, pages that have come back are taken off. -/
def ledger (c : Fin NPROC) : Multiset ℕ → Kernel → List (Label × Kernel) → Multiset ℕ
  | held, _, [] => held
  | held, s, (l, t) :: rest =>
    ledger c (if l.behalf s = some c then
      held + ((freeOf s.pm : Multiset ℕ) - freeOf t.pm) - ((freeOf t.pm : Multiset ℕ) - freeOf s.pm)
      else held) t rest

theorem balance {f f' held held' : Multiset ℕ} (h : f' + held' = f + held) :
    held + (f - f') - (f' - f) = held' := by
  ext q
  have count := congrArg (Multiset.count q) h
  simp only [Multiset.count_add, Multiset.count_sub] at count ⊢
  omega

theorem Owned.ledger_eq {tr : List (Label × Kernel)} (own : Owned L s free kernel)
    (h : Along (Step L kernel) s tr) :
    ledger c (slotPages L s c) s tr = slotPages L (final s tr) c := by
  induction tr generalizing s free with
  | nil => rfl
  | cons step rest ih =>
    obtain ⟨l, t⟩ := step
    obtain ⟨free', moves⟩ := own.step h.1
    have now : (if l.behalf s = some c then
        slotPages L s c + ((freeOf s.pm : Multiset ℕ) - freeOf t.pm) -
          ((freeOf t.pm : Multiset ℕ) - freeOf s.pm)
        else slotPages L s c) = slotPages L t c := by
      split
      next hc =>
        rw [freeOf_eq own.list, freeOf_eq moves.owned.list]
        exact balance (moves.pages c hc)
      next hc => exact (moves.others c hc).symm
    rw [ledger, now]
    exact ih moves.owned h.2

end Ledger

/-- Every page is in exactly one place; and a child that is forked from here on and reaped gives
    back all that was held on its behalf since. -/
structure Conserved (L : Layout) (kernel : Multiset ℕ) (s : Kernel) : Prop where
  list : FreeList L s.pm (freeOf s.pm)
  place : ∀ q, InRange L q → ∃! pl, q ∈ holds L s kernel pl
  once : ∀ pl, (holds L s kernel pl).Nodup
  reaped : ∀ c, (s.proc c).state = .unused → ∀ tr, Along (Step L kernel) s tr →
    ∀ i addr ret u, Step L kernel (final s tr) (.wait i addr ret) u →
      firstZombie (final s tr).proc i = some c →
      (freeOf u.pm : Multiset ℕ) = freeOf (final s tr).pm + ledger c 0 s tr ∧
        (u.proc c).tf = 0 ∧ (u.proc c).pgtbl = 0

theorem Owned.conserved (own : Owned L s free kernel) : Conserved L kernel s where
  list := by
    rw [freeOf_eq own.list]
    exact own.list
  place := by
    intro q hq
    obtain ⟨pl, hpl⟩ := own.some_place hq
    exact ⟨pl, hpl, fun pl' hpl' => own.one_place hpl' hpl⟩
  once := fun pl => Multiset.nodup_of_le (own.holds_le pl) (nodup_allPages L)
  reaped := by
    intro c unused tr hrun i addr ret u hwait hc
    have held := own.ledger_eq (c := c) hrun
    obtain ⟨free', own'⟩ := own.run hrun
    rw [own.slotPages_unused unused] at held
    rw [held]
    generalize final s tr = t at hc hwait own' ⊢
    cases hwait with
    | wait run h =>
      obtain ⟨-, ⟨free'', moves, gone⟩, proc, -⟩ :=
        procWait_reaps own' (not_unused_of_running run) hc h
      refine ⟨?_, ?_, ?_⟩
      · have pages := moves.pages c rfl
        rw [gone, add_zero] at pages
        rw [freeOf_eq moves.owned.list, freeOf_eq own'.list]
        exact pages
      · rw [proc, Function.update_self]
        rfl
      · rw [proc, Function.update_self]
        rfl

/-- At every boundary between calls. -/
theorem pages_conserved {m : ℕ → Page} {taken : List Page} {code : ℕ → UInt8} {kernel : List ℕ}
    {s₀ : Kernel} {tr : List (Label × Kernel)}
    (hboot : (boot L taken code).run (powerOn m) = .ok kernel s₀)
    (hrun : Along (Step L kernel) s₀ tr) : Conserved L kernel (final s₀ tr) := by
  obtain ⟨free₀, own₀, -⟩ := boot_ok hboot
  obtain ⟨free, own⟩ := own₀.run hrun
  exact own.conserved

theorem pages_conserved_fork : ∃ kernel s₀ s',
    (boot exampleLayout [] fun _ => 0).run (powerOn fun _ => Bytes.zero) = .ok kernel s₀ ∧
      Along (Step exampleLayout kernel) s₀
        [(.other proczero, s₀.dispatch proczero), (.fork proczero 2, s')] ∧
      Conserved exampleLayout kernel s' := by
  obtain ⟨kernel, s₀, s', hboot, live, -, hfork⟩ :=
    fork_after_boot exampleLayout (fun _ => Bytes.zero) (fun _ => 0) (by decide)
  have running : ((s₀.dispatch proczero).proc proczero).state = .running := by rw [dispatch_self]
  have run : Along (Step exampleLayout kernel) s₀
      [(.other proczero, s₀.dispatch proczero), (.fork proczero 2, s')] :=
    ⟨step_dispatch live, .fork running hfork, trivial⟩
  exact ⟨kernel, s₀, s', hboot, run, pages_conserved hboot run⟩

end EasyXv6.Proc
