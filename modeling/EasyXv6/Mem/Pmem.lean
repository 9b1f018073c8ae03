import EasyXv6.Lib.Bytes
import EasyXv6.Lib.Comp

set_option autoImplicit false

/-!
# Physical pages (pmem.c)

The free list runs through the pages themselves: the first eight bytes of a free page are the
address of the next one.
-/
namespace EasyXv6.Mem
open Lib

abbrev PGSIZE : ℕ := 4096
abbrev KERNEL_BASE : ℕ := 0x80000000
abbrev PHYSTOP : ℕ := 0x88000000

/-- What the linker decides: the page of the trampoline code and the end of the kernel image. -/
structure Layout where
  trampoline : ℕ
  allocBegin : ℕ
  base_le : KERNEL_BASE ≤ trampoline
  trampoline_aligned : trampoline % PGSIZE = 0
  trampoline_lt : trampoline < allocBegin
  allocBegin_aligned : allocBegin % PGSIZE = 0
  allocBegin_le : allocBegin ≤ PHYSTOP

/-- A kernel image of 128 KiB. -/
def exampleLayout : Layout where
  trampoline := 0x80005000
  allocBegin := 0x80020000
  base_le := by decide
  trampoline_aligned := by decide
  trampoline_lt := by decide
  allocBegin_aligned := by decide
  allocBegin_le := by decide

theorem Layout.trampoline_pos (L : Layout) : 0 < L.trampoline :=
  Nat.lt_of_lt_of_le (by decide) L.base_le

abbrev Page := Bytes PGSIZE

/-- Memory by the base addresses of pages, and `free_region` without its bounds. -/
structure Pmem where
  mem : ℕ → Page
  next : ℕ
  allocable : ℕ

namespace Pmem

def setPage (s : Pmem) (p : ℕ) (f : Page → Page) : Pmem :=
  { s with mem := Function.update s.mem p (f (s.mem p)) }

/-- `page->next` -/
def nextOf (m : Page) : ℕ := m.num 0 8

/-- Insert a page at the head of the free list. -/
def push (s : Pmem) (page : ℕ) : Pmem :=
  { s.setPage page (·.putNum 0 8 s.next) with next := page, allocable := s.allocable + 1 }

end Pmem

def pmemInit (L : Layout) : Comp Pmem Unit := do
  .modify fun s => { s with allocable := 0, next := 0 }
  .forUpTo ((PHYSTOP - L.allocBegin) / PGSIZE) fun k =>
    .modify (·.push (L.allocBegin + k * PGSIZE))

def pmemAlloc : Comp Pmem ℕ := do
  let s ← .get
  if s.allocable = 0 then
    .halt "alloc pages not enough"
  else
    let page := s.next
    .modify fun s => { s with
      next := if page ≠ 0 then Pmem.nextOf (s.mem page) else s.next
      allocable := s.allocable - 1 }
    return page

def pmemFree (L : Layout) (page : ℕ) : Comp Pmem Unit :=
  if page % PGSIZE ≠ 0 ∨ page < L.allocBegin ∨ PHYSTOP ≤ page then .halt "kfree"
  else .modify (·.push page)

/-- `memset(page, 0, PGSIZE)` -/
def memzero (page : ℕ) : Comp Pmem Unit := .modify (·.setPage page fun _ => Bytes.zero)

section FreeList

variable {L : Layout} {s s' : Pmem} {free : List ℕ} {p : ℕ}

/-- A page of `[ALLOC_BEGIN, PHYSTOP)` -/
def InRange (L : Layout) (p : ℕ) : Prop := p % PGSIZE = 0 ∧ L.allocBegin ≤ p ∧ p < PHYSTOP

instance (L : Layout) (p : ℕ) : Decidable (InRange L p) := by
  unfold InRange
  infer_instance

theorem InRange.pos (h : InRange L p) : 0 < p := by
  have := L.trampoline_pos
  have := L.trampoline_lt
  have := h.2.1
  omega

theorem InRange.ne_trampoline (h : InRange L p) : p ≠ L.trampoline := by
  have := L.trampoline_lt
  have := h.2.1
  omega

/-- The list in memory that starts at `head` is `free`. -/
def Linked (mem : ℕ → Page) (head : ℕ) : List ℕ → Prop
  | [] => head = 0
  | p :: ps => head = p ∧ Linked mem (Pmem.nextOf (mem p)) ps

structure FreeList (L : Layout) (s : Pmem) (free : List ℕ) : Prop where
  linked : Linked s.mem s.next free
  allocable : s.allocable = free.length
  range : ∀ p ∈ free, InRange L p

theorem FreeList.length_le (h : FreeList L s free) (nodup : free.Nodup) :
    free.length ≤ PHYSTOP / PGSIZE := by
  have inj : (free.map (· / PGSIZE)).Nodup := by
    refine nodup.map_on fun p hp q hq heq => ?_
    have := (h.range p hp).1
    have := (h.range q hq).1
    simp only [PGSIZE] at *
    omega
  have sub : (free.map (· / PGSIZE)).toFinset ⊆ Finset.range (PHYSTOP / PGSIZE) := by
    intro k hk
    obtain ⟨p, hp, rfl⟩ := List.mem_map.mp (List.mem_toFinset.mp hk)
    have := (h.range p hp).2.2
    simp only [Finset.mem_range, PHYSTOP, PGSIZE] at *
    omega
  have := Finset.card_le_card sub
  rwa [List.toFinset_card_of_nodup inj, List.length_map, Finset.card_range] at this

theorem Linked.congr {mem mem' : ℕ → Page} {head : ℕ} (h : Linked mem head free)
    (same : ∀ p ∈ free, mem' p = mem p) : Linked mem' head free := by
  induction free generalizing head with
  | nil => exact h
  | cons p ps ih =>
    refine ⟨h.1, ?_⟩
    rw [same p List.mem_cons_self]
    exact ih h.2 fun q hq => same q (List.mem_cons_of_mem _ hq)

/-- A write to a page that is not free. -/
theorem FreeList.setPage (h : FreeList L s free) (hp : p ∉ free) (f : Page → Page) :
    FreeList L (s.setPage p f) free where
  linked := h.linked.congr fun _ hq => Function.update_of_ne (ne_of_mem_of_not_mem hq hp) ..
  allocable := h.allocable
  range := h.range

theorem FreeList.push (h : FreeList L s free) (hp : p ∉ free) (hr : InRange L p) :
    FreeList L (s.push p) (p :: free) := by
  refine ⟨⟨rfl, ?_⟩, ?_, ?_⟩
  · have next : Pmem.nextOf ((s.push p).mem p) = s.next := by
      have self : (s.push p).mem p = (s.mem p).putNum 0 8 s.next := Function.update_self ..
      rw [self, Pmem.nextOf, Bytes.num_putNum_self _ _ _ _ (by decide)]
      apply Nat.mod_eq_of_lt
      cases free with
      | nil =>
        rw [show s.next = 0 from h.linked]
        decide
      | cons q qs =>
        rw [h.linked.1]
        exact Nat.lt_trans (h.range q List.mem_cons_self).2.2 (by decide)
    rw [next]
    exact h.linked.congr fun _ hq => Function.update_of_ne (ne_of_mem_of_not_mem hq hp) ..
  · exact congrArg (· + 1) h.allocable
  · intro q hq
    rcases List.mem_cons.mp hq with rfl | hq
    · exact hr
    · exact h.range q hq

/-- `pmem_alloc` takes the head of the free list. -/
theorem FreeList.alloc (h : FreeList L s free) (hr : pmemAlloc.run s = .ok p s') :
    ∃ rest, free = p :: rest ∧ FreeList L s' rest ∧ s'.mem = s.mem ∧ InRange L p := by
  unfold pmemAlloc at hr
  simp only [Comp.bind_get_run, Comp.run_ite] at hr
  split at hr
  · cases hr
  next hn =>
  simp only [Comp.bind_modify_run, Comp.run_pure, Outcome.ok.injEq] at hr
  obtain ⟨rfl, rfl⟩ := hr
  cases free with
  | nil =>
    rw [h.allocable] at hn
    exact absurd rfl hn
  | cons q rest =>
    have hq := h.range q List.mem_cons_self
    obtain ⟨hnext, hrest⟩ := h.linked
    refine ⟨rest, by rw [hnext], ⟨?_, ?_, ?_⟩, rfl, hnext ▸ hq⟩
    · have hne : q ≠ 0 := Nat.ne_of_gt hq.pos
      simp only [hnext, ne_eq, hne, not_false_eq_true, ↓reduceIte]
      exact hrest
    · dsimp only
      rw [h.allocable, List.length_cons, Nat.add_sub_cancel]
    · exact fun r hr => h.range r (List.mem_cons_of_mem _ hr)

theorem pmemFree_ok (hr : (pmemFree L p).run s = .ok () s') : InRange L p ∧ s' = s.push p := by
  unfold pmemFree at hr
  rw [Comp.run_ite] at hr
  split at hr
  · cases hr
  next hn =>
  cases hr
  exact ⟨⟨by omega, by omega, by omega⟩, rfl⟩

theorem push_mem_of_ne {q : ℕ} (h : q ≠ p) : (s.push p).mem q = s.mem q :=
  Function.update_of_ne h ..

theorem setPage_mem_self {f : Page → Page} : (s.setPage p f).mem p = f (s.mem p) :=
  Function.update_self ..

theorem setPage_mem_of_ne {q : ℕ} {f : Page → Page} (h : q ≠ p) : (s.setPage p f).mem q = s.mem q :=
  Function.update_of_ne h ..

end FreeList

end EasyXv6.Mem
