import EasyXv6.Proc.Lifecycle

set_option autoImplicit false

/-!
# Who owns a page

A page of `[ALLOC_BEGIN, PHYSTOP)` is free, or in the hands of the kernel since boot, or a node or a
leaf of the table of one process. The trapframe of a process is the leaf of its table at `TRAPFRAME`.
-/
namespace EasyXv6.Proc
open Lib Mem Radix Finset

variable {L : Layout} {s s' : Kernel} {free free' : List ℕ} {kernel : Multiset ℕ}
  {i j c : Fin NPROC} {q : ℕ}

def allPages (L : Layout) : Multiset ℕ :=
  (List.range ((PHYSTOP - L.allocBegin) / PGSIZE)).map fun k => L.allocBegin + k * PGSIZE

theorem mem_allPages : q ∈ allPages L ↔ InRange L q := by
  have ha := L.allocBegin_aligned
  have hle := L.allocBegin_le
  rw [allPages, Multiset.mem_coe, List.mem_map]
  simp only [List.mem_range, InRange, PGSIZE, PHYSTOP] at *
  constructor
  · rintro ⟨k, hk, rfl⟩
    omega
  · intro h
    exact ⟨(q - L.allocBegin) / 4096, by omega, by omega⟩

theorem nodup_allPages (L : Layout) : (allPages L).Nodup := by
  refine Multiset.coe_nodup.mpr (List.nodup_range.map ?_)
  intro a b h
  simp only [PGSIZE] at h
  omega

def slotPages (L : Layout) (s : Kernel) (i : Fin NPROC) : Multiset ℕ :=
  if (s.proc i).pgtbl = 0 then 0 else tablePages L s.pm.mem (s.proc i).pgtbl

theorem slotPages_of_null (h : (s.proc i).pgtbl = 0) : slotPages L s i = 0 := if_pos h

theorem slotPages_of_root {r : ℕ} (h : (s.proc i).pgtbl = r) (hr : r ≠ 0) :
    slotPages L s i = tablePages L s.pm.mem r := by
  rw [slotPages, h, if_neg hr]

/-- What a table maps, the trampoline apart, are pages of the allocator. -/
def Backed (L : Layout) (m : ℕ → Page) (r : ℕ) : Prop :=
  ∀ va, pteAt L m r va ≠ 0 → SameEntry TRAMPOLINE va ∨ InRange L (PTE2PA (pteAt L m r va))

theorem Backed.of_pteAt {m m' : ℕ → Page} {r : ℕ} (h : Backed L m r)
    (same : ∀ va, pteAt L m' r va = pteAt L m r va) : Backed L m' r := by
  intro va hva
  rw [same] at hva ⊢
  exact h va hva

theorem Backed.of_keeps {pm pm' : Pmem} {m : ℕ → Page} {r : ℕ} (h : Backed L pm.mem r)
    (keeps : Keeps L r pm free pm' free') (same : ∀ va, pteAt L m r va = pteAt L pm'.mem r va) :
    Backed L m r := by
  intro va hva
  rw [same] at hva ⊢
  rcases keeps.backed va with old | zero | new
  · rw [old] at hva ⊢
    exact h va hva
  · exact absurd zero hva
  · exact Or.inr new

/-- `vm_unmappages` takes neither of the two entries for one of an upper level. -/
def Framed (L : Layout) (m : ℕ → Page) (r : ℕ) : Prop :=
  PTE_FLAGS (pteAt L m r TRAMPOLINE) ≠ PTE_V ∧ PTE_FLAGS (pteAt L m r TRAPFRAME) ≠ PTE_V

/-- A slot in use. -/
structure SlotOk (L : Layout) (m : ℕ → Page) (p : ProcT) : Prop where
  root : p.pgtbl ≠ 0
  tree : TreeOk L m p.pgtbl
  tf : InRange L p.tf
  trapframe : PTE2PA (pteAt L m p.pgtbl TRAPFRAME) = p.tf
  trampoline : PTE2PA (pteAt L m p.pgtbl TRAMPOLINE) = L.trampoline
  backed : Backed L m p.pgtbl
  framed : Framed L m p.pgtbl

/-- A slot that `proc_alloc` may take. -/
structure SlotEmpty (p : ProcT) : Prop where
  pgtbl : p.pgtbl = 0
  tf : p.tf = 0

/-- A process that has exited, or none. -/
def Gone (p : ProcT) : Prop := p.state = .unused ∨ p.state = .zombie

structure Owned (L : Layout) (s : Kernel) (free : List ℕ) (kernel : Multiset ℕ) : Prop where
  list : FreeList L s.pm free
  pages : (free : Multiset ℕ) + kernel + ∑ i, slotPages L s i = allPages L
  used : ∀ i, (s.proc i).state ≠ .unused → SlotOk L s.pm.mem (s.proc i)
  unused : ∀ i, (s.proc i).state = .unused → SlotEmpty (s.proc i)
  heapTop : ∀ i, (s.proc i).heapTop ≤ TRAPFRAME
  closed : ∀ i, Gone (s.proc i) → ∀ fd, (s.proc i).ofile fd = none

theorem slotPages_le (L : Layout) (s : Kernel) (i : Fin NPROC) :
    slotPages L s i ≤ ∑ j, slotPages L s j :=
  single_le_sum_of_canonicallyOrdered (mem_univ i)

namespace Owned

theorem nodup (own : Owned L s free kernel) :
    ((free : Multiset ℕ) + kernel + ∑ i, slotPages L s i).Nodup := by
  rw [own.pages]
  exact nodup_allPages L

theorem inRange (own : Owned L s free kernel) (h : q ∈ slotPages L s i) : InRange L q := by
  rw [← mem_allPages, ← own.pages]
  exact Multiset.mem_add.mpr (Or.inr (Multiset.mem_of_le (slotPages_le L s i) h))

theorem free_nodup (own : Owned L s free kernel) : free.Nodup :=
  Multiset.coe_nodup.mp (Multiset.nodup_add.mp (Multiset.nodup_add.mp own.nodup).1).1

/-- The pages of a slot and the free list. -/
theorem apart (own : Owned L s free kernel) (i : Fin NPROC) :
    ((free : Multiset ℕ) + slotPages L s i).Nodup := by
  refine Multiset.nodup_of_le ?_ own.nodup
  rw [add_assoc]
  exact add_le_add_right ((slotPages_le L s i).trans (Multiset.le_add_left _ _)) _

theorem notFree (own : Owned L s free kernel) (h : q ∈ slotPages L s i) : q ∉ free := fun hf =>
  Multiset.disjoint_left.mp (Multiset.nodup_add.mp (own.apart i)).2.2 (Multiset.mem_coe.mpr hf) h

/-- Two slots have no page in common. -/
theorem disjoint (own : Owned L s free kernel) (hne : i ≠ j) (h : q ∈ slotPages L s i) :
    q ∉ slotPages L s j := by
  have sub := (Multiset.nodup_add.mp own.nodup).2.1
  rw [← add_sum_erase _ _ (mem_univ i)] at sub
  have hj : slotPages L s j ≤ ∑ k ∈ univ.erase i, slotPages L s k :=
    single_le_sum_of_canonicallyOrdered (mem_erase.mpr ⟨hne.symm, mem_univ j⟩)
  exact fun h' => Multiset.disjoint_left.mp (Multiset.nodup_add.mp sub).2.2 h
    (Multiset.mem_of_le hj h')

theorem slotPages_eq (own : Owned L s free kernel) (h : (s.proc i).state ≠ .unused) :
    slotPages L s i = tablePages L s.pm.mem (s.proc i).pgtbl := by
  rw [slotPages, if_neg (own.used i h).root]

theorem slotPages_unused (own : Owned L s free kernel) (h : (s.proc i).state = .unused) :
    slotPages L s i = 0 := by
  rw [slotPages, if_pos (own.unused i h).pgtbl]

theorem mem_slotPages_of_node (own : Owned L s free kernel) (h : (s.proc i).state ≠ .unused)
    (hq : q ∈ tableNodes L s.pm.mem (s.proc i).pgtbl) : q ∈ slotPages L s i := by
  rw [own.slotPages_eq h]
  exact Multiset.mem_add.mpr (Or.inl hq)

theorem space (own : Owned L s free kernel) (h : (s.proc i).state ≠ .unused) :
    Space L s.pm free (s.proc i).pgtbl := by
  refine ⟨own.list, (own.used i h).tree, ?_⟩
  refine Multiset.nodup_of_le ?_ (own.apart i)
  rw [own.slotPages_eq h, tablePages]
  exact add_le_add_right (Multiset.le_add_right _ _) _

/-- What a process maps is not free. -/
theorem data_notFree (own : Owned L s free kernel) (h : (s.proc i).state ≠ .unused) (va : ℕ) :
    PTE2PA (pteAt L s.pm.mem (s.proc i).pgtbl va) ∉ free := by
  intro hf
  refine own.notFree (i := i) ?_ hf
  rw [own.slotPages_eq h]
  exact Multiset.mem_add.mpr (Or.inr ((own.used i h).tree.mem_leaves (own.list.range _ hf)))

end Owned

/-- The fields of a slot that the ownership of pages depends on. -/
structure SameSpace (p q : ProcT) : Prop where
  pgtbl : q.pgtbl = p.pgtbl
  tf : q.tf = p.tf
  heapTop : q.heapTop = p.heapTop
  state : q.state = .unused ↔ p.state = .unused
  closed : Gone q → (∀ fd, q.ofile fd = none) ∨ (Gone p ∧ q.ofile = p.ofile)

theorem SlotOk.of_same {m m' : ℕ → Page} {p p' : ProcT} (ok : SlotOk L m p)
    (fields : SameSpace p p') (h : ∀ b ∈ tableNodes L m p.pgtbl, m' b = m b) : SlotOk L m' p' where
  root := fields.pgtbl ▸ ok.root
  tree := fields.pgtbl ▸ (ok.tree.of_same h).1
  tf := fields.tf ▸ ok.tf
  trapframe := by
    rw [fields.pgtbl, pteAt_of_same h, ok.trapframe, fields.tf]
  trampoline := by
    rw [fields.pgtbl, pteAt_of_same h, ok.trampoline]
  backed := by
    rw [fields.pgtbl]
    exact ok.backed.of_pteAt fun va => pteAt_of_same h
  framed := by
    rw [fields.pgtbl, Framed, pteAt_of_same h, pteAt_of_same h]
    exact ok.framed

theorem SlotEmpty.of_same {p p' : ProcT} (h : SlotEmpty p) (fields : SameSpace p p') :
    SlotEmpty p' where
  pgtbl := fields.pgtbl.trans h.pgtbl
  tf := fields.tf.trans h.tf

theorem Owned.closed_of_same (own : Owned L s free kernel)
    (fields : SameSpace (s.proc j) (s'.proc j)) (h : Gone (s'.proc j)) (fd : Fin NOFILE) :
    (s'.proc j).ofile fd = none := by
  rcases fields.closed h with none | ⟨hp, same⟩
  · exact none fd
  · rw [same]
    exact own.closed j hp fd

theorem slotPages_of_same (own : Owned L s free kernel)
    (fields : SameSpace (s.proc j) (s'.proc j))
    (h : ∀ b ∈ slotPages L s j, b ∈ tableNodes L s.pm.mem (s.proc j).pgtbl →
      s'.pm.mem b = s.pm.mem b) : slotPages L s' j = slotPages L s j := by
  by_cases hu : (s.proc j).state = .unused
  · rw [own.slotPages_unused hu, slotPages, if_pos]
    rw [fields.pgtbl, (own.unused j hu).pgtbl]
  · rw [own.slotPages_eq hu, slotPages, fields.pgtbl, if_neg (own.used j hu).root]
    have same : ∀ b ∈ tableNodes L s.pm.mem (s.proc j).pgtbl, s'.pm.mem b = s.pm.mem b :=
      fun b hb => h b (own.mem_slotPages_of_node hu hb) hb
    obtain ⟨-, hn, hl⟩ := (own.used j hu).tree.of_same same
    rw [tablePages, hn, hl]
    rfl

/-- The other slots keep their pages when only free pages and those of `c` are written. -/
theorem Owned.others_same (own : Owned L s free kernel)
    (others : ∀ j ≠ c, SameSpace (s.proc j) (s'.proc j))
    (frame : ∀ q, q ∉ free → q ∉ slotPages L s c → s'.pm.mem q = s.pm.mem q) (hj : j ≠ c) :
    slotPages L s' j = slotPages L s j :=
  slotPages_of_same own (others j hj) fun b hb _ =>
    frame b (own.notFree hb) (own.disjoint hj hb)

/-- Pages pass between the free list and one slot. -/
theorem Owned.exchange (own : Owned L s free kernel)
    (others : ∀ j ≠ c, SameSpace (s.proc j) (s'.proc j)) (list : FreeList L s'.pm free')
    (pages : (free' : Multiset ℕ) + slotPages L s' c = free + slotPages L s c)
    (frame : ∀ q, q ∉ free → q ∉ slotPages L s c → s'.pm.mem q = s.pm.mem q)
    (used : (s'.proc c).state ≠ .unused → SlotOk L s'.pm.mem (s'.proc c))
    (unused : (s'.proc c).state = .unused → SlotEmpty (s'.proc c))
    (heapTop : (s'.proc c).heapTop ≤ TRAPFRAME)
    (closed : Gone (s'.proc c) → ∀ fd, (s'.proc c).ofile fd = none) : Owned L s' free' kernel := by
  have same : ∀ j ≠ c, ∀ b ∈ slotPages L s j, s'.pm.mem b = s.pm.mem b :=
    fun j hj b hb => frame b (own.notFree hb) (own.disjoint hj hb)
  refine ⟨list, ?_, ?_, ?_, ?_, ?_⟩
  · have rest : ∑ j ∈ univ.erase c, slotPages L s' j = ∑ j ∈ univ.erase c, slotPages L s j := by
      apply sum_congr rfl
      intro j hj
      exact own.others_same others frame (mem_erase.mp hj).1
    rw [← own.pages, ← add_sum_erase _ _ (mem_univ c), ← add_sum_erase _ (slotPages L s) (mem_univ c),
      rest]
    calc (free' : Multiset ℕ) + kernel +
          (slotPages L s' c + ∑ j ∈ univ.erase c, slotPages L s j)
        = (free' + slotPages L s' c) + (kernel + ∑ j ∈ univ.erase c, slotPages L s j) := by abel
      _ = (free + slotPages L s c) + (kernel + ∑ j ∈ univ.erase c, slotPages L s j) := by rw [pages]
      _ = _ := by abel
  · intro j hu
    by_cases hj : j = c
    · subst hj
      exact used hu
    · have hu' : (s.proc j).state ≠ .unused := fun h => hu ((others j hj).state.mpr h)
      exact (own.used j hu').of_same (others j hj)
        fun b hb => same j hj b (own.mem_slotPages_of_node hu' hb)
  · intro j hu
    by_cases hj : j = c
    · subst hj
      exact unused hu
    · exact (own.unused j ((others j hj).state.mp hu)).of_same (others j hj)
  · intro j
    by_cases hj : j = c
    · subst hj
      exact heapTop
    · rw [(others j hj).heapTop]
      exact own.heapTop j
  · intro j hg fd
    by_cases hj : j = c
    · subst hj
      exact closed hg fd
    · exact own.closed_of_same (others j hj) hg fd

/-- Nothing but pages that are neither free nor nodes of a table is written. -/
theorem Owned.write (own : Owned L s free kernel) (all : ∀ j, SameSpace (s.proc j) (s'.proc j))
    (list : FreeList L s'.pm free)
    (same : ∀ j, ∀ b ∈ slotPages L s j, b ∈ tableNodes L s.pm.mem (s.proc j).pgtbl →
      s'.pm.mem b = s.pm.mem b) : Owned L s' free kernel := by
  refine ⟨list, ?_, ?_, ?_, ?_, fun j hg fd => own.closed_of_same (all j) hg fd⟩
  · rw [← own.pages, sum_congr rfl fun j _ => slotPages_of_same own (all j) (same j)]
  · intro j hu
    have hu' : (s.proc j).state ≠ .unused := fun h => hu ((all j).state.mpr h)
    exact (own.used j hu').of_same (all j)
      fun b hb => same j b (own.mem_slotPages_of_node hu' hb) hb
  · intro j hu
    exact (own.unused j ((all j).state.mp hu)).of_same (all j)
  · intro j
    rw [(all j).heapTop]
    exact own.heapTop j

/-- Only the table of processes changes. -/
theorem Owned.table (own : Owned L s free kernel) (pm : s'.pm = s.pm)
    (all : ∀ j, SameSpace (s.proc j) (s'.proc j)) : Owned L s' free kernel :=
  own.write all (by rw [pm]; exact own.list) fun _ _ _ _ => by rw [pm]

end EasyXv6.Proc
