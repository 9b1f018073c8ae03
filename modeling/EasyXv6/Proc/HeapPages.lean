import EasyXv6.Mem.Copyout
import EasyXv6.Proc.Brk

set_option autoImplicit false

/-!
# The heap follows its top

A process that has the user pages below its top, and its stack, has them after every `sys_brk`.
-/
namespace EasyXv6.Proc
open Lib Mem Radix

variable {L : Layout} {s s' : Kernel} {free free' : List ℕ} {kernel : Multiset ℕ}
  {i : Fin NPROC} {a ret : ℕ} {pm pm' : Pmem} {r v : ℕ}

section Mapped

/-- The pages that are mapped with PTE_U, by their numbers. -/
def userPages (pm : Pmem) (r : ℕ) : Set ℕ := {v | ∃ e, flatten pm r v = some e ∧ isUser e.2}

/-- The page below the kernel stack of the slot `i`. -/
def stackPage (i : Fin NPROC) : ℕ := (KSTACK i - PGSIZE) / PGSIZE

/-- The user pages of the process, its stack apart, are those of `[0, PG_ROUND_UP(heap_top))`. -/
def HeapMapped (s : Kernel) (i : Fin NPROC) : Prop :=
  ∀ v, v ≠ stackPage i →
    (v ∈ userPages s.pm (s.proc i).pgtbl ↔ v * PGSIZE < PG_ROUND_UP (s.proc i).heapTop)

theorem isUser_flags (pte : ℕ) : isUser (PTE_FLAGS pte) = isUser pte := by
  apply isUser_mod
  rw [PTE_FLAGS]
  omega

theorem mem_userPages (ok : TreeOk L pm.mem r) :
    v ∈ userPages pm r ↔ v < 2 ^ 27 ∧ isUser (pteAt L pm.mem r (v * PGSIZE)) := by
  constructor
  · rintro ⟨e, he, user⟩
    have hv : v < 2 ^ 27 := by
      by_contra h
      rw [flatten_of_le (Nat.not_lt.mp h)] at he
      cases he
    rw [flatten_eq ok hv] at he
    split at he
    · cases he
      exact ⟨hv, by rwa [isUser_flags] at user⟩
    · cases he
  · rintro ⟨hv, user⟩
    have valid : isValid (pteAt L pm.mem r (v * PGSIZE)) := by
      by_contra h
      rw [ok.pteAt_zero (by simpa using h)] at user
      cases user
    refine ⟨_, by rw [flatten_eq ok hv, if_pos valid], ?_⟩
    rw [isUser_flags]
    exact user

/-- Different entries have different pages, so there are not more of them than there is memory. -/
theorem card_mapped_le (ok : TreeOk L pm.mem r) (nodup : (tableLeaves L pm.mem r).Nodup)
    {S : Finset ℕ} (hS : ∀ v ∈ S, v < 2 ^ 27 ∧ InRange L (PTE2PA (pteAt L pm.mem r (v * PGSIZE)))) :
    S.card ≤ (PHYSTOP - KERNEL_BASE) / PGSIZE := by
  have into : ∀ v ∈ S, PTE2PA (pteAt L pm.mem r (v * PGSIZE)) / PGSIZE ∈
      Finset.Ico (KERNEL_BASE / PGSIZE) (PHYSTOP / PGSIZE) := by
    intro v hv
    have base := L.base_le
    have below := L.trampoline_lt
    obtain ⟨-, aligned, low, high⟩ := hS v hv
    simp only [Finset.mem_Ico, KERNEL_BASE, PHYSTOP, PGSIZE] at *
    omega
  have inj : Set.InjOn (fun v => PTE2PA (pteAt L pm.mem r (v * PGSIZE)) / PGSIZE) S := by
    intro v hv w hw heq
    obtain ⟨hv27, range⟩ := hS v hv
    obtain ⟨hw27, range'⟩ := hS w hw
    have same : PTE2PA (pteAt L pm.mem r (w * PGSIZE)) = PTE2PA (pteAt L pm.mem r (v * PGSIZE)) := by
      have := range.1
      have := range'.1
      simp only [PGSIZE] at *
      omega
    exact (sameEntry_page hv27 hw27).mp (ok.leaf_inj nodup range same)
  have := Finset.card_le_card_of_injOn _ into inj
  rwa [Nat.card_Ico] at this

theorem Owned.leaves_nodup (own : Owned L s free kernel) (hi : (s.proc i).state ≠ .unused) :
    (tableLeaves L s.pm.mem (s.proc i).pgtbl).Nodup :=
  (Multiset.nodup_add.mp (Multiset.nodup_add.mp (own.apartTable hi)).2.1).2.1

/-- A heap that is all mapped is not larger than the memory. -/
theorem HeapMapped.small (heap : HeapMapped s i) (own : Owned L s free kernel)
    (hi : (s.proc i).state ≠ .unused) : PG_ROUND_UP (s.proc i).heapTop < 2 ^ 31 := by
  have ok := own.used i hi
  have htop := own.heapTop i
  have bound := card_mapped_le ok.tree (own.leaves_nodup hi)
    (S := (Finset.range (pagesFor (s.proc i).heapTop)).erase (stackPage i)) (by
      intro v hv
      obtain ⟨hne, hv⟩ := Finset.mem_erase.mp hv
      rw [Finset.mem_range] at hv
      have below : v * PGSIZE < PG_ROUND_UP (s.proc i).heapTop := by
        rw [pg_round_up_of_le htop]
        exact Nat.mul_lt_mul_of_pos_right hv (by decide)
      obtain ⟨hv27, user⟩ := (mem_userPages ok.tree).mp ((heap v hne).mpr below)
      refine ⟨hv27, ?_⟩
      have ne : pteAt L s.pm.mem (s.proc i).pgtbl (v * PGSIZE) ≠ 0 := by
        intro zero
        rw [zero] at user
        cases user
      refine (ok.backed _ ne).resolve_left ?_
      rw [pg_round_up_of_le htop] at below
      rw [sameEntry_iff (by decide) (by simp only [PGSIZE]; omega)]
      simp only [pagesFor, TRAPFRAME, TRAMPOLINE, MAXVA, PGSIZE] at *
      omega)
  have erased := Finset.pred_card_le_card_erase (s := Finset.range (pagesFor (s.proc i).heapTop))
    (a := stackPage i)
  rw [Finset.card_range] at erased
  rw [pg_round_up_of_le htop]
  simp only [KERNEL_BASE, PHYSTOP, PGSIZE] at *
  omega

end Mapped

section Step

/-- Pages that are mapped before and after a call keep their physical page, its content and their
    flags, and a page that is mapped anew reads as zero. -/
structure PagesKept (pm pm' : Pmem) (r : ℕ) : Prop where
  kept : ∀ v, flatten pm r v ≠ none → flatten pm' r v ≠ none → flatten pm' r v = flatten pm r v ∧
    pm'.mem ((flatten pm r).page v) = pm.mem ((flatten pm r).page v)
  zero : ∀ v, flatten pm r v = none → flatten pm' r v ≠ none →
    pm'.mem ((flatten pm' r).page v) = Bytes.zero

theorem PagesKept.refl (pm : Pmem) (r : ℕ) : PagesKept pm pm r where
  kept _ _ _ := ⟨rfl, rfl⟩
  zero _ none some := absurd none some

/-- It is enough to say it of the entries. -/
theorem PagesKept.of_entries (ok : TreeOk L pm.mem r) (ok' : TreeOk L pm'.mem r)
    (kept : ∀ v < 2 ^ 27, isValid (pteAt L pm.mem r (v * PGSIZE)) →
      isValid (pteAt L pm'.mem r (v * PGSIZE)) →
      pteAt L pm'.mem r (v * PGSIZE) = pteAt L pm.mem r (v * PGSIZE) ∧
      pm'.mem (PTE2PA (pteAt L pm.mem r (v * PGSIZE))) =
        pm.mem (PTE2PA (pteAt L pm.mem r (v * PGSIZE))))
    (zero : ∀ v < 2 ^ 27, ¬ isValid (pteAt L pm.mem r (v * PGSIZE)) →
      isValid (pteAt L pm'.mem r (v * PGSIZE)) →
      pm'.mem (PTE2PA (pteAt L pm'.mem r (v * PGSIZE))) = Bytes.zero) : PagesKept pm pm' r where
  kept := by
    intro v h h'
    have hv : v < 2 ^ 27 := by
      by_contra hv
      exact h (flatten_of_le (Nat.not_lt.mp hv))
    rw [flatten_ne_none ok hv] at h
    rw [flatten_ne_none ok' hv] at h'
    obtain ⟨same, content⟩ := kept v hv h h'
    rw [page_flatten ok hv h, flatten_eq ok' hv, flatten_eq ok hv, same]
    exact ⟨rfl, content⟩
  zero := by
    intro v h h'
    have hv : v < 2 ^ 27 := by
      by_contra hv
      exact h' (flatten_of_le (Nat.not_lt.mp hv))
    rw [flatten_ne_none ok' hv] at h'
    rw [page_flatten ok' hv h']
    refine zero v hv ?_ h'
    rw [← flatten_ne_none ok hv, not_not]
    exact h

/-- What lies outside of the allocator is written by no call. -/
theorem Owned.outside_same (own : Owned L s free kernel) (hi : (s.proc i).state ≠ .unused)
    (keeps : Keeps L (s.proc i).pgtbl s.pm free pm' free') {q : ℕ} (hq : ¬ InRange L q) :
    pm'.mem q = s.pm.mem q := by
  refine keeps.frame q (fun h => hq (own.list.range q h)) fun h => hq ?_
  rw [← own.slotPages_eq hi] at h
  exact own.inRange h

theorem Owned.grown_kept {lo n : ℕ} (own : Owned L s free kernel)
    (hi : (s.proc i).state ≠ .unused) (hlo : lo % PGSIZE = 0) (hend : lo + n * PGSIZE ≤ TRAPFRAME)
    (grown : Grown L (s.proc i).pgtbl lo n s.pm free pm' free') :
    PagesKept s.pm pm' (s.proc i).pgtbl ∧ ∀ v < 2 ^ 27,
      (isUser (pteAt L pm'.mem (s.proc i).pgtbl (v * PGSIZE)) ↔
        (lo ≤ v * PGSIZE ∧ v * PGSIZE < lo + n * PGSIZE) ∨
          isUser (pteAt L s.pm.mem (s.proc i).pgtbl (v * PGSIZE))) := by
  have ok := own.used i hi
  have inside : ∀ v, lo ≤ v * PGSIZE ∧ v * PGSIZE < lo + n * PGSIZE →
      ∃ k < n, v * PGSIZE = lo + k * PGSIZE := by
    intro v hv
    refine ⟨v - lo / PGSIZE, ?_, ?_⟩ <;> simp only [PGSIZE] at * <;> omega
  have outside : ∀ v < 2 ^ 27, ¬ (lo ≤ v * PGSIZE ∧ v * PGSIZE < lo + n * PGSIZE) →
      pteAt L pm'.mem (s.proc i).pgtbl (v * PGSIZE) =
        pteAt L s.pm.mem (s.proc i).pgtbl (v * PGSIZE) := by
    intro v hv hout
    apply grown.rest
    intro k hk same
    rw [sameEntry_iff] at same <;>
      simp only [TRAPFRAME, TRAMPOLINE, MAXVA, PGSIZE] at * <;> omega
  refine ⟨.of_entries ok.tree grown.keeps.space.tree ?_ ?_, ?_⟩
  · intro v hv valid _
    have hout : ¬ (lo ≤ v * PGSIZE ∧ v * PGSIZE < lo + n * PGSIZE) := by
      intro hin
      obtain ⟨k, hk, here⟩ := inside v hin
      rw [here, grown.unmapped k hk] at valid
      cases valid
    refine ⟨outside v hv hout, ?_⟩
    by_cases range : InRange L (PTE2PA (pteAt L s.pm.mem (s.proc i).pgtbl (v * PGSIZE)))
    · exact grown.content _ (ok.tree.mem_leaves range)
    · exact own.outside_same hi grown.keeps range
  · intro v hv invalid valid
    by_cases hin : lo ≤ v * PGSIZE ∧ v * PGSIZE < lo + n * PGSIZE
    · obtain ⟨k, hk, here⟩ := inside v hin
      obtain ⟨q, range, pte, content⟩ := grown.mapped k hk
      rw [here, pte, heapPte, pte2pa_leafPte (by decide) range.1 range.lt_pa]
      exact content
    · rw [outside v hv hin] at valid
      exact absurd valid invalid
  · intro v hv
    by_cases hin : lo ≤ v * PGSIZE ∧ v * PGSIZE < lo + n * PGSIZE
    · obtain ⟨k, hk, here⟩ := inside v hin
      obtain ⟨q, -, pte, -⟩ := grown.mapped k hk
      refine iff_of_true ?_ (Or.inl hin)
      rw [here, pte, heapPte, isUser_leafPte (by decide)]
      decide
    · rw [outside v hv hin]
      exact (or_iff_right hin).symm

theorem Owned.shrunk_kept {va n : ℕ} (own : Owned L s free kernel)
    (hi : (s.proc i).state ≠ .unused) (hva : va % PGSIZE = 0) (hend : va + n * PGSIZE ≤ TRAPFRAME)
    (shrunk : Shrunk L (s.proc i).pgtbl va n s.pm free pm' free') :
    PagesKept s.pm pm' (s.proc i).pgtbl ∧ ∀ v < 2 ^ 27,
      (isUser (pteAt L pm'.mem (s.proc i).pgtbl (v * PGSIZE)) ↔
        ¬ (va ≤ v * PGSIZE ∧ v * PGSIZE < va + n * PGSIZE) ∧
          isUser (pteAt L s.pm.mem (s.proc i).pgtbl (v * PGSIZE))) := by
  have ok := own.used i hi
  have inside : ∀ v, va ≤ v * PGSIZE ∧ v * PGSIZE < va + n * PGSIZE →
      pteAt L pm'.mem (s.proc i).pgtbl (v * PGSIZE) = 0 := by
    intro v hv
    have here : v * PGSIZE = va + (v - va / PGSIZE) * PGSIZE := by
      simp only [PGSIZE] at *
      omega
    rw [here]
    refine shrunk.gone _ ?_
    simp only [PGSIZE] at *
    omega
  have outside : ∀ v < 2 ^ 27, ¬ (va ≤ v * PGSIZE ∧ v * PGSIZE < va + n * PGSIZE) →
      pteAt L pm'.mem (s.proc i).pgtbl (v * PGSIZE) =
        pteAt L s.pm.mem (s.proc i).pgtbl (v * PGSIZE) := by
    intro v hv hout
    refine (shrunk.ptes (v * PGSIZE)).resolve_right ?_
    rintro ⟨-, k, hk, same⟩
    rw [sameEntry_iff] at same <;>
      simp only [TRAPFRAME, TRAMPOLINE, MAXVA, PGSIZE] at * <;> omega
  have valid_outside : ∀ v, isValid (pteAt L pm'.mem (s.proc i).pgtbl (v * PGSIZE)) →
      ¬ (va ≤ v * PGSIZE ∧ v * PGSIZE < va + n * PGSIZE) := by
    intro v valid hin
    rw [inside v hin] at valid
    cases valid
  refine ⟨.of_entries ok.tree shrunk.keeps.space.tree ?_ ?_, ?_⟩
  · intro v hv _ valid
    have same := outside v hv (valid_outside v valid)
    refine ⟨same, ?_⟩
    by_cases range : InRange L (PTE2PA (pteAt L s.pm.mem (s.proc i).pgtbl (v * PGSIZE)))
    · refine shrunk.content _ ?_
      rw [← same] at range ⊢
      exact shrunk.keeps.space.tree.mem_leaves range
    · exact own.outside_same hi shrunk.keeps range
  · intro v hv invalid valid
    rw [outside v hv (valid_outside v valid)] at valid
    exact absurd valid invalid
  · intro v hv
    by_cases hin : va ≤ v * PGSIZE ∧ v * PGSIZE < va + n * PGSIZE
    · rw [inside v hin]
      exact iff_of_false (by decide) fun h => h.1 hin
    · rw [outside v hv hin]
      exact (and_iff_right hin).symm

/-- One call keeps the heap mapped up to its top. -/
theorem Owned.brk_heap (own : Owned L s free kernel) (hi : (s.proc i).state ≠ .unused)
    (heap : HeapMapped s i) (hr : (sysBrk L i a).run s = .ok ret s') :
    HeapMapped s' i ∧ PagesKept s.pm s'.pm (s.proc i).pgtbl := by
  have ok := own.used i hi
  have htop := own.heapTop i
  have small := heap.small own hi
  have up := pg_round_up_of_le htop
  have before : ∀ v, v ≠ stackPage i → v < 2 ^ 27 →
      (isUser (pteAt L s.pm.mem (s.proc i).pgtbl (v * PGSIZE)) ↔
        v * PGSIZE < PG_ROUND_UP (s.proc i).heapTop) := by
    intro v hne hv
    rw [← heap v hne, mem_userPages ok.tree]
    exact (and_iff_right hv).symm
  by_cases h0 : a = 0
  · unfold sysBrk at hr
    rw [Comp.bind_gets_run, if_pos h0] at hr
    cases hr
    exact ⟨heap, .refl _ _⟩
  by_cases hlt : (s.proc i).heapTop < a
  · obtain ⟨h, pm, hmem, -, rfl⟩ := (sysBrk_grows h0 hlt).mp hr
    have hmod : (a - (s.proc i).heapTop) % 2 ^ 32 < 2 ^ 32 := Nat.mod_lt _ (by decide)
    obtain ⟨rfl, hend, free', grown⟩ := uvmHeapGrow_grown (own.space hi) (own.apartTable hi) htop
      (own.trapframe_mapped hi) hmod hmem
    generalize (a - (s.proc i).heapTop) % 2 ^ 32 = len at *
    obtain ⟨kept, after⟩ := own.grown_kept hi (pg_round_up_aligned _) hend grown
    refine ⟨?_, kept⟩
    intro v hne
    rw [afterBrk_pm, afterBrk_proc]
    dsimp only
    rw [mem_userPages grown.keeps.space.tree]
    have top' : PG_ROUND_UP (PG_ROUND_UP (s.proc i).heapTop + len) =
        PG_ROUND_UP (s.proc i).heapTop + pagesFor len * PGSIZE := by
      have aligned := pg_round_up_aligned (s.proc i).heapTop
      generalize PG_ROUND_UP (s.proc i).heapTop = lo at *
      simp only [PG_ROUND_UP, pagesFor, TRAPFRAME, TRAMPOLINE, MAXVA, PGSIZE] at *
      omega
    rw [top']
    constructor
    · rintro ⟨hv, user⟩
      rcases (after v hv).mp user with new | old
      · exact new.2
      · exact Nat.lt_of_lt_of_le ((before v hne hv).mp old) (Nat.le_add_right _ _)
    · intro below
      have hv : v < 2 ^ 27 := by
        simp only [TRAPFRAME, TRAMPOLINE, MAXVA, PGSIZE] at *
        omega
      refine ⟨hv, (after v hv).mpr ?_⟩
      by_cases new : PG_ROUND_UP (s.proc i).heapTop ≤ v * PGSIZE
      · exact Or.inl ⟨new, below⟩
      · exact Or.inr ((before v hne hv).mpr (Nat.lt_of_not_le new))
  · have hle : a ≤ (s.proc i).heapTop := Nat.not_lt.mp hlt
    obtain ⟨h, pm, hmem, -, rfl⟩ := (sysBrk_shrinks h0 hle).mp hr
    have top_le : (s.proc i).heapTop ≤ PG_ROUND_UP (s.proc i).heapTop := by
      rw [up]
      simp only [pagesFor, PGSIZE]
      omega
    have hmod : ((s.proc i).heapTop - a) % 2 ^ 32 = (s.proc i).heapTop - a :=
      Nat.mod_eq_of_lt (by omega)
    rw [hmod] at hmem
    obtain ⟨rfl, aligned, -, free', shrunk⟩ := uvmHeapUngrow_shrunk (own.space hi)
      (own.apartTable hi) htop (Nat.sub_le _ _) hmem
    have back : (s.proc i).heapTop - ((s.proc i).heapTop - a) = a := Nat.sub_sub_self hle
    rw [back] at aligned shrunk ⊢
    have end' : a + pagesFor ((s.proc i).heapTop - a) * PGSIZE =
        PG_ROUND_UP (s.proc i).heapTop := by
      rw [up]
      simp only [pagesFor, PGSIZE] at *
      omega
    have len_up : PG_ROUND_UP ((s.proc i).heapTop - a) < 2 ^ 31 :=
      Nat.lt_of_le_of_lt (pg_round_up_mono (Nat.sub_le _ _) htop) small
    rw [unmapRounds_small (by simp only [MAXVA]; omega) len_up (by omega)] at shrunk
    have hend : a + pagesFor ((s.proc i).heapTop - a) * PGSIZE ≤ TRAPFRAME := by
      rw [end']
      simp only [TRAPFRAME, TRAMPOLINE, MAXVA, PGSIZE]
      omega
    obtain ⟨kept, after⟩ := own.shrunk_kept hi aligned hend shrunk
    refine ⟨?_, kept⟩
    intro v hne
    rw [afterBrk_pm, afterBrk_proc]
    dsimp only
    rw [mem_userPages shrunk.keeps.space.tree]
    have top' : PG_ROUND_UP a = a := by
      simp only [PG_ROUND_UP, PGSIZE] at aligned ⊢
      omega
    rw [end'] at after
    rw [top']
    constructor
    · rintro ⟨hv, user⟩
      obtain ⟨left, old⟩ := (after v hv).mp user
      have := (before v hne hv).mp old
      omega
    · intro below
      have hv : v < 2 ^ 27 := by
        simp only [PGSIZE] at *
        omega
      refine ⟨hv, (after v hv).mpr ⟨by omega, (before v hne hv).mpr ?_⟩⟩
      omega

end Step

section Runs

variable {m : ℕ → Page} {taken : List Page} {code : ℕ → UInt8} {pages : List ℕ} {s₀ : Kernel}
  {tr : List (Label × Kernel)}

/-- A call of `sys_brk` that returns: its argument and what it returns. -/
def BrkCall (L : Layout) (i : Fin NPROC) (s : Kernel) (call : ℕ × ℕ) (s' : Kernel) : Prop :=
  (sysBrk L i call.1).run s = .ok call.2 s'

/-- `proc_make_first` maps the heap of the first process. -/
theorem heapMapped_boot (hboot : (boot L taken code).run (powerOn m) = .ok pages s₀) :
    HeapMapped s₀ proczero := by
  obtain ⟨free, own, -, tf, r, proc, first⟩ := boot_ok hboot
  have hi : (s₀.proc proczero).state ≠ .unused := by
    rw [proc, Function.update_self]
    simp
  have tree := (own.used proczero hi).tree
  have root : (s₀.proc proczero).pgtbl = r := by rw [proc, Function.update_self]
  have top : (s₀.proc proczero).heapTop = 4096 := by
    rw [proc, Function.update_self]
    rfl
  intro v hne
  rw [mem_userPages tree, top, root]
  have one : v * PGSIZE < PG_ROUND_UP 4096 ↔ v = 0 := by
    simp only [PG_ROUND_UP, PGSIZE]
    omega
  rw [one]
  constructor
  · rintro ⟨hv, user⟩
    by_contra other
    have stack : KSTACK 0 - PGSIZE = stackPage proczero * PGSIZE := by decide
    have notUser := (first.rest (v * PGSIZE) (by
      rw [stack, sameEntry_page (by decide) hv]
      exact fun h => hne h.symm) (by
      intro k hk
      have hk0 : k = 0 := Nat.lt_one_iff.mp hk
      rw [hk0, sameEntry_page (by decide) hv]
      exact fun h => other h.symm)).1
    rw [notUser] at user
    cases user
  · rintro rfl
    obtain ⟨q, hq⟩ := first.code 0 (by decide)
    refine ⟨by decide, ?_⟩
    rw [hq, codePte, isUser_leafPte (by decide)]
    decide

theorem HeapMapped.dispatch (h : HeapMapped s i) (j : Fin NPROC) :
    HeapMapped (s.dispatch j) i := by
  intro v hne
  have same : ((s.dispatch j).proc i).pgtbl = (s.proc i).pgtbl ∧
      ((s.dispatch j).proc i).heapTop = (s.proc i).heapTop := by
    unfold Kernel.dispatch
    dsimp only
    split
    · exact ⟨rfl, rfl⟩
    split <;> exact ⟨rfl, rfl⟩
  rw [same.1, same.2]
  exact h v hne

/-- From a process whose heap is mapped up to its top, every sequence of calls of `sys_brk` that
    return keeps it so, keeps the pages that stay, and adds pages of zeros. -/
theorem heap_follows_top (hboot : (boot L taken code).run (powerOn m) = .ok pages s₀)
    (hrun : Along (Step L pages) s₀ tr) (running : ((final s₀ tr).proc i).state = .running)
    (start : HeapMapped (final s₀ tr) i) {calls : List ((ℕ × ℕ) × Kernel)}
    (hcalls : Along (BrkCall L i) (final s₀ tr) calls) :
    HeapMapped (final (final s₀ tr) calls) i ∧
      Along (fun s _ s' => HeapMapped s' i ∧ PagesKept s.pm s'.pm (s.proc i).pgtbl)
        (final s₀ tr) calls := by
  obtain ⟨free₀, own₀, -⟩ := boot_ok hboot
  obtain ⟨free, own⟩ := own₀.run hrun
  have keep : ∀ (s : Kernel) (call : ℕ × ℕ) (s' : Kernel),
      ((∃ free, Owned L s free pages) ∧ (s.proc i).state = .running ∧ HeapMapped s i) →
      BrkCall L i s call s' →
      (∃ free, Owned L s' free pages) ∧ (s'.proc i).state = .running ∧ HeapMapped s' i := by
    rintro s call s' ⟨⟨free, own⟩, running, heap⟩ hr
    obtain ⟨⟨free', moves⟩, -, top, proc⟩ :=
      sysBrk_ok own (not_unused_of_running running) (not_gone_of_running running) hr
    refine ⟨⟨free', moves.owned⟩, ?_, (own.brk_heap (not_unused_of_running running) heap hr).1⟩
    rw [proc, Function.update_self]
    exact running
  refine ⟨(hcalls.invariant keep ⟨⟨free, own⟩, running, start⟩).2.2,
    hcalls.imp keep ?_ ⟨⟨free, own⟩, running, start⟩⟩
  rintro s call s' ⟨⟨free, own⟩, running, heap⟩ hr
  exact own.brk_heap (not_unused_of_running running) heap hr

/-- The first process gets a second page. -/
theorem heap_follows_top_boot : ∃ kernel s₀ ret s',
    (boot exampleLayout [] fun _ => 0).run (powerOn fun _ => Bytes.zero) = .ok kernel s₀ ∧
      (sysBrk exampleLayout proczero 8192).run (s₀.dispatch proczero) = .ok ret s' ∧
      HeapMapped s' proczero := by
  obtain ⟨kernel, s₀, hboot, run, running, top, can⟩ :=
    canGrow_after_boot exampleLayout (fun _ => Bytes.zero) (fun _ => 0) (by decide)
  obtain ⟨free₀, own₀, -⟩ := boot_ok hboot
  obtain ⟨free, own⟩ := own₀.run run
  change Owned _ (s₀.dispatch proczero) _ _ at own
  have done := (own.grow_iff (not_unused_of_running running) (by rw [top]; decide)).mpr can
  obtain ⟨ret, s', hr⟩ : ∃ ret s',
      (sysBrk exampleLayout proczero 8192).run (s₀.dispatch proczero) = .ok ret s' := by
    rcases done with ⟨s', hr, -⟩ | ⟨s', hr, -⟩ <;> exact ⟨_, _, hr⟩
  have call : Along (BrkCall exampleLayout proczero) (s₀.dispatch proczero)
      [((8192, ret), s')] := ⟨hr, trivial⟩
  have follows := heap_follows_top hboot run running
    ((heapMapped_boot hboot).dispatch proczero) call
  exact ⟨kernel, s₀, ret, s', hboot, hr, follows.1⟩

end Runs

end EasyXv6.Proc
