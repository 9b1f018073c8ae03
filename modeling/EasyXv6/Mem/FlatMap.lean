import EasyXv6.Mem.Room

set_option autoImplicit false

/-!
# A page table is a flat map

What the three levels stand for is a partial map from page numbers to a physical page number and
the flags. A range is mapped and unmapped page by page; on the map it is one step.
-/
namespace EasyXv6.Mem
open Lib Radix

section Abstract

/-- Page number to physical page number and flags. -/
abbrev FlatMap := ℕ → Option (ℕ × ℕ)

/-- The numbers of the pages that cover `[va, va + len)`. -/
def pagesOf (va len : ℕ) : Finset ℕ := (Finset.Ico va (va + len)).image (· / PGSIZE)

variable {va len v : ℕ}

theorem mem_pagesOf :
    v ∈ pagesOf va len ↔ 0 < len ∧ va / PGSIZE ≤ v ∧ v ≤ (va + len - 1) / PGSIZE := by
  simp only [pagesOf, Finset.mem_image, Finset.mem_Ico, PGSIZE]
  constructor
  · rintro ⟨a, ⟨hlo, hhi⟩, rfl⟩
    omega
  · rintro ⟨hlen, hlo, hhi⟩
    by_cases h : va / 4096 = v
    · exact ⟨va, by omega, h⟩
    · exact ⟨v * 4096, by omega, by omega⟩

namespace FlatMap

def empty : FlatMap := fun _ => none

def insert (M : FlatMap) (va pa len perm : ℕ) : FlatMap := fun v =>
  if v ∈ pagesOf va len then
    some ((pa / PGSIZE + (v - va / PGSIZE)) % 2 ^ 52, perm ||| PTE_V)
  else M v

def erase (M : FlatMap) (va len : ℕ) : FlatMap := fun v =>
  if v ∈ pagesOf va len then none else M v

/-- The address of the physical page, or 0. -/
def page (M : FlatMap) (v : ℕ) : ℕ := (M v).elim 0 (·.1 * PGSIZE)

end FlatMap

/-- The map of the table `r`: what `vm_getpte` finds for each page number of 27 bits. -/
def flatten (s : Pmem) (r : ℕ) : FlatMap := fun v =>
  if 2 ^ 27 ≤ v then
    none
  else
    match (vmGetpte r (v * PGSIZE) false).run s with
    | .ok (some (t, i)) s =>
      if isValid (s.pte t i) then some (PTE2PA (s.pte t i) / PGSIZE, PTE_FLAGS (s.pte t i)) else none
    | _ => none

end Abstract

variable {L : Layout} {s s' : Pmem} {free : List ℕ} {r va pa len perm v : ℕ}

theorem flatten_eq (ok : TreeOk L s.mem r) (hv : v < 2 ^ 27) :
    flatten s r v = if isValid (pteAt L s.mem r (v * PGSIZE)) then
      some (PTE2PA (pteAt L s.mem r (v * PGSIZE)) / PGSIZE, PTE_FLAGS (pteAt L s.mem r (v * PGSIZE)))
      else none := by
  unfold flatten
  rw [if_neg (Nat.not_le.mpr hv), vmGetpte_find ok]
  cases hw : walk (child L s.mem) (path (v * PGSIZE)) r with
  | none =>
    have h0 : pteAt L s.mem r (v * PGSIZE) = 0 := by
      rw [pteAt, hw, Option.elim_none]
    rw [h0]
    rfl
  | some t =>
    rw [TreeOk.pteAt_eq hw]
    rfl

theorem flatten_of_le (hv : 2 ^ 27 ≤ v) : flatten s r v = none := if_pos hv

theorem flatten_congr (ok : TreeOk L s.mem r) (ok' : TreeOk L s'.mem r)
    (h : ∀ v < 2 ^ 27, pteAt L s'.mem r (v * PGSIZE) = pteAt L s.mem r (v * PGSIZE)) :
    flatten s' r = flatten s r := by
  funext v
  by_cases hv : v < 2 ^ 27
  · rw [flatten_eq ok' hv, flatten_eq ok hv, h v hv]
  · rw [flatten_of_le (Nat.not_lt.mp hv), flatten_of_le (Nat.not_lt.mp hv)]

theorem flatten_ne_none (ok : TreeOk L s.mem r) (hv : v < 2 ^ 27) :
    flatten s r v ≠ none ↔ isValid (pteAt L s.mem r (v * PGSIZE)) := by
  rw [flatten_eq ok hv]
  split <;> simp_all

/-- Page numbers of 27 bits tell entries apart. -/
theorem sameEntry_page {w : ℕ} (hw : w < 2 ^ 27) (hv : v < 2 ^ 27) :
    SameEntry (w * PGSIZE) (v * PGSIZE) ↔ w = v := by
  simp only [PGSIZE]
  rw [sameEntry_iff (by omega) (by omega)]
  simp only [PGSIZE]
  omega

section Map

/-- `vm_mappages` has mapped the first `k` pages of its range. -/
structure MappedTo (L : Layout) (s : Pmem) (r lo pa perm k : ℕ) (t : Pmem) : Prop where
  space : ∃ free, Space L t free r
  ptes : ∀ v < 2 ^ 27, pteAt L t.mem r (v * PGSIZE) =
    if lo ≤ v ∧ v < lo + k then leafPte ((pa + (v - lo) * PGSIZE) % 2 ^ 64) perm
    else pteAt L s.mem r (v * PGSIZE)

/-- The body of the loop of `vm_mappages` in page numbers. -/
def mapRound (r lo pa perm k : ℕ) : Comp Pmem Unit :=
  vmMappage r ((lo + k) * PGSIZE) ((pa + k * PGSIZE) % 2 ^ 64) perm

theorem vmMappages_rounds (hlen : len ≠ 0) (hlt : va + len ≤ 2 ^ 39) :
    vmMappages r va pa len perm =
      .forUpTo ((va + len - 1) / PGSIZE - va / PGSIZE + 1) (mapRound r (va / PGSIZE) pa perm) := by
  have count : (PG_ROUND_DOWN ((va + len - 1) % 2 ^ 64) + 2 ^ 64 - PG_ROUND_DOWN va) % 2 ^ 64 / PGSIZE
      = (va + len - 1) / PGSIZE - va / PGSIZE := by
    simp only [PG_ROUND_DOWN, PGSIZE]
    omega
  unfold vmMappages
  rw [if_neg hlen]
  dsimp only
  rw [count]
  apply Comp.forUpTo_congr
  intro k hk
  have addr : (PG_ROUND_DOWN va + k * PGSIZE) % 2 ^ 64 = (va / PGSIZE + k) * PGSIZE := by
    simp only [PG_ROUND_DOWN, PGSIZE] at hk ⊢
    omega
  rw [mapRound, addr]

theorem MappedTo.step {lo k : ℕ} {t u : Pmem} (h : MappedTo L s r lo pa perm k t)
    (hperm : perm < 2 ^ 10) (hk : lo + k < 2 ^ 27) (hr : (mapRound r lo pa perm k).run t = .ok () u) :
    MappedTo L s r lo pa perm (k + 1) u ∧ pteAt L s.mem r ((lo + k) * PGSIZE) = 0 := by
  obtain ⟨free, sp⟩ := h.space
  obtain ⟨free', re, unmapped, -, ptes, -⟩ := vmMappage_ok sp hperm (Nat.mod_lt _ (by decide)) hr
  refine ⟨⟨⟨free', re.space⟩, ?_⟩, ?_⟩
  · intro v hv
    rw [ptes, h.ptes v hv]
    by_cases heq : lo + k = v
    · subst heq
      rw [if_pos ⟨rfl, rfl⟩, if_pos (by omega), Nat.add_sub_cancel_left]
    · rw [if_neg (fun h => heq ((sameEntry_page hk hv).mp h))]
      by_cases hin : lo ≤ v ∧ v < lo + k
      · rw [if_pos hin, if_pos (by omega)]
      · rw [if_neg hin, if_neg (by omega)]
  · rw [h.ptes _ hk, if_neg (by omega)] at unmapped
    exact unmapped

theorem Space.mappedTo (sp : Space L s free r) (lo pa perm : ℕ) : MappedTo L s r lo pa perm 0 s where
  space := ⟨free, sp⟩
  ptes v _ := by rw [if_neg (by omega)]

theorem vmMappages_flat (sp : Space L s free r) (hva : va < MAXVA) (hlen : len ≤ 2 ^ 27)
    (hperm : perm < 2 ^ 10)
    (hr : (vmMappages r va pa len perm).run s = .ok () s') :
    (∃ free', Space L s' free' r) ∧ flatten s' r = (flatten s r).insert va pa len perm ∧
      ∀ v ∈ pagesOf va len, flatten s r v = none := by
  by_cases h0 : len = 0
  · unfold vmMappages at hr
    rw [if_pos h0] at hr
    cases hr
  have bound : (va + len - 1) / PGSIZE < 2 ^ 27 := by
    simp only [PGSIZE, MAXVA] at hva ⊢
    omega
  have low : va / PGSIZE ≤ (va + len - 1) / PGSIZE := Nat.div_le_div_right (by omega)
  rw [vmMappages_rounds h0 (by simp only [MAXVA] at hva; omega)] at hr
  have done := Comp.forUpTo_ok
    (fun k t => MappedTo L s r (va / PGSIZE) pa perm k t ∧
      ∀ j < k, pteAt L s.mem r ((va / PGSIZE + j) * PGSIZE) = 0)
    ⟨sp.mappedTo _ _ _, fun j hj => absurd hj (Nat.not_lt_zero j)⟩ (by
      intro k hk t u h hu
      obtain ⟨mapped, free0⟩ := h.1.step hperm (by omega) hu
      refine ⟨mapped, ?_⟩
      intro j hj
      rcases Nat.lt_succ_iff_lt_or_eq.mp hj with hj | rfl
      · exact h.2 j hj
      · exact free0) hr
  obtain ⟨⟨⟨free', sp'⟩, ptes⟩, unmapped⟩ := done
  have mem : ∀ v, v ∈ pagesOf va len ↔
      va / PGSIZE ≤ v ∧ v < va / PGSIZE + ((va + len - 1) / PGSIZE - va / PGSIZE + 1) := by
    intro v
    rw [mem_pagesOf]
    omega
  refine ⟨⟨free', sp'⟩, ?_, ?_⟩
  · funext v
    unfold FlatMap.insert
    by_cases hv : v < 2 ^ 27
    · rw [flatten_eq sp'.tree hv, ptes v hv]
      by_cases hin : v ∈ pagesOf va len
      · have phys : PTE2PA (leafPte ((pa + (v - va / PGSIZE) * PGSIZE) % 2 ^ 64) perm) / PGSIZE =
            (pa / PGSIZE + (v - va / PGSIZE)) % 2 ^ 52 := by
          rw [leafPte_low, pa2pte_or (or_valid_lt hperm), PTE2PA]
          have := or_valid_lt hperm
          simp only [PGSIZE]
          omega
        rw [if_pos ((mem v).mp hin), if_pos (isValid_leafPte _ _), if_pos hin, phys,
          pte_flags_leafPte hperm]
      · rw [if_neg (fun h => hin ((mem v).mpr h)), if_neg hin, flatten_eq sp.tree hv]
    · rw [flatten_of_le (Nat.not_lt.mp hv), flatten_of_le (Nat.not_lt.mp hv), if_neg]
      rw [mem]
      omega
  · intro v hv
    obtain ⟨hlo, hhi⟩ := (mem v).mp hv
    have h := unmapped (v - va / PGSIZE) (by omega)
    rw [Nat.add_sub_cancel' hlo] at h
    rw [flatten_eq sp.tree (by omega), h]
    rfl

theorem vmMappages_halt {w : String} (sp : Space L s free r) (hva : va < MAXVA)
    (hlen : len ≤ 2 ^ 27) (hperm : perm < 2 ^ 10) (h0 : len ≠ 0)
    (hr : (vmMappages r va pa len perm).run s = .halt w s') :
    w = "alloc pages not enough" ∨ ∃ v ∈ pagesOf va len, flatten s r v ≠ none := by
  have bound : (va + len - 1) / PGSIZE < 2 ^ 27 := by
    simp only [PGSIZE, MAXVA] at hva ⊢
    omega
  have low : va / PGSIZE ≤ (va + len - 1) / PGSIZE := Nat.div_le_div_right (by omega)
  rw [vmMappages_rounds h0 (by simp only [MAXVA] at hva; omega), Comp.forUpTo_halt_iff] at hr
  obtain ⟨k, hk, t, prefix_ok, hr⟩ := hr
  have before := Comp.forUpTo_ok (MappedTo L s r (va / PGSIZE) pa perm) (sp.mappedTo _ _ _)
    (fun j hj t u h hu => (h.step hperm (by omega) hu).1) prefix_ok
  obtain ⟨free', sp'⟩ := before.space
  by_cases valid : isValid (pteAt L t.mem r ((va / PGSIZE + k) * PGSIZE))
  swap
  · exact Or.inl (vmMappage_only sp' (by simpa using valid) _ _ hr)
  · right
    rw [before.ptes _ (by omega), if_neg (by omega)] at valid
    exact ⟨va / PGSIZE + k, mem_pagesOf.mpr ⟨by omega, by omega, by omega⟩,
      (flatten_ne_none sp.tree (by omega)).mpr valid⟩

end Map

section Unmap

/-- The pages that a call gives back to the allocator are in use nowhere else. -/
structure Releases (L : Layout) (s : Pmem) (r va len : ℕ) : Prop where
  notFree : ∀ free, FreeList L s free → ∀ v ∈ pagesOf va len, (flatten s r).page v ∉ free
  notNode : ∀ v ∈ pagesOf va len, (flatten s r).page v ∉ tableNodes L s.mem r
  once : ∀ v ∈ pagesOf va len, ∀ w ∈ pagesOf va len,
    (flatten s r).page v = (flatten s r).page w → v = w

theorem page_flatten (ok : TreeOk L s.mem r) (hv : v < 2 ^ 27)
    (valid : isValid (pteAt L s.mem r (v * PGSIZE))) :
    (flatten s r).page v = PTE2PA (pteAt L s.mem r (v * PGSIZE)) := by
  rw [FlatMap.page, flatten_eq ok hv, if_pos valid]
  simp only [Option.elim_some, PTE2PA, PGSIZE]
  omega

/-- `vm_unmappages` has unmapped the first `k` pages of its range. -/
structure UnmappedTo (L : Layout) (s : Pmem) (free : List ℕ) (r lo k : ℕ) (t : Pmem) : Prop where
  space : ∃ free', Space L t free' r ∧
    ∀ q ∈ free', q ∈ free ∨ ∃ j < k, q = PTE2PA (pteAt L s.mem r ((lo + j) * PGSIZE))
  nodes : tableNodes L t.mem r = tableNodes L s.mem r
  valid : ∀ j < k, isValid (pteAt L s.mem r ((lo + j) * PGSIZE))
  ptes : ∀ v < 2 ^ 27, pteAt L t.mem r (v * PGSIZE) =
    if lo ≤ v ∧ v < lo + k then 0 else pteAt L s.mem r (v * PGSIZE)

theorem vmUnmappages_rounds {freeit : Bool} (hva : va % PGSIZE = 0) (hlt : va < MAXVA)
    (hlen : len ≤ 2 ^ 27) :
    vmUnmappages L r va len freeit = .forUpTo ((len + PGSIZE - 1) / PGSIZE) fun k =>
      vmUnmappage L r ((va / PGSIZE + k) * PGSIZE) freeit := by
  have hround : PG_ROUND_UP len = (len + PGSIZE - 1) / PGSIZE * PGSIZE := by
    simp only [PG_ROUND_UP, PGSIZE]
    omega
  have small : PG_ROUND_UP len ≤ 2 ^ 27 := by
    rw [hround]
    simp only [PGSIZE]
    omega
  have hb : Int.bmod (PG_ROUND_UP len) (2 ^ 32) = PG_ROUND_UP len := by
    generalize PG_ROUND_UP len = n at small
    rw [Int.bmod_eq_of_le] <;> omega
  have hi : ((va + Int.bmod (PG_ROUND_UP len) (2 ^ 32)) % 2 ^ 64).toNat = va + PG_ROUND_UP len := by
    rw [hb, ← Nat.cast_add, Int.emod_eq_of_lt (Int.natCast_nonneg _), Int.toNat_natCast]
    generalize PG_ROUND_UP len = n at small
    simp only [MAXVA] at hlt
    omega
  have count : rounds va ((va + Int.bmod (PG_ROUND_UP len) (2 ^ 32)) % 2 ^ 64).toNat =
      (len + PGSIZE - 1) / PGSIZE := by
    rw [hi, rounds, Nat.add_sub_cancel_left, hround]
    simp only [PGSIZE]
    omega
  unfold vmUnmappages
  rw [if_neg (not_not.mpr hva)]
  dsimp only
  rw [count]
  apply Comp.forUpTo_congr
  intro k hk
  have addr : va + k * PGSIZE = (va / PGSIZE + k) * PGSIZE := by
    simp only [PGSIZE] at hva ⊢
    omega
  rw [addr]

theorem UnmappedTo.step {freeit : Bool} {lo k : ℕ} {t u : Pmem} (ok : TreeOk L s.mem r)
    (list : FreeList L s free) (h : UnmappedTo L s free r lo k t) (hk : lo + k < 2 ^ 27)
    (range : ∀ j ≤ k, lo + j ∈ pagesOf va len) (rel : freeit = true → Releases L s r va len)
    (hr : (vmUnmappage L r ((lo + k) * PGSIZE) freeit).run t = .ok () u) :
    UnmappedTo L s free r lo (k + 1) u := by
  obtain ⟨free', sp, freed⟩ := h.space
  have here : pteAt L t.mem r ((lo + k) * PGSIZE) = pteAt L s.mem r ((lo + k) * PGSIZE) := by
    rw [h.ptes _ hk, if_neg (by omega)]
  have finish : isValid (pteAt L s.mem r ((lo + k) * PGSIZE)) →
      (∀ va', pteAt L u.mem r va' =
        if SameEntry ((lo + k) * PGSIZE) va' then 0 else pteAt L t.mem r va') →
      tableNodes L u.mem r = tableNodes L t.mem r →
      (∃ free', Space L u free' r ∧
        ∀ q ∈ free', q ∈ free ∨ ∃ j < k + 1, q = PTE2PA (pteAt L s.mem r ((lo + j) * PGSIZE))) →
      UnmappedTo L s free r lo (k + 1) u := by
    intro valid ptes nodes space
    refine ⟨space, nodes.trans h.nodes, ?_, ?_⟩
    · intro j hj
      rcases Nat.lt_succ_iff_lt_or_eq.mp hj with hj | rfl
      · exact h.valid j hj
      · exact valid
    · intro v hv
      rw [ptes, h.ptes v hv]
      by_cases heq : lo + k = v
      · subst heq
        rw [if_pos ⟨rfl, rfl⟩, if_pos (by omega)]
      · rw [if_neg (fun h => heq ((sameEntry_page hk hv).mp h))]
        by_cases hin : lo ≤ v ∧ v < lo + k
        · rw [if_pos hin, if_pos (by omega)]
        · rw [if_neg hin, if_neg (by omega)]
  cases freeit with
  | false =>
    obtain ⟨re, valid, -, ptes⟩ := vmUnmappage_keep sp hr
    rw [here] at valid
    refine finish valid ptes ?_ ⟨free', re.space, ?_⟩
    · have pages := re.pages
      exact add_left_cancel pages
    · intro q hq
      rcases freed q hq with hq | ⟨j, hj, rfl⟩
      · exact Or.inl hq
      · exact Or.inr ⟨j, Nat.lt_succ_of_lt hj, rfl⟩
  | true =>
    have rel := rel rfl
    obtain ⟨-, -, -, valid, -, -⟩ := vmUnmappage_ok sp hr
    rw [here] at valid
    have page := page_flatten ok hk valid
    have hf : PTE2PA (pteAt L t.mem r ((lo + k) * PGSIZE)) ∉ free' := by
      rw [here, ← page]
      intro hq
      rcases freed _ hq with hq | ⟨j, hj, heq⟩
      · exact rel.notFree free list _ (range k (Nat.le_refl k)) hq
      · rw [← page_flatten ok (by omega) (h.valid j hj)] at heq
        have := rel.once _ (range k (Nat.le_refl k)) _ (range j (by omega)) heq
        omega
    have hn : PTE2PA (pteAt L t.mem r ((lo + k) * PGSIZE)) ∉ tableNodes L t.mem r := by
      rw [here, ← page, h.nodes]
      exact rel.notNode _ (range k (Nat.le_refl k))
    obtain ⟨sp', nodes, -, -, -, ptes⟩ := vmUnmappage_push sp hf hn hr
    refine finish valid ptes nodes ⟨_, sp', ?_⟩
    intro q hq
    rcases List.mem_cons.mp hq with rfl | hq
    · exact Or.inr ⟨k, Nat.lt_succ_self k, by rw [here]⟩
    · rcases freed q hq with hq | ⟨j, hj, rfl⟩
      · exact Or.inl hq
      · exact Or.inr ⟨j, Nat.lt_succ_of_lt hj, rfl⟩

theorem vmUnmappages_flat {freeit : Bool} (sp : Space L s free r) (hva : va < MAXVA)
    (hlen : len ≤ 2 ^ 27) (rel : freeit = true → Releases L s r va len)
    (hr : (vmUnmappages L r va len freeit).run s = .ok () s') :
    (∃ free', Space L s' free' r) ∧ flatten s' r = (flatten s r).erase va len := by
  by_cases aligned : va % PGSIZE = 0
  swap
  · unfold vmUnmappages at hr
    rw [if_pos aligned] at hr
    cases hr
  rw [vmUnmappages_rounds aligned hva hlen] at hr
  have mem : ∀ v, v ∈ pagesOf va len ↔
      va / PGSIZE ≤ v ∧ v < va / PGSIZE + (len + PGSIZE - 1) / PGSIZE := by
    intro v
    rw [mem_pagesOf]
    simp only [PGSIZE] at aligned ⊢
    omega
  have bound : va / PGSIZE + (len + PGSIZE - 1) / PGSIZE ≤ 2 ^ 27 := by
    simp only [PGSIZE, MAXVA] at hva ⊢
    omega
  have done := Comp.forUpTo_ok (UnmappedTo L s free r (va / PGSIZE))
    ⟨⟨free, sp, fun q hq => Or.inl hq⟩, rfl, fun j hj => absurd hj (Nat.not_lt_zero j),
      fun v _ => by rw [if_neg (by omega)]⟩
    (fun k hk t u h hu => h.step sp.tree sp.list (by omega)
      (fun j hj => (mem _).mpr ⟨by omega, by omega⟩) rel hu) hr
  obtain ⟨free', sp', -⟩ := done.space
  refine ⟨⟨free', sp'⟩, ?_⟩
  funext v
  unfold FlatMap.erase
  by_cases hv : v < 2 ^ 27
  · rw [flatten_eq sp'.tree hv, done.ptes v hv]
    by_cases hin : v ∈ pagesOf va len
    · rw [if_pos ((mem v).mp hin), if_pos hin]
      rfl
    · rw [if_neg (fun h => hin ((mem v).mpr h)), if_neg hin, flatten_eq sp.tree hv]
  · rw [flatten_of_le (Nat.not_lt.mp hv), flatten_of_le (Nat.not_lt.mp hv), ite_self]

end Unmap

section Built

/-- A table built from an empty root: its memory, and the map that the calls have made. Between two
    calls anybody may use the memory that is not the table's. -/
inductive Built (L : Layout) (r : ℕ) : Pmem → FlatMap → Prop
  | root {s : Pmem} {free : List ℕ} (list : FreeList L s free) (nodup : (r :: free).Nodup)
      (zero : s.mem r = Bytes.zero) : Built L r s .empty
  | map {s s' : Pmem} {M : FlatMap} {va pa len perm : ℕ} (h : Built L r s M) (hva : va < MAXVA)
      (hlen : len ≤ 2 ^ 27) (hperm : perm < 2 ^ 10)
      (run : (vmMappages r va pa len perm).run s = .ok () s') :
      Built L r s' (M.insert va pa len perm)
  | unmap {s s' : Pmem} {M : FlatMap} {va len : ℕ} {freeit : Bool} (h : Built L r s M)
      (hva : va < MAXVA) (hlen : len ≤ 2 ^ 27) (rel : freeit = true → Releases L s r va len)
      (run : (vmUnmappages L r va len freeit).run s = .ok () s') : Built L r s' (M.erase va len)
  | other {s s' : Pmem} {M : FlatMap} {free : List ℕ} (h : Built L r s M)
      (same : ∀ q ∈ tableNodes L s.mem r, s'.mem q = s.mem q) (list : FreeList L s' free)
      (nodup : free.Nodup) (apart : ∀ q ∈ free, q ∉ tableNodes L s.mem r) : Built L r s' M

variable {M : FlatMap}

theorem Built.space (h : Built L r s M) : (∃ free, Space L s free r) ∧ flatten s r = M := by
  induction h with
  | @root s free list nodup zero =>
    obtain ⟨tree, nodes, -, ptes⟩ := TreeOk.empty (L := L) zero
    refine ⟨⟨free, list, tree, ?_⟩, ?_⟩
    · rw [nodes, add_comm, Multiset.singleton_add]
      exact Multiset.coe_nodup.mpr nodup
    · funext v
      by_cases hv : v < 2 ^ 27
      · rw [flatten_eq tree hv, ptes]
        rfl
      · exact flatten_of_le (Nat.not_lt.mp hv)
  | map _ hva hlen hperm run ih =>
    obtain ⟨⟨free, sp⟩, rfl⟩ := ih
    obtain ⟨sp', eq, -⟩ := vmMappages_flat sp hva hlen hperm run
    exact ⟨sp', eq⟩
  | unmap _ hva hlen rel run ih =>
    obtain ⟨⟨free, sp⟩, rfl⟩ := ih
    exact vmUnmappages_flat sp hva hlen rel run
  | @other s s' M free _ same list nodup apart ih =>
    obtain ⟨⟨_, sp⟩, rfl⟩ := ih
    obtain ⟨tree, nodes, -⟩ := sp.tree.of_same same
    refine ⟨⟨free, list, tree, ?_⟩, ?_⟩
    · rw [nodes]
      refine Multiset.nodup_add.mpr ⟨Multiset.coe_nodup.mpr nodup, sp.tree.nodup, ?_⟩
      exact Multiset.disjoint_left.mpr fun hq => apart _ (Multiset.mem_coe.mp hq)
    · exact flatten_congr sp.tree tree fun v _ => pteAt_of_same same

theorem flatten_finite (s : Pmem) (r : ℕ) : {v | flatten s r v ≠ none}.Finite := by
  refine (Set.finite_lt_nat (2 ^ 27)).subset ?_
  intro v hv
  by_contra h
  exact hv (flatten_of_le (Nat.not_lt.mp h))

/-- What `vm_getpa` returns for the page `v`. -/
def FlatMap.userPage (M : FlatMap) (v : ℕ) : ℕ :=
  match M v with
  | some (ppn, flags) => if isUser flags then ppn * PGSIZE else 0
  | none => 0

theorem vmGetpa_flat (ok : TreeOk L s.mem r) (va : ℕ) :
    (vmGetpa r va).run s =
      .ok (if va < MAXVA then (flatten s r).userPage (va / PGSIZE) else 0) s := by
  by_cases hva : va < MAXVA
  swap
  · unfold vmGetpa
    rw [if_pos (Nat.not_lt.mp hva), if_neg hva]
    rfl
  have hv : va / PGSIZE < 2 ^ 27 := by
    simp only [MAXVA, PGSIZE] at hva ⊢
    omega
  have same : SameEntry va (va / PGSIZE * PGSIZE) := by
    simp only [MAXVA, PGSIZE] at hva ⊢
    rw [sameEntry_iff (by omega) (by omega)]
    simp only [PGSIZE]
    omega
  rw [if_pos hva, vmGetpa_find ok, if_neg (Nat.not_le.mpr hva), FlatMap.userPage,
    flatten_eq ok hv, ← same.pteAt_eq]
  generalize pteAt L s.mem r va = pte
  have user : isUser (PTE_FLAGS pte) = isUser pte := isUser_mod (by
    rw [PTE_FLAGS]
    omega)
  have page : PTE2PA pte / PGSIZE * PGSIZE = PTE2PA pte := by
    simp only [PTE2PA, PGSIZE]
    omega
  cases isValid pte with
  | false => rfl
  | true =>
    simp only [↓reduceIte, user, page]
    cases isUser pte <;> rfl

/-- A table built by any sequence of calls is the map that they have made. A call of `vm_mappages`
    for which `pmem_alloc` has pages enough stops exactly on the empty range and on a range with a
    page in use. -/
theorem vm_is_flat_map (h : Built L r s M) :
    {v | M v ≠ none}.Finite ∧ flatten s r = M ∧
      (∀ va pa len perm, va < MAXVA → len ≤ 2 ^ 27 → perm < 2 ^ 10 →
        (∀ t, (vmMappages r va pa len perm).run s ≠ .halt "alloc pages not enough" t) →
        ((∃ w t, (vmMappages r va pa len perm).run s = .halt w t) ↔
          len = 0 ∨ ∃ v ∈ pagesOf va len, M v ≠ none)) ∧
      ∀ va, (vmGetpa r va).run s =
        .ok (if va < MAXVA then M.userPage (va / PGSIZE) else 0) s := by
  obtain ⟨⟨free, sp⟩, rfl⟩ := h.space
  refine ⟨flatten_finite s r, rfl, ?_, vmGetpa_flat sp.tree⟩
  intro va pa len perm hva hlen hperm room
  constructor
  · rintro ⟨w, t, hr⟩
    by_cases h0 : len = 0
    · exact Or.inl h0
    · right
      rcases vmMappages_halt sp hva hlen hperm h0 hr with rfl | used
      · exact absurd hr (room t)
      · exact used
  · intro bad
    cases hr : (vmMappages r va pa len perm).run s with
    | halt w t => exact ⟨w, t, rfl⟩
    | ok u t =>
      exfalso
      rcases bad with rfl | ⟨v, hv, used⟩
      · cases hr
      · obtain ⟨-, -, unused⟩ := vmMappages_flat sp hva hlen hperm hr
        exact used (unused v hv)

section Example

/-- A machine with two free pages. -/
def twoPages : Pmem where
  mem q := if q = 0x87ffe000 then Bytes.zero.putNum 0 8 0x87fff000 else Bytes.zero
  next := 0x87ffe000
  allocable := 2

theorem twoPages_mem (q : ℕ) : twoPages.mem q =
    if q = 0x87ffe000 then Bytes.zero.putNum 0 8 0x87fff000 else Bytes.zero := rfl

theorem twoPages_list : FreeList exampleLayout twoPages [0x87ffe000, 0x87fff000] where
  linked := by
    have first : Pmem.nextOf (twoPages.mem 0x87ffe000) = 0x87fff000 := by
      have self : twoPages.mem 0x87ffe000 = Bytes.zero.putNum 0 8 0x87fff000 := by
        rw [twoPages_mem, if_pos rfl]
      rw [self, Pmem.nextOf]
      exact (Bytes.num_putNum_self _ _ _ _ (by decide)).trans (Nat.mod_eq_of_lt (by decide))
    have second : Pmem.nextOf (twoPages.mem 0x87fff000) = 0 := by
      have other : twoPages.mem 0x87fff000 = Bytes.zero := by
        rw [twoPages_mem, if_neg (by decide)]
      rw [other]
      exact Bytes.num_zero _ _
    refine ⟨rfl, ?_⟩
    rw [first]
    exact ⟨rfl, second⟩
  allocable := rfl
  range := by decide

theorem twoPages_built : Built exampleLayout 0x87ffd000 twoPages .empty :=
  .root twoPages_list (by decide) (by rw [twoPages_mem, if_neg (by decide)])

theorem twoPages_mapped : ∃ s, Built exampleLayout 0x87ffd000 s
    (FlatMap.empty.insert 0x1000 0x80000000 PGSIZE (PTE_R ||| PTE_U)) := by
  obtain ⟨⟨free, sp⟩, flat⟩ := twoPages_built.space
  have only : OnlyPages (vmMappages 0x87ffd000 0x1000 0x80000000 PGSIZE (PTE_R ||| PTE_U))
      twoPages := by
    intro w t hr
    rcases vmMappages_halt sp (by decide) (by decide) (by decide) (by decide) hr with
      hw | ⟨v, -, used⟩
    · exact hw
    · rw [flat] at used
      exact absurd rfl used
  obtain ⟨_, s, hr, -⟩ := only.returns (takes_vmMappages _ _ _ _ _ 2 (by decide)) (by decide)
  exact ⟨s, .map twoPages_built (by decide) (by decide) (by decide) hr⟩

/-- The page that has been mapped is found, and is not mapped again. -/
theorem vm_is_flat_map_twoPages : ∃ s,
    (vmGetpa 0x87ffd000 0x1234).run s = .ok 0x80000000 s ∧
      ∀ t, (vmMappages 0x87ffd000 0xfff 0x80001000 2 PTE_R).run s ≠ .ok () t := by
  obtain ⟨s, built⟩ := twoPages_mapped
  obtain ⟨-, -, panics, getpa⟩ := vm_is_flat_map built
  have here : 1 ∈ pagesOf 0x1000 PGSIZE := mem_pagesOf.mpr (by decide)
  have entry : FlatMap.empty.insert 0x1000 0x80000000 PGSIZE (PTE_R ||| PTE_U) 1 =
      some (0x80000, 19) := by
    rw [FlatMap.insert, if_pos here]
    rfl
  refine ⟨s, ?_, ?_⟩
  · have page : 0x1234 / PGSIZE = 1 := by decide
    rw [getpa, if_pos (by decide), page, FlatMap.userPage, entry]
    rfl
  · intro t hr
    obtain ⟨w, u, hr'⟩ := (panics 0xfff 0x80001000 2 PTE_R (by decide) (by decide) (by decide)
      (by rw [hr]; simp)).mpr (Or.inr ⟨1, mem_pagesOf.mpr (by decide), by rw [entry]; simp⟩)
    rw [hr] at hr'
    cases hr'

/-- The empty range is refused although it has no page at all. -/
theorem vmMappages_empty_range : ¬ ∀ (L : Layout) (r : ℕ) (s : Pmem) (M : FlatMap), Built L r s M →
    ∀ va pa len perm, va < MAXVA → len ≤ 2 ^ 27 → perm < 2 ^ 10 →
      (∀ t, (vmMappages r va pa len perm).run s ≠ .halt "alloc pages not enough" t) →
      ((∃ w t, (vmMappages r va pa len perm).run s = .halt w t) ↔
        ∃ v ∈ pagesOf va len, M v ≠ none) := by
  intro h
  have h := h _ _ _ _ twoPages_built 0 0 0 PTE_R (by decide) (by decide) (by decide)
    (fun t hr => by simp [vmMappages] at hr)
  obtain ⟨v, hv, -⟩ := h.mp ⟨_, _, rfl⟩
  simp [pagesOf] at hv

end Example

end Built

end EasyXv6.Mem
