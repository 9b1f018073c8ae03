import EasyXv6.Lib.Budget
import EasyXv6.Mem.Uvm

set_option autoImplicit false

/-!
# How many pages a call takes, and that it stops for nothing else
-/
namespace EasyXv6.Mem
open Lib Radix

/-- `m` takes at most `n` pages. -/
abbrev Takes {α : Type} (n : ℕ) (m : Comp Pmem α) : Prop :=
  Comp.Spends Pmem.allocable "alloc pages not enough" n m

/-- `m` panics only when `pmem_alloc` has no page left. -/
abbrev OnlyPages {α : Type} (m : Comp Pmem α) (s : Pmem) : Prop :=
  Comp.HaltsOnly "alloc pages not enough" m s

section Takes

theorem takes_pmemAlloc : Takes 1 pmemAlloc := by
  intro s hs
  unfold pmemAlloc
  rw [Comp.bind_get_run, if_neg (Nat.ne_of_gt hs)]
  simp only [Comp.bind_modify_run, Comp.run_pure]
  omega

theorem takes_modify {f : Pmem → Pmem} (h : ∀ s, s.allocable ≤ (f s).allocable) :
    Takes 0 (.modify f) := .modify h

theorem takes_pmemFree (L : Layout) (p : ℕ) : Takes 0 (pmemFree L p) := by
  unfold pmemFree
  split
  · exact .halt (by decide)
  · exact takes_modify fun s => Nat.le_succ _

theorem takes_vmDescend (alloc : Bool) (b i : ℕ) : Takes alloc.toNat (vmDescend alloc b i) := by
  unfold vmDescend
  refine (Comp.Spends.bind (n := 0) (k := alloc.toNat) (.gets _) fun pte => ?_).mono
    (Nat.le_of_eq (Nat.zero_add _))
  split
  · exact (Comp.Spends.pure _).mono (Nat.zero_le _)
  cases alloc with
  | false => exact .pure _
  | true =>
    refine Comp.Spends.bind (n := 1) (k := 0) takes_pmemAlloc fun page => .ite (.pure _) ?_
    refine Comp.Spends.bind (n := 0) (k := 0) (takes_modify fun _ => Nat.le_refl _) fun _ => ?_
    exact Comp.Spends.bind (n := 0) (k := 0) (takes_modify fun _ => Nat.le_refl _) fun _ => .pure _

theorem takes_vmGetpte (r va : ℕ) (alloc : Bool) :
    Takes (2 * alloc.toNat) (vmGetpte r va alloc) := by
  unfold vmGetpte
  rw [Nat.two_mul]
  refine Comp.Spends.bind (takes_vmDescend alloc r _) fun o => ?_
  cases o with
  | none => exact (Comp.Spends.pure _).mono (Nat.zero_le _)
  | some t =>
    refine Comp.Spends.bind (k := 0) (takes_vmDescend alloc t _) fun o => ?_
    cases o <;> exact .pure _

theorem takes_vmMappage (r va pa perm : ℕ) : Takes 2 (vmMappage r va pa perm) := by
  unfold vmMappage
  refine Comp.Spends.bind (n := 2) (k := 0) (takes_vmGetpte r va true) fun o => ?_
  cases o with
  | none => exact .halt (by decide)
  | some b =>
    refine Comp.Spends.bind (n := 0) (k := 0) (.gets _) fun pte => ?_
    exact .ite (.halt (by decide)) (takes_modify fun _ => Nat.le_refl _)

theorem takes_vmMappages (r va pa len perm n : ℕ)
    (h : ((PG_ROUND_DOWN ((va + len - 1) % 2 ^ 64) + 2 ^ 64 - PG_ROUND_DOWN va) % 2 ^ 64 / PGSIZE + 1)
      * 2 ≤ n) : Takes n (vmMappages r va pa len perm) := by
  unfold vmMappages
  split
  · exact .halt (by decide)
  exact (Comp.Spends.forUpTo (fun k => takes_vmMappage r _ _ perm) _).mono h

theorem takes_vmMappages_page {va : ℕ} (r pa perm : ℕ) (hva : va % PGSIZE = 0)
    (hlt : va + PGSIZE ≤ 2 ^ 64) : Takes 2 (vmMappages r va pa PGSIZE perm) := by
  apply takes_vmMappages
  have h1 : PG_ROUND_DOWN va = va := by
    simp only [PG_ROUND_DOWN, PGSIZE] at hva ⊢
    omega
  have h2 : PG_ROUND_DOWN ((va + PGSIZE - 1) % 2 ^ 64) = va := by
    simp only [PG_ROUND_DOWN, PGSIZE] at hva hlt ⊢
    omega
  rw [h1, h2, Nat.add_sub_cancel_left]
  decide

theorem takes_vmUnmappages (L : Layout) (r va len : ℕ) (freeit : Bool) :
    Takes 0 (vmUnmappages L r va len freeit) := by
  unfold vmUnmappages
  split
  · exact .halt (by decide)
  apply Comp.Spends.forUpTo_free
  intro k
  unfold vmUnmappage
  refine Comp.Spends.bind (n := 0) (k := 0) (takes_vmGetpte r _ false) fun o => ?_
  cases o with
  | none => exact .halt (by decide)
  | some b =>
    refine Comp.Spends.bind (n := 0) (k := 0) (.gets _) fun pte => ?_
    refine .ite (.halt (by decide)) (.ite (.halt (by decide)) ?_)
    refine Comp.Spends.bind (n := 0) (k := 0) (.ite (takes_pmemFree L _) (.pure _)) fun _ => ?_
    exact takes_modify fun _ => Nat.le_refl _

theorem takes_uvmCopyPage {va : ℕ} (L : Layout) (old new : ℕ) (hva : va % PGSIZE = 0)
    (hlt : va + PGSIZE ≤ 2 ^ 64) : Takes 3 (uvmCopyPage L old new va) := by
  unfold uvmCopyPage
  refine Comp.Spends.bind (n := 0) (k := 3) (takes_vmGetpte old va false) fun o => ?_
  cases o with
  | none => exact .halt (by decide)
  | some b =>
    refine Comp.Spends.bind (n := 0) (k := 3) (.gets _) fun pte => .ite (.halt (by decide)) ?_
    refine Comp.Spends.bind (n := 1) (k := 2) takes_pmemAlloc fun mem => ?_
    refine Comp.Spends.bind (n := 0) (k := 2)
      (.ite (takes_vmUnmappages L new 0 _ true) (.pure _)) fun _ => ?_
    refine Comp.Spends.bind (n := 0) (k := 2) (.gets id) fun s => ?_
    refine Comp.Spends.bind (n := 0) (k := 2) (takes_modify fun _ => Nat.le_refl _) fun _ => ?_
    exact takes_vmMappages_page new mem _ hva hlt

theorem takes_destroyPgtbl (L : Layout) (d p : ℕ) : Takes 0 (destroyPgtbl L d p) := by
  induction d generalizing p with
  | zero =>
    unfold destroyPgtbl
    exact .ite (.pure _) (takes_pmemFree L p)
  | succ d ih =>
    by_cases hp : p = 0
    · unfold destroyPgtbl
      rw [if_pos hp]
      exact .pure _
    rw [destroyPgtbl_succ hp]
    generalize 512 = n
    refine Comp.Spends.bind (n := 0) (k := 0) ?_ fun _ => takes_pmemFree L p
    refine Comp.Spends.forUpTo_free (fun i => ?_) n
    exact Comp.Spends.bind (n := 0) (k := 0) (.gets _) fun pte => .ite (ih _) (.pure _)

theorem takes_uvmDestroyPgtbl (L : Layout) (r : ℕ) : Takes 0 (uvmDestroyPgtbl L r) := by
  unfold uvmDestroyPgtbl
  refine Comp.Spends.bind (n := 0) (k := 0) (takes_vmUnmappages L r _ _ false) fun _ => ?_
  refine Comp.Spends.bind (n := 0) (k := 0) (takes_vmUnmappages L r _ _ false) fun _ => ?_
  exact takes_destroyPgtbl L 3 r

end Takes

section Only

variable {L : Layout} {s s' : Pmem} {free : List ℕ} {r va pa perm q : ℕ}

theorem pmemAlloc_only (s : Pmem) : OnlyPages pmemAlloc s := by
  intro w t hw
  unfold pmemAlloc at hw
  rw [Comp.bind_get_run, Comp.run_ite] at hw
  split at hw <;> cases hw
  rfl

theorem vmDescend_only {b i : ℕ} (alloc : Bool) (s : Pmem) : OnlyPages (vmDescend alloc b i) s := by
  unfold vmDescend
  refine .gets ?_
  split
  · exact .of_ok (Comp.run_pure _ _)
  split
  · exact .of_ok (Comp.run_pure _ _)
  refine .bind (pmemAlloc_only s) fun page u _ => ?_
  split
  · exact .of_ok (Comp.run_pure _ _)
  · intro w v hw
    cases hw

theorem vmGetpte_only (alloc : Bool) (s : Pmem) : OnlyPages (vmGetpte r va alloc) s := by
  unfold vmGetpte
  refine .bind (vmDescend_only alloc s) fun o t _ => ?_
  cases o with
  | none => exact .of_ok (Comp.run_pure _ _)
  | some b =>
    refine .bind (vmDescend_only alloc t) fun o u _ => ?_
    cases o <;> exact .of_ok (Comp.run_pure _ _)

/-- `vm_mappages` of a page that is not mapped. -/
theorem vmMappage_only (sp : Space L s free r) (unmapped : isValid (pteAt L s.mem r va) = false) :
    OnlyPages (vmMappage r va pa perm) s := by
  unfold vmMappage
  refine .bind (vmGetpte_only true s) fun o t hget => ?_
  obtain ⟨free', b, rfl, -, -, ptes, hw, -⟩ := vmGetpte_alloc sp hget
  intro w u hr
  simp only [Comp.bind_gets_run, pte_eq_entry, Comp.run_ite] at hr
  rw [← TreeOk.pteAt_eq hw, ptes, unmapped] at hr
  cases hr

/-- A page is taken, filled and mapped where nothing is mapped. -/
theorem mapNew_only {s₁ : Pmem} {f : Page → Page} (sp : Space L s free r)
    (halloc : pmemAlloc.run s = .ok q s₁) (unmapped : pteAt L s.mem r va = 0)
    (hva : va % PGSIZE = 0) (hlt : va + PGSIZE ≤ 2 ^ 64) :
    OnlyPages (vmMappages r va q PGSIZE perm) (s₁.setPage q f) := by
  obtain ⟨rest, rfl, sp₁, hmem, hq, hrest, hnodes⟩ := sp.alloc halloc
  rw [← hmem] at hnodes
  obtain ⟨sp₂, -, -, ptes₂⟩ := sp₁.setPage hrest hnodes f
  intro w t hr
  rw [vmMappages_page hva hlt (Nat.lt_trans hq.2.2 (by decide))] at hr
  exact vmMappage_only sp₂ (by rw [ptes₂, hmem, unmapped]; rfl) w t hr

theorem uvmCopyPage_only {old new : ℕ} (sp : Space L s free new) (tree : TreeOk L s.mem old)
    (valid : isValid (pteAt L s.mem old va)) (unmapped : pteAt L s.mem new va = 0)
    (hva : va % PGSIZE = 0) (hlt : va + PGSIZE ≤ 2 ^ 64) :
    OnlyPages (uvmCopyPage L old new va) s := by
  unfold uvmCopyPage
  refine .bind (vmGetpte_only false s) fun o t hget => ?_
  rw [vmGetpte_find tree va] at hget
  cases hget
  cases hw : walk (child L s.mem) (path va) old with
  | none =>
    unfold pteAt at valid
    rw [hw, Option.elim_none] at valid
    cases valid
  | some b =>
    rw [TreeOk.pteAt_eq hw] at valid
    refine .gets ?_
    rw [pte_eq_entry, valid]
    refine .bind (pmemAlloc_only s) fun mem s₁ halloc => ?_
    obtain ⟨_, _, _, _, hrange, _⟩ := sp.alloc halloc
    rw [if_neg (Nat.ne_of_gt hrange.pos)]
    intro w v hr
    rw [Comp.bind_pure_run, Comp.bind_get_run, Comp.bind_modify_run] at hr
    exact mapNew_only sp halloc unmapped hva hlt w v hr

/-- An entry of the lowest level is taken out of the table. -/
theorem vmUnmappage_returns (sp : Space L s free r) (va : ℕ) (valid : isValid (pteAt L s.mem r va))
    (leaf : PTE_FLAGS (pteAt L s.mem r va) ≠ PTE_V) :
    ∃ s', (vmUnmappage L r va false).run s = .ok () s' := by
  unfold vmUnmappage
  rw [Comp.run_bind_of_ok (vmGetpte_find sp.tree va)]
  cases hw : walk (child L s.mem) (path va) r with
  | none =>
    unfold pteAt at valid
    rw [hw, Option.elim_none] at valid
    cases valid
  | some t =>
    rw [TreeOk.pteAt_eq hw] at valid leaf
    simp only [Option.map_some, Comp.bind_gets_run, pte_eq_entry, valid, Bool.not_true,
      Bool.false_eq_true, if_false, if_neg leaf]
    exact ⟨_, rfl⟩

end Only

end EasyXv6.Mem
