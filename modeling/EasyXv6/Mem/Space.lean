import EasyXv6.Mem.Table

set_option autoImplicit false

/-!
# A page table and the free list
-/
namespace EasyXv6.Mem
open Lib Radix

variable {L : Layout} {s s' s'' : Pmem} {free free' free'' : List ℕ} {r b i va pa perm q : ℕ}

structure Space (L : Layout) (s : Pmem) (free : List ℕ) (r : ℕ) : Prop where
  list : FreeList L s free
  tree : TreeOk L s.mem r
  apart : ((free : Multiset ℕ) + tableNodes L s.mem r).Nodup

/-- Pages pass between the free list and the nodes of the table, and no other page is written. -/
structure Reshape (L : Layout) (r : ℕ) (s : Pmem) (free : List ℕ) (s' : Pmem) (free' : List ℕ) :
    Prop where
  space : Space L s' free' r
  pages : (free' : Multiset ℕ) + tableNodes L s'.mem r = free + tableNodes L s.mem r
  frame : ∀ q, q ∉ free → q ∉ tableNodes L s.mem r → s'.mem q = s.mem q

theorem Reshape.refl (sp : Space L s free r) : Reshape L r s free s free :=
  ⟨sp, rfl, fun _ _ _ => rfl⟩

theorem Reshape.outside (h : Reshape L r s free s' free') (hf : q ∉ free)
    (hn : q ∉ tableNodes L s.mem r) : q ∉ free' ∧ q ∉ tableNodes L s'.mem r := by
  have out : q ∉ (free' : Multiset ℕ) + tableNodes L s'.mem r := by
    rw [h.pages, Multiset.mem_add]
    exact not_or.mpr ⟨hf, hn⟩
  rw [Multiset.mem_add] at out
  exact ⟨fun hq => out (Or.inl hq), fun hq => out (Or.inr hq)⟩

theorem Reshape.trans (h : Reshape L r s free s' free') (h' : Reshape L r s' free' s'' free'') :
    Reshape L r s free s'' free'' where
  space := h'.space
  pages := h'.pages.trans h.pages
  frame := by
    intro q hf hn
    obtain ⟨hf', hn'⟩ := h.outside hf hn
    rw [h'.frame q hf' hn', h.frame q hf hn]

theorem Space.notMem (sp : Space L s free r) (hb : b ∈ tableNodes L s.mem r) : b ∉ free := by
  intro h
  exact Multiset.disjoint_left.mp (Multiset.nodup_add.mp sp.apart).2.2 (Multiset.mem_coe.mpr h) hb

theorem Space.nodup (sp : Space L s free r) : free.Nodup :=
  Multiset.coe_nodup.mp (Multiset.nodup_add.mp sp.apart).1

theorem pte_eq_entry (s : Pmem) (p i : ℕ) : s.pte p i = entry s.mem p i := rfl

section Getpte

variable {is : List ℕ}

theorem TreeOk.child_of_valid (ok : TreeOk L s.mem r) (hw : walk (child L s.mem) is r = some b)
    (his : ∀ j ∈ is, j < 512) (len : is.length < 2) (hi : i < 512)
    (h : isValid (entry s.mem b i)) : child L s.mem b i = some (PTE2PA (entry s.mem b i)) := by
  apply ok.inner is b his len hw i hi
  intro h0
  rw [h0] at h
  cases h

theorem vmDescend_find (ok : TreeOk L s.mem r) (hw : walk (child L s.mem) is r = some b)
    (his : ∀ j ∈ is, j < 512) (len : is.length < 2) (hi : i < 512) :
    (vmDescend false b i).run s = .ok (child L s.mem b i) s := by
  unfold vmDescend
  simp only [Comp.bind_gets_run, pte_eq_entry, Comp.run_ite, Comp.run_pure, Bool.not_false,
    ↓reduceIte]
  split
  next h => rw [ok.child_of_valid hw his len hi h]
  next h =>
    have hb : b ∈ tableNodes L s.mem r := mem_nodes_of_walk his hw (by omega)
    rw [child_of_zero (ok.childless hb hi (by simpa using h))]

theorem vmGetpte_find (ok : TreeOk L s.mem r) (va : ℕ) :
    (vmGetpte r va false).run s =
      .ok ((walk (child L s.mem) (path va) r).map fun t => (t, PX va 0)) s := by
  unfold vmGetpte
  rw [Comp.run_bind_of_ok (vmDescend_find ok (show walk (child L s.mem) [] r = some r from rfl) (by simp) (by decide) (PX_lt va 2))]
  have hpath : walk (child L s.mem) (path va) r = (child L s.mem r (PX va 2)).bind fun t =>
      (child L s.mem t (PX va 1)).bind some := rfl
  rw [hpath]
  cases h2 : child L s.mem r (PX va 2) with
  | none => rfl
  | some t =>
    have hw : walk (child L s.mem) [PX va 2] r = some t := by
      change (child L s.mem r (PX va 2)).bind some = some t
      rw [h2]
      rfl
    have hi : ∀ j ∈ [PX va 2], j < 512 := by
      intro j hj
      rw [List.mem_singleton.mp hj]
      exact PX_lt va 2
    simp only [Option.bind_some]
    rw [Comp.run_bind_of_ok (vmDescend_find ok hw hi (by simp) (PX_lt va 1))]
    cases child L s.mem t (PX va 1) <;> rfl

/-- `memset` of a page that belongs to nobody. -/
theorem Space.setPage (sp : Space L s free r) (hf : q ∉ free) (hn : q ∉ tableNodes L s.mem r)
    (f : Page → Page) : Space L (s.setPage q f) free r ∧
      tableNodes L (s.setPage q f).mem r = tableNodes L s.mem r ∧
      tableLeaves L (s.setPage q f).mem r = tableLeaves L s.mem r ∧
      ∀ va, pteAt L (s.setPage q f).mem r va = pteAt L s.mem r va := by
  have same : ∀ b ∈ tableNodes L s.mem r, (s.setPage q f).mem b = s.mem b :=
    fun b hb => setPage_mem_of_ne (ne_of_mem_of_not_mem hb hn)
  obtain ⟨tree, hnodes, hleaves⟩ := sp.tree.of_same same
  refine ⟨⟨sp.list.setPage hf f, tree, ?_⟩, hnodes, hleaves, fun va => pteAt_of_same same⟩
  rw [hnodes]
  exact sp.apart

/-- `pmem_alloc` on behalf of a table: the page leaves the free list and is in nobody's hands. -/
theorem Space.alloc (sp : Space L s free r) (hr : pmemAlloc.run s = .ok q s') :
    ∃ rest, free = q :: rest ∧ Space L s' rest r ∧ s'.mem = s.mem ∧ InRange L q ∧ q ∉ rest ∧
      q ∉ tableNodes L s.mem r := by
  obtain ⟨rest, rfl, list, hmem, hq⟩ := sp.list.alloc hr
  have apart := sp.apart
  rw [← Multiset.cons_coe, Multiset.cons_add, Multiset.nodup_cons, Multiset.mem_add, not_or] at apart
  obtain ⟨⟨hrest, hnodes⟩, apart⟩ := apart
  refine ⟨rest, rfl, ⟨list, ?_, ?_⟩, hmem, hq, hrest, hnodes⟩
  · rw [hmem]
    exact sp.tree
  · rw [hmem]
    exact apart

theorem InRange.lt_pa (h : InRange L q) : q < 2 ^ 64 := Nat.lt_trans h.2.2 (by decide)

theorem InRange.pte2pa_or (h : InRange L q) {low : ℕ} (hlow : low < 2 ^ 10) :
    PTE2PA (PA2PTE q ||| low) = q := Mem.pte2pa_or hlow h.1 h.lt_pa

theorem vmDescend_alloc {o : Option ℕ} (sp : Space L s free r)
    (hw : walk (child L s.mem) is r = some b) (his : ∀ j ∈ is, j < 512) (len : is.length < 2)
    (hi : i < 512) (hr : (vmDescend true b i).run s = .ok o s') :
    ∃ free' c, o = some c ∧ Reshape L r s free s' free' ∧
      tableLeaves L s'.mem r = tableLeaves L s.mem r ∧
      (∀ va, pteAt L s'.mem r va = pteAt L s.mem r va) ∧
      walk (child L s'.mem) (is ++ [i]) r = some c ∧
      free.length = free'.length + (walk (child L s.mem) (is ++ [i]) r).isNone.toNat ∧
      ∀ js, (∀ j ∈ js, j < 512) → js.length ≤ 2 → (walk (child L s'.mem) js r = none ↔
        walk (child L s.mem) js r = none ∧ js ≠ is ++ [i]) := by
  have next : walk (child L s.mem) (is ++ [i]) r = child L s.mem b i := by
    rw [walk_append, hw, Option.bind_some]
    unfold walk
    cases child L s.mem b i <;> rfl
  unfold vmDescend at hr
  simp only [Comp.bind_gets_run, pte_eq_entry, Comp.run_ite, Comp.run_pure, Bool.not_true,
    Bool.false_eq_true, ↓reduceIte] at hr
  have hb : b ∈ tableNodes L s.mem r := mem_nodes_of_walk his hw (by omega)
  split at hr
  next h =>
    cases hr
    rw [next, sp.tree.child_of_valid hw his len hi h]
    refine ⟨free, _, rfl, .refl sp, rfl, fun _ => rfl, rfl, rfl, fun js _ _ => ?_⟩
    refine (and_iff_left_of_imp fun none => ?_).symm
    rintro rfl
    rw [next, sp.tree.child_of_valid hw his len hi h] at none
    cases none
  next h =>
  obtain ⟨page, t, halloc, hr⟩ := (Comp.bind_ok_iff _ _ _ _ _).mp hr
  obtain ⟨rest, rfl, spt, hmem, hp, hrest, hnodes⟩ := sp.alloc halloc
  simp only [if_neg (Nat.ne_of_gt hp.pos), memzero, Comp.bind_modify_run,
    Comp.run_pure, Outcome.ok.injEq] at hr
  obtain ⟨rfl, rfl⟩ := hr
  rw [← hmem] at hw hb hnodes
  obtain ⟨spz, nodesz, leavesz, ptez⟩ := spt.setPage hrest hnodes fun _ => Bytes.zero
  have same : ∀ x ∈ tableNodes L t.mem r, (t.setPage page fun _ => Bytes.zero).mem x = t.mem x :=
    fun x hx => setPage_mem_of_ne (ne_of_mem_of_not_mem hx hnodes)
  generalize hz : (t.setPage page fun _ => Bytes.zero) = z at spz nodesz leavesz ptez same
  have empty : z.mem page = Bytes.zero := by
    rw [← hz]
    exact Function.update_self ..
  have hwz : walk (child L z.mem) is r = some b := by
    rw [walk_of_same same his (by omega)]
    exact hw
  have hpage : PTE2PA (PA2PTE page ||| PTE_V) = page := hp.pte2pa_or (by decide)
  have missing : child L s.mem b i = none :=
    child_of_zero (sp.tree.childless (hmem ▸ hb) hi (by simpa using h))
  have hfree : entry z.mem b i = 0 := by
    rw [entry_congr (same b hb), hmem]
    exact sp.tree.childless (hmem ▸ hb) hi (by simpa using h)
  have valid : isValid (PA2PTE page ||| PTE_V) := by
    rw [isValid, Nat.testBit_or]
    simp
  rw [← nodesz] at hb hnodes
  obtain ⟨ok, nodes', leaves', pte', walk', walks⟩ := spz.tree.grow (e := 1 - is.length) hwz his
    (by omega) hi hfree (pte_lt (by decide) hp.lt_pa) (by rw [hpage]; exact hp) valid
    (by rw [hpage]; exact hnodes) (by rw [hpage]; exact empty)
  rw [hpage] at nodes' walk'
  have total : (rest : Multiset ℕ) + tableNodes L (z.setPte b i (PA2PTE page ||| PTE_V)).mem r =
      ((page :: rest : List ℕ) : Multiset ℕ) + tableNodes L s.mem r := by
    rw [nodes', nodesz, hmem, ← Multiset.cons_coe, ← Multiset.singleton_add]
    abel
  refine ⟨rest, page, rfl, ⟨⟨?_, ok, ?_⟩, total, ?_⟩, ?_, ?_, walk', ?_, ?_⟩
  · exact spz.list.setPage (spz.notMem hb) _
  · rw [total]
    exact sp.apart
  · intro q hqf hqn
    rw [List.mem_cons, not_or] at hqf
    rw [nodesz, hmem] at hb
    calc (z.setPte b i (PA2PTE page ||| PTE_V)).mem q
        = z.mem q := setPage_mem_of_ne (ne_of_mem_of_not_mem hb hqn).symm
      _ = t.mem q := by rw [← hz]; exact setPage_mem_of_ne hqf.1
      _ = s.mem q := by rw [hmem]
  · rw [leaves', leavesz, hmem]
  · intro va
    rw [pte', ptez, hmem]
  · rw [next, missing]
    rfl
  · intro js hjs hlen
    rw [walks js hjs hlen, walk_of_same same hjs (by omega), hmem]

/-- The tables on the way to the entry of `va` that are not there yet. -/
def tablesFor (L : Layout) (m : ℕ → Page) (r va : ℕ) : ℕ :=
  (walk (child L m) [PX va 2] r).isNone.toNat + (walk (child L m) (path va) r).isNone.toNat

theorem vmGetpte_alloc {o : Option (ℕ × ℕ)} (sp : Space L s free r)
    (hr : (vmGetpte r va true).run s = .ok o s') :
    ∃ free' t, o = some (t, PX va 0) ∧ Reshape L r s free s' free' ∧
      tableLeaves L s'.mem r = tableLeaves L s.mem r ∧
      (∀ va, pteAt L s'.mem r va = pteAt L s.mem r va) ∧
      walk (child L s'.mem) (path va) r = some t ∧
      free.length = free'.length + tablesFor L s.mem r va ∧
      ∀ js, (∀ j ∈ js, j < 512) → js.length ≤ 2 → (walk (child L s'.mem) js r = none ↔
        walk (child L s.mem) js r = none ∧ js ≠ [PX va 2] ∧ js ≠ path va) := by
  unfold vmGetpte at hr
  obtain ⟨o₂, s₁, h₂, hr⟩ := (Comp.bind_ok_iff _ _ _ _ _).mp hr
  obtain ⟨free₁, t₂, rfl, re₁, leaves₁, pte₁, walk₁, cost₁, walks₁⟩ :=
    vmDescend_alloc sp (show walk (child L s.mem) [] r = some r from rfl) (by simp) (by decide) (PX_lt va 2) h₂
  obtain ⟨o₁, s₂, h₁, hr⟩ := (Comp.bind_ok_iff _ _ _ _ _).mp hr
  have hi : ∀ j ∈ [PX va 2], j < 512 := by
    intro j hj
    rw [List.mem_singleton.mp hj]
    exact PX_lt va 2
  obtain ⟨free₂, t₁, rfl, re₂, leaves₂, pte₂, walk₂, cost₂, walks₂⟩ :=
    vmDescend_alloc re₁.space walk₁ hi (by simp) (PX_lt va 1) h₁
  cases hr
  refine ⟨free₂, t₁, rfl, re₁.trans re₂, leaves₂.trans leaves₁, fun a => (pte₂ a).trans (pte₁ a),
    walk₂, ?_, ?_⟩
  · have same : (walk (child L s₁.mem) (path va) r).isNone =
        (walk (child L s.mem) (path va) r).isNone := by
      rw [Bool.eq_iff_iff, Option.isNone_iff_eq_none, Option.isNone_iff_eq_none,
        walks₁ _ path_lt (Nat.le_of_eq (path_length va))]
      exact and_iff_left (by simp [path])
    change free₁.length = free₂.length + (walk (child L s₁.mem) (path va) r).isNone.toNat at cost₂
    change free.length = free₁.length + (walk (child L s.mem) [PX va 2] r).isNone.toNat at cost₁
    rw [same] at cost₂
    rw [tablesFor]
    omega
  · intro js hjs hlen
    rw [walks₂ js hjs hlen, walks₁ js hjs hlen, and_assoc]
    rfl

end Getpte

section Map

/-- The entry that `vm_mappages` writes. -/
def leafPte (pa perm : ℕ) : ℕ := PA2PTE pa ||| perm ||| PTE_V

theorem leafPte_low (pa perm : ℕ) : leafPte pa perm = PA2PTE pa ||| (perm ||| PTE_V) :=
  Nat.or_assoc ..

theorem or_valid_lt (hperm : perm < 2 ^ 10) : perm ||| PTE_V < 2 ^ 10 :=
  Nat.or_lt_two_pow hperm (by decide)

theorem leafPte_lt (hperm : perm < 2 ^ 10) (hp : pa < 2 ^ 64) : leafPte pa perm < 2 ^ 64 := by
  rw [leafPte_low]
  exact pte_lt (or_valid_lt hperm) hp

theorem isValid_leafPte (pa perm : ℕ) : isValid (leafPte pa perm) := by
  rw [isValid, leafPte, Nat.testBit_or]
  simp

theorem pte2pa_leafPte (hperm : perm < 2 ^ 10) (ha : pa % PGSIZE = 0) (hp : pa < 2 ^ 64) :
    PTE2PA (leafPte pa perm) = pa := by
  rw [leafPte_low]
  exact pte2pa_or (or_valid_lt hperm) ha hp

theorem pte_flags_leafPte (hperm : perm < 2 ^ 10) :
    PTE_FLAGS (leafPte pa perm) = perm ||| PTE_V := by
  rw [leafPte_low]
  exact pte_flags_or (or_valid_lt hperm)

/-- Whether user mode may use a page is written in its permissions. -/
theorem isUser_leafPte (hperm : perm < 2 ^ 10) (pa : ℕ) :
    isUser (leafPte pa perm) = isUser (perm ||| PTE_V) := by
  apply isUser_mod
  have flags : PTE_FLAGS (leafPte pa perm) = perm ||| PTE_V := pte_flags_leafPte hperm
  rw [PTE_FLAGS] at flags
  omega

theorem TreeOk.pteAt_eq {t : ℕ} (hw : walk (child L s.mem) (path va) r = some t) :
    pteAt L s.mem r va = entry s.mem t (PX va 0) := by
  unfold pteAt
  rw [hw, Option.elim_some]

theorem TreeOk.pteAt_zero (ok : TreeOk L s.mem r) (h : isValid (pteAt L s.mem r va) = false) :
    pteAt L s.mem r va = 0 := by
  cases hw : walk (child L s.mem) (path va) r with
  | none =>
    unfold pteAt
    rw [hw, Option.elim_none]
  | some t =>
    rw [TreeOk.pteAt_eq hw] at h ⊢
    exact ok.childless (mem_tableNodes_path hw) (PX_lt va 0) h

theorem vmMappage_ok (sp : Space L s free r) (hperm : perm < 2 ^ 10) (hpa : pa < 2 ^ 64)
    (hr : (vmMappage r va pa perm).run s = .ok () s') :
    ∃ free', Reshape L r s free s' free' ∧ pteAt L s.mem r va = 0 ∧
      tableLeaves L s'.mem r = tableLeaves L s.mem r + leafOf L (leafPte pa perm) ∧
      (∀ va', pteAt L s'.mem r va' =
        if SameEntry va va' then leafPte pa perm else pteAt L s.mem r va') ∧
      free.length = free'.length + tablesFor L s.mem r va ∧
      ∀ js, (∀ j ∈ js, j < 512) → js.length ≤ 2 → (walk (child L s'.mem) js r = none ↔
        walk (child L s.mem) js r = none ∧ js ≠ [PX va 2] ∧ js ≠ path va) := by
  unfold vmMappage at hr
  obtain ⟨o, t, hget, hr⟩ := (Comp.bind_ok_iff _ _ _ _ _).mp hr
  obtain ⟨free', b, rfl, re, leaves, ptes, hw, cost, walks⟩ := vmGetpte_alloc sp hget
  simp only [Comp.bind_gets_run, pte_eq_entry, Comp.run_ite] at hr
  split at hr
  · cases hr
  next h =>
  have hs : s' = t.setPte b (PX va 0) (leafPte pa perm) := by
    cases hr
    rfl
  subst hs
  have free0 : pteAt L t.mem r va = 0 := by
    apply re.space.tree.pteAt_zero
    rw [TreeOk.pteAt_eq hw]
    simpa using h
  obtain ⟨ok, nodes', leaves', pte'⟩ := re.space.tree.setLeaf hw (leafPte_lt hperm hpa)
    (Or.inr (isValid_leafPte pa perm))
  have still := fun js (hjs : ∀ j ∈ js, j < 512) (hlen : js.length ≤ 2) =>
    re.space.tree.walk_setLeaf (v := leafPte pa perm) hw hjs hlen
  have hb := mem_tableNodes_path hw
  rw [free0] at leaves'
  rw [leafOf_zero, add_zero, leaves] at leaves'
  refine ⟨free', re.trans ⟨⟨re.space.list.setPage (re.space.notMem hb) _, ok, ?_⟩, ?_, ?_⟩, ?_,
    leaves', ?_, cost, ?_⟩
  · rw [nodes']
    exact re.space.apart
  · rw [nodes']
  · exact fun q _ hq => setPage_mem_of_ne (ne_of_mem_of_not_mem hb hq).symm
  · rw [← ptes, free0]
  · intro va'
    rw [← ptes va']
    exact pte' va'
  · intro js hjs hlen
    rw [still js hjs hlen, walks js hjs hlen]

/-- `vm_mappages` of one page. -/
theorem vmMappages_page (hva : va % PGSIZE = 0) (hlt : va + PGSIZE ≤ 2 ^ 64) (hpa : pa < 2 ^ 64) :
    (vmMappages r va pa PGSIZE perm).run s = (vmMappage r va pa perm).run s := by
  have h0 : PG_ROUND_DOWN va = va := by
    simp only [PG_ROUND_DOWN, PGSIZE] at hva ⊢
    omega
  have h1 : PG_ROUND_DOWN ((va + PGSIZE - 1) % 2 ^ 64) = va := by
    simp only [PG_ROUND_DOWN, PGSIZE] at hva hlt ⊢
    omega
  unfold vmMappages
  rw [if_neg (by decide), h0, h1]
  dsimp only
  rw [Nat.add_sub_cancel_left]
  change (Comp.forUpTo 1 _).run s = _
  unfold Comp.forUpTo Comp.forUpTo
  simp only [Comp.bind_pure_run, Nat.zero_mul, Nat.add_zero]
  rw [Nat.mod_eq_of_lt hpa, Nat.mod_eq_of_lt (by simp only [PGSIZE] at hlt; omega)]

theorem vmGetpa_find (ok : TreeOk L s.mem r) : (vmGetpa r va).run s = .ok
    (if MAXVA ≤ va then 0
      else if isValid (pteAt L s.mem r va) && isUser (pteAt L s.mem r va) then
        PTE2PA (pteAt L s.mem r va) else 0) s := by
  unfold vmGetpa
  rw [Comp.run_ite]
  split
  · rfl
  rw [Comp.run_bind_of_ok (vmGetpte_find ok va)]
  cases hw : walk (child L s.mem) (path va) r with
  | none =>
    unfold pteAt
    rw [hw, Option.elim_none]
    rfl
  | some t =>
    rw [TreeOk.pteAt_eq hw]
    simp only [Option.map_some, Comp.bind_gets_run, pte_eq_entry, Comp.run_ite, Comp.run_pure]
    cases isValid (entry s.mem t (PX va 0)) <;> cases isUser (entry s.mem t (PX va 0)) <;> rfl

end Map

section Unmap

/-- What an entry points to is a leaf if it is a page of the allocator. -/
theorem TreeOk.mem_leaves (ok : TreeOk L s.mem r) (h : InRange L (PTE2PA (pteAt L s.mem r va))) :
    PTE2PA (pteAt L s.mem r va) ∈ tableLeaves L s.mem r := by
  cases hw : walk (child L s.mem) (path va) r with
  | none =>
    unfold pteAt at h
    rw [hw, Option.elim_none] at h
    exact absurd h.pos (Nat.lt_irrefl 0)
  | some t =>
    obtain ⟨-, -, leaves', -⟩ := ok.setLeaf hw (v := 0) (by decide) (Or.inl rfl)
    rw [leafOf_zero, add_zero, leafOf, if_pos h] at leaves'
    rw [← leaves']
    exact Multiset.mem_add.mpr (Or.inr (Multiset.mem_singleton_self _))

/-- The entry that `vm_unmappages` found. -/
theorem vmUnmappage_ok {freeit : Bool} (sp : Space L s free r)
    (hr : (vmUnmappage L r va freeit).run s = .ok () s') :
    ∃ t s₁, walk (child L s.mem) (path va) r = some t ∧ isValid (pteAt L s.mem r va) ∧
      (if freeit then pmemFree L (PTE2PA (pteAt L s.mem r va)) else pure ()).run s = .ok () s₁ ∧
      s' = s₁.setPte t (PX va 0) 0 := by
  unfold vmUnmappage at hr
  rw [Comp.run_bind_of_ok (vmGetpte_find sp.tree va)] at hr
  cases hw : walk (child L s.mem) (path va) r with
  | none =>
    rw [hw] at hr
    cases hr
  | some t =>
    rw [hw] at hr
    simp only [Option.map_some, Comp.bind_gets_run, pte_eq_entry, Comp.run_ite] at hr
    rw [TreeOk.pteAt_eq hw]
    split at hr
    · cases hr
    next h =>
    split at hr
    · cases hr
    obtain ⟨_, s₁, hfree, hr⟩ := (Comp.bind_ok_iff _ _ _ _ _).mp hr
    cases hr
    exact ⟨t, s₁, rfl, by simpa using h, hfree, rfl⟩

/-- `vm_unmappages` of one page. -/
theorem vmUnmappages_page {freeit : Bool} (hva : va % PGSIZE = 0) (hlt : va + PGSIZE < 2 ^ 64) :
    (vmUnmappages L r va PGSIZE freeit).run s = (vmUnmappage L r va freeit).run s := by
  have h1 : rounds va ((va + Int.bmod (PG_ROUND_UP PGSIZE) (2 ^ 32)) % 2 ^ 64).toNat = 1 := by
    have hb : Int.bmod (PG_ROUND_UP PGSIZE) (2 ^ 32) = 4096 := by decide
    rw [hb, rounds]
    simp only [PGSIZE] at hlt ⊢
    omega
  unfold vmUnmappages
  rw [if_neg (not_not.mpr hva)]
  dsimp only
  rw [h1]
  unfold Comp.forUpTo Comp.forUpTo
  simp only [Comp.bind_pure_run, Nat.zero_mul, Nat.add_zero]

/-- An unmapping that leaves the page alone. -/
theorem vmUnmappage_keep (sp : Space L s free r)
    (hr : (vmUnmappage L r va false).run s = .ok () s') :
    Reshape L r s free s' free ∧ isValid (pteAt L s.mem r va) ∧
      tableLeaves L s'.mem r + leafOf L (pteAt L s.mem r va) = tableLeaves L s.mem r ∧
      ∀ va', pteAt L s'.mem r va' = if SameEntry va va' then 0 else pteAt L s.mem r va' := by
  obtain ⟨t, s₁, hw, valid, hfree, rfl⟩ := vmUnmappage_ok sp hr
  cases hfree
  obtain ⟨ok, nodes', leaves', pte'⟩ := sp.tree.setLeaf hw (by decide) (Or.inl rfl)
  have hb := mem_tableNodes_path hw
  rw [leafOf_zero, add_zero] at leaves'
  refine ⟨⟨⟨sp.list.setPage (sp.notMem hb) _, ok, ?_⟩, ?_, ?_⟩, valid, leaves', pte'⟩
  · rw [nodes']
    exact sp.apart
  · rw [nodes']
  · exact fun q _ hq => setPage_mem_of_ne (ne_of_mem_of_not_mem hb hq).symm

/-- An unmapping that frees the page, which was in use nowhere else. -/
theorem vmUnmappage_push (sp : Space L s free r) (hf : PTE2PA (pteAt L s.mem r va) ∉ free)
    (hn : PTE2PA (pteAt L s.mem r va) ∉ tableNodes L s.mem r)
    (hr : (vmUnmappage L r va true).run s = .ok () s') :
    Space L s' (PTE2PA (pteAt L s.mem r va) :: free) r ∧
      tableNodes L s'.mem r = tableNodes L s.mem r ∧ isValid (pteAt L s.mem r va) ∧
      tableLeaves L s.mem r = PTE2PA (pteAt L s.mem r va) ::ₘ tableLeaves L s'.mem r ∧
      (∀ p, p ≠ PTE2PA (pteAt L s.mem r va) → p ∉ tableNodes L s.mem r → s'.mem p = s.mem p) ∧
      ∀ va', pteAt L s'.mem r va' = if SameEntry va va' then 0 else pteAt L s.mem r va' := by
  obtain ⟨t, s₁, hw, valid, hfree, rfl⟩ := vmUnmappage_ok sp hr
  obtain ⟨hq, rfl⟩ := pmemFree_ok hfree
  generalize hpa : PTE2PA (pteAt L s.mem r va) = q at *
  have old : leafOf L (pteAt L s.mem r va) = {q} := by
    rw [leafOf, hpa, if_pos hq]
  have same : ∀ b ∈ tableNodes L s.mem r, (s.push q).mem b = s.mem b :=
    fun b hb => push_mem_of_ne (ne_of_mem_of_not_mem hb hn)
  obtain ⟨tree, hnodes, hleaves⟩ := sp.tree.of_same same
  have list := sp.list.push hf hq
  have ptes : ∀ va', pteAt L (s.push q).mem r va' = pteAt L s.mem r va' :=
    fun va' => pteAt_of_same same
  rw [← walk_of_same same path_lt (path_length va ▸ by decide)] at hw
  have hb := mem_tableNodes_path hw
  have frame : ∀ p, p ≠ q → (s.push q).mem p = s.mem p := fun p hp => push_mem_of_ne hp
  generalize s.push q = z at *
  obtain ⟨ok, nodes', leaves', pte'⟩ := tree.setLeaf hw (v := 0) (by decide) (Or.inl rfl)
  rw [hnodes] at hb nodes'
  rw [ptes, old, leafOf_zero, add_zero, hleaves, add_comm, Multiset.singleton_add] at leaves'
  have htq : t ≠ q := ne_of_mem_of_not_mem hb hn
  refine ⟨⟨list.setPage ?_ _, ok, ?_⟩, nodes', valid, leaves'.symm, ?_, ?_⟩
  · rw [List.mem_cons, not_or]
    exact ⟨htq, sp.notMem hb⟩
  · rw [nodes', ← Multiset.cons_coe, Multiset.cons_add]
    refine Multiset.nodup_cons.mpr ⟨?_, sp.apart⟩
    rw [Multiset.mem_add, not_or]
    exact ⟨hf, hn⟩
  · intro p hp hn
    rw [← frame p hp]
    exact setPage_mem_of_ne (ne_of_mem_of_not_mem hb hn).symm
  · intro va'
    rw [pte', ptes]

/-- Where the leaves belong to the table alone, the page that is freed was one of them. -/
theorem vmUnmappage_free (sp : Space L s free r)
    (apart : ((free : Multiset ℕ) + tableNodes L s.mem r + tableLeaves L s.mem r).Nodup)
    (hr : (vmUnmappage L r va true).run s = .ok () s') :
    ∃ q, Space L s' (q :: free) r ∧ tableNodes L s'.mem r = tableNodes L s.mem r ∧
      tableLeaves L s.mem r = q ::ₘ tableLeaves L s'.mem r ∧
      (∀ p, p ≠ q → p ∉ tableNodes L s.mem r → s'.mem p = s.mem p) ∧
      ∀ va', pteAt L s'.mem r va' = if SameEntry va va' then 0 else pteAt L s.mem r va' := by
  obtain ⟨-, s₁, -, -, hfree, -⟩ := vmUnmappage_ok sp hr
  have leaf := sp.tree.mem_leaves (pmemFree_ok hfree).1
  have out : PTE2PA (pteAt L s.mem r va) ∉ (free : Multiset ℕ) + tableNodes L s.mem r := fun h =>
    Multiset.disjoint_left.mp (Multiset.nodup_add.mp apart).2.2 h leaf
  rw [Multiset.mem_add, not_or] at out
  obtain ⟨space, nodes', -, leaves', frame, ptes⟩ := vmUnmappage_push sp out.1 out.2 hr
  exact ⟨_, space, nodes', leaves', frame, ptes⟩

end Unmap

section Keeps

/-- The pages of a table: its nodes and what its leaves point to. -/
def tablePages (L : Layout) (m : ℕ → Page) (r : ℕ) : Multiset ℕ :=
  tableNodes L m r + tableLeaves L m r

theorem tablePages_eq (L : Layout) (m : ℕ → Page) (r : ℕ) :
    tablePages L m r = pages 512 (child L m) 3 r := (pages_eq ..).symm

/-- Pages pass between the free list and the table, and no other page is written. What is mapped
    anew is a page of the allocator. -/
structure Keeps (L : Layout) (r : ℕ) (s : Pmem) (free : List ℕ) (s' : Pmem) (free' : List ℕ) :
    Prop where
  space : Space L s' free' r
  pages : (free' : Multiset ℕ) + tablePages L s'.mem r = free + tablePages L s.mem r
  frame : ∀ q, q ∉ free → q ∉ tablePages L s.mem r → s'.mem q = s.mem q
  backed : ∀ va, pteAt L s'.mem r va = pteAt L s.mem r va ∨ pteAt L s'.mem r va = 0 ∨
    InRange L (PTE2PA (pteAt L s'.mem r va))

theorem Keeps.refl (sp : Space L s free r) : Keeps L r s free s free :=
  ⟨sp, rfl, fun _ _ _ => rfl, fun _ => Or.inl rfl⟩

theorem Keeps.outside (h : Keeps L r s free s' free') (hf : q ∉ free)
    (hn : q ∉ tablePages L s.mem r) : q ∉ free' ∧ q ∉ tablePages L s'.mem r := by
  have out : q ∉ (free' : Multiset ℕ) + tablePages L s'.mem r := by
    rw [h.pages, Multiset.mem_add]
    exact not_or.mpr ⟨hf, hn⟩
  rw [Multiset.mem_add] at out
  exact ⟨fun hq => out (Or.inl hq), fun hq => out (Or.inr hq)⟩

theorem Keeps.trans (h : Keeps L r s free s' free') (h' : Keeps L r s' free' s'' free'') :
    Keeps L r s free s'' free'' where
  space := h'.space
  pages := h'.pages.trans h.pages
  frame := by
    intro q hf hn
    obtain ⟨hf', hn'⟩ := h.outside hf hn
    rw [h'.frame q hf' hn', h.frame q hf hn]
  backed := by
    intro va
    rcases h'.backed va with same | new
    · rw [same]
      exact h.backed va
    · exact Or.inr new

theorem Keeps.apart (h : Keeps L r s free s' free')
    (apart : ((free : Multiset ℕ) + tablePages L s.mem r).Nodup) :
    ((free' : Multiset ℕ) + tablePages L s'.mem r).Nodup := by
  rw [h.pages]
  exact apart

/-- A leaf is neither free nor a node. -/
theorem Space.leaf_apart (apart : ((free : Multiset ℕ) + tablePages L s.mem r).Nodup)
    (h : q ∈ tableLeaves L s.mem r) : q ∉ free ∧ q ∉ tableNodes L s.mem r := by
  rw [tablePages, ← add_assoc] at apart
  have out : q ∉ (free : Multiset ℕ) + tableNodes L s.mem r := fun hq =>
    Multiset.disjoint_left.mp (Multiset.nodup_add.mp apart).2.2 hq h
  rwa [Multiset.mem_add, Multiset.mem_coe, not_or] at out

/-- A leaf is freed while it is still mapped. -/
theorem Space.pushLeaf (sp : Space L s free r)
    (apart : ((free : Multiset ℕ) + tablePages L s.mem r).Nodup) (hq : InRange L q)
    (leaf : q ∈ tableLeaves L s.mem r) : Space L (s.push q) (q :: free) r ∧
      tableNodes L (s.push q).mem r = tableNodes L s.mem r ∧
      tableLeaves L (s.push q).mem r = tableLeaves L s.mem r ∧
      ∀ va, pteAt L (s.push q).mem r va = pteAt L s.mem r va := by
  have out := Space.leaf_apart apart leaf
  have same : ∀ b ∈ tableNodes L s.mem r, (s.push q).mem b = s.mem b :=
    fun b hb => push_mem_of_ne (ne_of_mem_of_not_mem hb out.2)
  obtain ⟨tree, nodes', leaves'⟩ := sp.tree.of_same same
  refine ⟨⟨sp.list.push out.1 hq, tree, ?_⟩, nodes', leaves', fun va => pteAt_of_same same⟩
  rw [nodes', ← Multiset.cons_coe, Multiset.cons_add]
  refine Multiset.nodup_cons.mpr ⟨?_, sp.apart⟩
  rw [Multiset.mem_add, not_or]
  exact out

theorem mem_tablePages_of_node (h : q ∈ tableNodes L s.mem r) : q ∈ tablePages L s.mem r :=
  Multiset.mem_add.mpr (Or.inl h)

theorem mem_tablePages_of_leaf (h : q ∈ tableLeaves L s.mem r) : q ∈ tablePages L s.mem r :=
  Multiset.mem_add.mpr (Or.inr h)

/-- A page is taken, filled and mapped. -/
structure MapNew (L : Layout) (r va perm : ℕ) (content : Page) (s : Pmem) (free : List ℕ)
    (q : ℕ) (s' : Pmem) (free' : List ℕ) : Prop where
  keeps : Keeps L r s free s' free'
  range : InRange L q
  taken : q ∈ free
  leaves : tableLeaves L s'.mem r = q ::ₘ tableLeaves L s.mem r
  unmapped : pteAt L s.mem r va = 0
  ptes : ∀ va', pteAt L s'.mem r va' =
    if SameEntry va va' then leafPte q perm else pteAt L s.mem r va'
  content : s'.mem q = content
  frame : ∀ p, p ∉ free → p ∉ tableNodes L s.mem r → s'.mem p = s.mem p
  cost : free.length = free'.length + (tablesFor L s.mem r va + 1)
  walks : ∀ js, (∀ j ∈ js, j < 512) → js.length ≤ 2 → (walk (child L s'.mem) js r = none ↔
    walk (child L s.mem) js r = none ∧ js ≠ [PX va 2] ∧ js ≠ path va)

theorem SameEntry.pteAt_eq {m : ℕ → Page} {va' : ℕ} (h : SameEntry va va') :
    pteAt L m r va = pteAt L m r va' := by
  unfold pteAt
  rw [h.1, h.2]

/-- What was mapped stays as it was. -/
theorem MapNew.kept {content : Page} {va' : ℕ} (h : MapNew L r va perm content s free q s' free')
    (hne : pteAt L s.mem r va' ≠ 0) : pteAt L s'.mem r va' = pteAt L s.mem r va' := by
  rw [h.ptes, if_neg]
  intro same
  exact hne (same.pteAt_eq ▸ h.unmapped)

theorem mapNew {s₁ : Pmem} (sp : Space L s free r) (halloc : pmemAlloc.run s = .ok q s₁)
    {f : Page → Page} (hperm : perm < 2 ^ 10) (hva : va % PGSIZE = 0) (hlt : va + PGSIZE ≤ 2 ^ 64)
    (hr : (vmMappages r va q PGSIZE perm).run (s₁.setPage q f) = .ok () s') :
    ∃ free', MapNew L r va perm (f (s.mem q)) s free q s' free' := by
  obtain ⟨rest, rfl, sp₁, hmem, hq, hrest, hnodes⟩ := sp.alloc halloc
  rw [vmMappages_page hva hlt (Nat.lt_trans hq.2.2 (by decide))] at hr
  rw [← hmem] at hnodes
  obtain ⟨sp₂, nodes₂, leaves₂, ptes₂⟩ := sp₁.setPage hrest hnodes f
  obtain ⟨free', re, unmapped, leaves', ptes', cost, walks⟩ := vmMappage_ok sp₂ hperm hq.lt_pa hr
  have same : ∀ js, (∀ j ∈ js, j < 512) → js.length ≤ 2 →
      walk (child L (s₁.setPage q f).mem) js r = walk (child L s.mem) js r := by
    intro js hjs hlen
    rw [← hmem]
    exact walk_of_same (fun x hx => setPage_mem_of_ne (ne_of_mem_of_not_mem hx hnodes)) hjs
      (by omega)
  have leaf : leafOf L (leafPte q perm) = {q} := by
    rw [leafOf, pte2pa_leafPte hperm hq.1 hq.lt_pa, if_pos hq]
  rw [leaf, leaves₂, hmem] at leaves'
  have pages := re.pages
  rw [nodes₂, hmem] at pages
  have frame : ∀ p, p ∉ q :: rest → p ∉ tableNodes L s.mem r → s'.mem p = s.mem p := by
    intro p hf hn
    rw [List.mem_cons, not_or] at hf
    rw [re.frame p hf.2 (by rw [nodes₂, hmem]; exact hn), setPage_mem_of_ne hf.1, hmem]
  refine ⟨free', ⟨re.space, ?_, ?_, ?_⟩, hq, List.mem_cons_self, ?_, ?_, ?_, ?_, frame, ?_, ?_⟩
  · unfold tablePages
    rw [← add_assoc, pages, leaves', ← Multiset.cons_coe, ← Multiset.singleton_add]
    abel
  · intro p hf hn
    exact frame p hf fun h => hn (mem_tablePages_of_node h)
  · intro va'
    rw [ptes', ptes₂, hmem]
    split
    · right; right
      rw [pte2pa_leafPte hperm hq.1 hq.lt_pa]
      exact hq
    · exact Or.inl rfl
  · rw [leaves', add_comm, Multiset.singleton_add]
  · rw [← unmapped, ptes₂, hmem]
  · intro va'
    rw [ptes', ptes₂, hmem]
  · rw [re.frame q hrest (by rw [nodes₂]; exact hnodes), ← hmem]
    exact Function.update_self ..
  · have upper : ∀ j ∈ [PX va 2], j < 512 := by
      intro j hj
      rw [List.mem_singleton.mp hj]
      exact PX_lt va 2
    rw [tablesFor, same _ upper (by simp), same _ path_lt (Nat.le_of_eq (path_length va)),
      ← tablesFor] at cost
    rw [List.length_cons]
    omega
  · intro js hjs hlen
    rw [walks js hjs hlen, same js hjs hlen]

end Keeps

end EasyXv6.Mem
