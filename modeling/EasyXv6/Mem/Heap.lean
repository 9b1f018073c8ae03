import EasyXv6.Mem.Room

set_option autoImplicit false

/-!
# The heap page by page (uvm.c)

What `uvm_heap_grow` and `uvm_heap_ungrow` do to the table, when they come to their end, and how many
pages the first of them takes.
-/
namespace EasyXv6.Mem
open Lib Radix

section Needed

variable {L : Layout} {m m' : ℕ → Page} {r va n : ℕ}

/-- The tables on the way to the entries of `n` pages from `va` on, by their paths. -/
def tablePaths (va n : ℕ) : Finset (List ℕ) :=
  (Finset.range n).biUnion fun k => {[PX (va + k * PGSIZE) 2], path (va + k * PGSIZE)}

/-- The number of those that are not there yet. -/
def tablesNeeded (L : Layout) (m : ℕ → Page) (r va n : ℕ) : ℕ :=
  ((tablePaths va n).filter fun is => walk (child L m) is r = none).card

theorem mem_tablePaths {is : List ℕ} : is ∈ tablePaths va n ↔
    ∃ k < n, is = [PX (va + k * PGSIZE) 2] ∨ is = path (va + k * PGSIZE) := by
  simp only [tablePaths, Finset.mem_biUnion, Finset.mem_range, Finset.mem_insert,
    Finset.mem_singleton]

theorem tablePaths_short {is : List ℕ} (h : is ∈ tablePaths va n) :
    (∀ i ∈ is, i < 512) ∧ is.length ≤ 2 := by
  obtain ⟨k, -, rfl | rfl⟩ := mem_tablePaths.mp h
  · refine ⟨fun i hi => ?_, by simp⟩
    rw [List.mem_singleton.mp hi]
    exact PX_lt _ 2
  · exact ⟨path_lt, Nat.le_of_eq (path_length _)⟩

theorem tablePaths_succ (va n : ℕ) :
    tablePaths va (n + 1) = {[PX va 2], path va} ∪ tablePaths (va + PGSIZE) n := by
  have next : ∀ k, va + (k + 1) * PGSIZE = va + PGSIZE + k * PGSIZE := by
    intro k
    rw [Nat.add_one_mul, Nat.add_comm (k * PGSIZE), ← Nat.add_assoc]
  ext is
  rw [Finset.mem_union, mem_tablePaths, mem_tablePaths, Finset.mem_insert, Finset.mem_singleton]
  constructor
  · rintro ⟨k, hk, h⟩
    cases k with
    | zero =>
      rw [Nat.zero_mul, Nat.add_zero] at h
      exact Or.inl h
    | succ k =>
      rw [next] at h
      exact Or.inr ⟨k, Nat.lt_of_succ_lt_succ hk, h⟩
  · rintro (h | ⟨k, hk, h⟩)
    · refine ⟨0, Nat.succ_pos n, ?_⟩
      rw [Nat.zero_mul, Nat.add_zero]
      exact h
    · refine ⟨k + 1, Nat.succ_lt_succ hk, ?_⟩
      rw [next]
      exact h

theorem card_tablesFor (L : Layout) (m : ℕ → Page) (r va : ℕ) :
    (({[PX va 2], path va} : Finset (List ℕ)).filter fun is => walk (child L m) is r = none).card =
      tablesFor L m r va := by
  have hne : [PX va 2] ≠ path va := by simp [path]
  rw [Finset.filter_insert, Finset.filter_singleton, tablesFor]
  cases h₂ : walk (child L m) [PX va 2] r <;> cases h₁ : walk (child L m) (path va) r <;>
    simp [hne]

theorem tablesNeeded_le (L : Layout) (m : ℕ → Page) (r va n : ℕ) :
    tablesNeeded L m r va n ≤ n * 2 := by
  refine (Finset.card_filter_le _ _).trans ?_
  have pair : ∀ k ∈ Finset.range n,
      ({[PX (va + k * PGSIZE) 2], path (va + k * PGSIZE)} : Finset (List ℕ)).card ≤ 2 :=
    fun _ _ => Finset.card_le_two
  have := Finset.card_biUnion_le_card_mul _ _ 2 pair
  rwa [Finset.card_range] at this

/-- The first page gets its tables, and the others need what is then still missing. -/
theorem tablesNeeded_succ (walks : ∀ js, (∀ j ∈ js, j < 512) → js.length ≤ 2 →
    (walk (child L m') js r = none ↔
      walk (child L m) js r = none ∧ js ≠ [PX va 2] ∧ js ≠ path va)) :
    tablesNeeded L m r va (n + 1) = tablesFor L m r va + tablesNeeded L m' r (va + PGSIZE) n := by
  rw [← card_tablesFor, tablesNeeded, tablesNeeded, ← Finset.card_union_of_disjoint]
  · congr 1
    ext is
    rw [tablePaths_succ, Finset.filter_union, Finset.mem_union, Finset.mem_union]
    simp only [Finset.mem_filter, Finset.mem_insert, Finset.mem_singleton]
    by_cases first : is = [PX va 2] ∨ is = path va
    · constructor
      · rintro (h | h)
        · exact Or.inl h
        · exact Or.inl ⟨first, h.2⟩
      · rintro (h | h)
        · exact Or.inl h
        · obtain ⟨his, hlen⟩ := tablePaths_short h.1
          exact Or.inl ⟨first, ((walks is his hlen).mp h.2).1⟩
    · rw [not_or] at first
      refine or_congr Iff.rfl (and_congr_right fun h => ?_)
      obtain ⟨his, hlen⟩ := tablePaths_short h
      rw [walks is his hlen]
      exact (and_iff_left first).symm
  · rw [Finset.disjoint_left]
    intro is h h'
    rw [Finset.mem_filter] at h h'
    obtain ⟨his, hlen⟩ := tablePaths_short h'.1
    obtain ⟨-, ne₂, ne₁⟩ := (walks is his hlen).mp h'.2
    rcases Finset.mem_insert.mp h.1 with eq | eq
    · exact ne₂ eq
    · exact ne₁ (Finset.mem_singleton.mp eq)

end Needed

section Returns

variable {L : Layout} {s : Pmem} {free : List ℕ} {is : List ℕ} {r b i va pa perm : ℕ}

theorem pmemAlloc_returns (h : 0 < s.allocable) : ∃ p t, pmemAlloc.run s = .ok p t ∧
    t.allocable = s.allocable - 1 := by
  unfold pmemAlloc
  rw [Comp.bind_get_run, if_neg (Nat.ne_of_gt h)]
  exact ⟨_, _, rfl, rfl⟩

theorem vmDescend_returns (ok : TreeOk L s.mem r) (hw : walk (child L s.mem) is r = some b)
    (his : ∀ j ∈ is, j < 512) (len : is.length < 2) (hi : i < 512)
    (room : (walk (child L s.mem) (is ++ [i]) r).isNone.toNat ≤ s.allocable) :
    ∃ o t, (vmDescend true b i).run s = .ok o t := by
  unfold vmDescend
  rw [Comp.bind_gets_run, pte_eq_entry, Bool.not_true]
  by_cases valid : isValid (entry s.mem b i)
  · rw [if_pos valid]
    exact ⟨_, _, rfl⟩
  rw [if_neg valid, if_neg Bool.false_ne_true]
  have missing : child L s.mem b i = none :=
    child_of_zero (ok.childless (mem_nodes_of_walk his hw (by omega)) hi (by simpa using valid))
  have pos : 0 < s.allocable := by
    have next : walk (child L s.mem) (is ++ [i]) r = none := by
      rw [walk_append, hw, Option.bind_some, walk, missing, Option.bind_none]
    rw [next] at room
    exact room
  obtain ⟨p, t, halloc, -⟩ := pmemAlloc_returns pos
  rw [Comp.run_bind_of_ok halloc]
  by_cases hp : p = 0
  · rw [if_pos hp]
    exact ⟨_, _, rfl⟩
  · rw [if_neg hp]
    exact ⟨_, _, rfl⟩

theorem vmGetpte_returns (sp : Space L s free r) (room : tablesFor L s.mem r va ≤ free.length) :
    ∃ o t, (vmGetpte r va true).run s = .ok o t := by
  have upper : ∀ j ∈ [PX va 2], j < 512 := by
    intro j hj
    rw [List.mem_singleton.mp hj]
    exact PX_lt va 2
  have root : walk (child L s.mem) [] r = some r := rfl
  rw [tablesFor] at room
  obtain ⟨o, t, h₂⟩ := vmDescend_returns (i := PX va 2) sp.tree root (by simp) (by decide)
    (PX_lt va 2) (by rw [sp.list.allocable]; exact Nat.le_trans (Nat.le_add_right _ _) room)
  obtain ⟨free', t₂, rfl, re, -, -, walk₂, cost, walks⟩ :=
    vmDescend_alloc sp root (by simp) (by decide) (PX_lt va 2) h₂
  change free.length = free'.length + (walk (child L s.mem) [PX va 2] r).isNone.toNat at cost
  have same : (walk (child L t.mem) (path va) r).isNone =
      (walk (child L s.mem) (path va) r).isNone := by
    rw [Bool.eq_iff_iff, Option.isNone_iff_eq_none, Option.isNone_iff_eq_none,
      walks _ path_lt (Nat.le_of_eq (path_length va))]
    exact and_iff_left (by simp [path])
  obtain ⟨o, u, h₁⟩ := vmDescend_returns (i := PX va 1) re.space.tree walk₂ upper (by simp)
    (PX_lt va 1) (by
      change (walk (child L t.mem) (path va) r).isNone.toNat ≤ _
      rw [same, re.space.list.allocable]
      omega)
  unfold vmGetpte
  rw [Comp.run_bind_of_ok h₂]
  dsimp only
  rw [Comp.run_bind_of_ok h₁]
  cases o <;> exact ⟨_, _, rfl⟩

theorem vmMappage_returns (sp : Space L s free r) (unmapped : pteAt L s.mem r va = 0)
    (room : tablesFor L s.mem r va ≤ free.length) :
    ∃ t, (vmMappage r va pa perm).run s = .ok () t := by
  obtain ⟨o, t, hget⟩ := vmGetpte_returns sp room
  obtain ⟨free', b, rfl, -, -, ptes, hw, -⟩ := vmGetpte_alloc sp hget
  unfold vmMappage
  rw [Comp.run_bind_of_ok hget]
  dsimp only
  rw [Comp.bind_gets_run, pte_eq_entry, ← TreeOk.pteAt_eq hw, ptes, unmapped]
  exact ⟨_, rfl⟩

/-- A page is taken, filled and mapped where nothing is mapped and there is room for the tables. -/
theorem mapNew_returns {q : ℕ} {s₁ : Pmem} {f : Page → Page} (sp : Space L s free r)
    (halloc : pmemAlloc.run s = .ok q s₁) (unmapped : pteAt L s.mem r va = 0)
    (hva : va % PGSIZE = 0) (hlt : va + PGSIZE ≤ 2 ^ 64)
    (room : tablesFor L s.mem r va < free.length) :
    ∃ t, (vmMappages r va q PGSIZE perm).run (s₁.setPage q f) = .ok () t := by
  obtain ⟨rest, rfl, sp₁, hmem, hq, hrest, hnodes⟩ := sp.alloc halloc
  rw [← hmem] at hnodes
  obtain ⟨sp₂, -, -, ptes₂⟩ := sp₁.setPage hrest hnodes f
  have same : ∀ js, (∀ j ∈ js, j < 512) → js.length ≤ 2 →
      walk (child L (s₁.setPage q f).mem) js r = walk (child L s.mem) js r := by
    intro js hjs hlen
    rw [← hmem]
    exact walk_of_same (fun x hx => setPage_mem_of_ne (ne_of_mem_of_not_mem hx hnodes)) hjs
      (by omega)
  rw [vmMappages_page hva hlt hq.lt_pa]
  refine vmMappage_returns sp₂ (by rw [ptes₂, hmem, unmapped]) ?_
  rw [List.length_cons] at room
  rw [tablesFor, same _ ?_ (by simp), same _ path_lt (Nat.le_of_eq (path_length va)), ← tablesFor]
  · omega
  · intro j hj
    rw [List.mem_singleton.mp hj]
    exact PX_lt va 2

end Returns

section Grow

variable {L : Layout} {s s' : Pmem} {free : List ℕ} {r lo n top new : ℕ} {h : Heap}

/-- The entry of a page that `uvm_heap_grow` maps. -/
def heapPte (q : ℕ) : ℕ := leafPte q (PTE_W ||| PTE_R ||| PTE_U)

/-- `n` pages of zeros are mapped from `lo` on. -/
structure Grown (L : Layout) (r lo n : ℕ) (s : Pmem) (free : List ℕ) (s' : Pmem)
    (free' : List ℕ) : Prop where
  keeps : Keeps L r s free s' free'
  unmapped : ∀ k < n, pteAt L s.mem r (lo + k * PGSIZE) = 0
  mapped : ∀ k < n, ∃ q, InRange L q ∧ pteAt L s'.mem r (lo + k * PGSIZE) = heapPte q ∧
    s'.mem q = Bytes.zero
  rest : ∀ va, (∀ k < n, ¬ SameEntry (lo + k * PGSIZE) va) →
    pteAt L s'.mem r va = pteAt L s.mem r va
  leaves : tableLeaves L s.mem r ≤ tableLeaves L s'.mem r
  content : ∀ q ∈ tableLeaves L s.mem r, s'.mem q = s.mem q
  cost : free.length = free'.length + (n + tablesNeeded L s.mem r lo n)

theorem Grown.refl (sp : Space L s free r) (lo : ℕ) : Grown L r lo 0 s free s free where
  keeps := .refl sp
  unmapped _ hk := absurd hk (Nat.not_lt_zero _)
  mapped _ hk := absurd hk (Nat.not_lt_zero _)
  rest _ _ := rfl
  leaves := le_rfl
  content _ _ := rfl
  cost := rfl

/-- Pages of one range do not share an entry. -/
theorem not_sameEntry_round {lo j k : ℕ} (hj : lo + j * PGSIZE < 2 ^ 39)
    (hk : lo + k * PGSIZE < 2 ^ 39) (hne : j ≠ k) :
    ¬ SameEntry (lo + j * PGSIZE) (lo + k * PGSIZE) := by
  rw [sameEntry_iff hj hk]
  simp only [PGSIZE]
  omega

/-- One page, and then the others. -/
theorem Grown.cons {q : ℕ} {t : Pmem} {free₁ free' : List ℕ}
    (apart : ((free : Multiset ℕ) + tablePages L s.mem r).Nodup)
    (first : MapNew L r lo (PTE_W ||| PTE_R ||| PTE_U) Bytes.zero s free q t free₁)
    (others : Grown L r (lo + PGSIZE) n t free₁ s' free') (hend : lo + (n + 1) * PGSIZE ≤ 2 ^ 39) :
    Grown L r lo (n + 1) s free s' free' := by
  have next : ∀ k, lo + (k + 1) * PGSIZE = lo + PGSIZE + k * PGSIZE := by
    intro k
    rw [Nat.add_one_mul, Nat.add_comm (k * PGSIZE), ← Nat.add_assoc]
  have low : ∀ k < n + 1, lo + k * PGSIZE < 2 ^ 39 := by
    intro k hk
    simp only [PGSIZE] at *
    omega
  have apartFirst : ∀ k < n, ¬ SameEntry lo (lo + (k + 1) * PGSIZE) := by
    intro k hk h
    refine not_sameEntry_round (j := 0) (low 0 (Nat.succ_pos n)) (low (k + 1) (by omega))
      (by omega) ?_
    rwa [Nat.zero_mul, Nat.add_zero]
  have leaf : q ∈ tableLeaves L t.mem r := by
    rw [first.leaves]
    exact Multiset.mem_cons_self q _
  refine ⟨first.keeps.trans others.keeps, ?_, ?_, ?_, ?_, ?_, ?_⟩
  · intro k hk
    cases k with
    | zero =>
      rw [Nat.zero_mul, Nat.add_zero]
      exact first.unmapped
    | succ k =>
      have unmapped := others.unmapped k (Nat.lt_of_succ_lt_succ hk)
      rw [← next, first.ptes, if_neg (apartFirst k (Nat.lt_of_succ_lt_succ hk))] at unmapped
      exact unmapped
  · intro k hk
    cases k with
    | zero =>
      refine ⟨q, first.range, ?_, (others.content q leaf).trans first.content⟩
      rw [Nat.zero_mul, Nat.add_zero, others.rest lo, first.ptes, if_pos ⟨rfl, rfl⟩, heapPte]
      intro k hk same
      rw [← next] at same
      exact apartFirst k hk ⟨same.1.symm, same.2.symm⟩
    | succ k =>
      rw [next]
      exact others.mapped k (Nat.lt_of_succ_lt_succ hk)
  · intro va hva
    rw [others.rest va, first.ptes, if_neg]
    · have := hva 0 (Nat.succ_pos n)
      rwa [Nat.zero_mul, Nat.add_zero] at this
    · intro k hk
      rw [← next]
      exact hva (k + 1) (Nat.succ_lt_succ hk)
  · refine le_trans ?_ others.leaves
    rw [first.leaves]
    exact Multiset.le_cons_self _ _
  · intro p hp
    have out := Space.leaf_apart apart hp
    rw [others.content p, first.frame p out.1 out.2]
    rw [first.leaves]
    exact Multiset.mem_cons_of_mem hp
  · rw [tablesNeeded_succ first.walks, first.cost, others.cost]
    omega

theorem uvmHeapGrowLoop_grown (sp : Space L s free r)
    (apart : ((free : Multiset ℕ) + tablePages L s.mem r).Nodup) (hlo : lo % PGSIZE = 0)
    (hend : lo + n * PGSIZE ≤ TRAPFRAME)
    (hr : (uvmHeapGrowLoop L r top new n lo).run s = .ok h s') :
    h = ⟨new, new⟩ ∧ ∃ free', Grown L r lo n s free s' free' := by
  induction n generalizing lo s free with
  | zero =>
    cases hr
    exact ⟨rfl, free, .refl sp lo⟩
  | succ n ih =>
    unfold uvmHeapGrowLoop at hr
    obtain ⟨mem, t, halloc, hr⟩ := (Comp.bind_ok_iff _ _ _ _ _).mp hr
    obtain ⟨_, _, _, _, hmem, _⟩ := sp.alloc halloc
    simp only [Nat.ne_of_gt hmem.pos, if_false] at hr
    rw [memzero, Comp.bind_modify_run] at hr
    obtain ⟨_, u, hmap, hr⟩ := (Comp.bind_ok_iff _ _ _ _ _).mp hr
    have hlt : lo + PGSIZE ≤ 2 ^ 64 := by
      simp only [TRAPFRAME, TRAMPOLINE, MAXVA, PGSIZE] at hend ⊢
      omega
    obtain ⟨free₁, first⟩ := mapNew sp halloc (by decide) hlo hlt hmap
    obtain ⟨rfl, free', others⟩ := ih first.keeps.space (first.keeps.apart apart)
      (by rw [Nat.add_mod_right]; exact hlo)
      (by rw [Nat.add_one_mul] at hend; omega) hr
    refine ⟨rfl, free', others.cons apart first ?_⟩
    simp only [TRAPFRAME, TRAMPOLINE, MAXVA, PGSIZE] at hend ⊢
    omega

theorem uvmHeapGrowLoop_returns (sp : Space L s free r) (hlo : lo % PGSIZE = 0)
    (hend : lo + n * PGSIZE ≤ TRAPFRAME)
    (unmapped : ∀ k < n, pteAt L s.mem r (lo + k * PGSIZE) = 0)
    (room : n + tablesNeeded L s.mem r lo n ≤ free.length) :
    ∃ s', (uvmHeapGrowLoop L r top new n lo).run s = .ok ⟨new, new⟩ s' := by
  induction n generalizing lo s free with
  | zero => exact ⟨s, rfl⟩
  | succ n ih =>
    have hlt : lo + PGSIZE ≤ 2 ^ 64 := by
      simp only [TRAPFRAME, TRAMPOLINE, MAXVA, PGSIZE] at hend ⊢
      omega
    have here := unmapped 0 (Nat.succ_pos n)
    rw [Nat.zero_mul, Nat.add_zero] at here
    obtain ⟨mem, t, halloc, -⟩ := pmemAlloc_returns (s := s) (by
      rw [sp.list.allocable]
      omega)
    obtain ⟨_, _, _, _, hmem, _⟩ := sp.alloc halloc
    unfold uvmHeapGrowLoop
    rw [Comp.run_bind_of_ok halloc, if_neg (Nat.ne_of_gt hmem.pos), memzero, Comp.bind_modify_run]
    have enough : tablesFor L s.mem r lo < free.length := by
      have paths : tablesFor L s.mem r lo ≤ tablesNeeded L s.mem r lo (n + 1) := by
        rw [← card_tablesFor, tablesNeeded, tablePaths_succ, Finset.filter_union]
        exact Finset.card_le_card Finset.subset_union_left
      omega
    obtain ⟨u, hmap⟩ : ∃ u, (vmMappages r lo mem PGSIZE (PTE_W ||| PTE_R ||| PTE_U)).run
        (t.setPage mem fun _ => Bytes.zero) = .ok () u :=
      mapNew_returns sp halloc here hlo hlt enough
    obtain ⟨free₁, first⟩ := mapNew sp halloc (by decide) hlo hlt hmap
    rw [Comp.run_bind_of_ok hmap]
    refine ih first.keeps.space (by rw [Nat.add_mod_right]; exact hlo)
      (by rw [Nat.add_one_mul] at hend; omega) ?_ ?_
    · intro k hk
      have unmapped := unmapped (k + 1) (Nat.succ_lt_succ hk)
      rw [Nat.add_one_mul, Nat.add_comm (k * PGSIZE), ← Nat.add_assoc] at unmapped
      rw [first.ptes, if_neg, unmapped]
      rw [sameEntry_iff] <;> simp only [TRAPFRAME, TRAMPOLINE, MAXVA, PGSIZE] at * <;> omega
    · rw [tablesNeeded_succ first.walks, first.cost] at room
      omega

end Grow

section Shrink

variable {L : Layout} {s s' : Pmem} {free : List ℕ} {r va n q : ℕ}

/-- An entry that `vm_unmappages` takes out of the table and whose page it frees. -/
def Leaf (L : Layout) (pte : ℕ) : Prop :=
  isValid pte ∧ PTE_FLAGS pte ≠ PTE_V ∧ InRange L (PTE2PA pte)

theorem vmUnmappage_leaf (sp : Space L s free r)
    (hr : (vmUnmappage L r va true).run s = .ok () s') : Leaf L (pteAt L s.mem r va) := by
  obtain ⟨-, s₁, -, valid, hfree, -⟩ := vmUnmappage_ok sp hr
  refine ⟨valid, ?_, (pmemFree_ok hfree).1⟩
  intro upper
  unfold vmUnmappage at hr
  rw [Comp.run_bind_of_ok (vmGetpte_find sp.tree va)] at hr
  cases hw : walk (child L s.mem) (path va) r with
  | none =>
    rw [hw] at hr
    cases hr
  | some t =>
    rw [TreeOk.pteAt_eq hw] at valid upper
    rw [hw] at hr
    simp only [Option.map_some, Comp.bind_gets_run, pte_eq_entry, valid, Bool.not_true,
      Bool.false_eq_true, if_false, if_pos upper] at hr
    cases hr

theorem vmUnmappage_frees (sp : Space L s free r) (leaf : Leaf L (pteAt L s.mem r va)) :
    ∃ t, (vmUnmappage L r va true).run s = .ok () t := by
  obtain ⟨valid, flags, range⟩ := leaf
  unfold vmUnmappage
  rw [Comp.run_bind_of_ok (vmGetpte_find sp.tree va)]
  cases hw : walk (child L s.mem) (path va) r with
  | none =>
    unfold pteAt at valid
    rw [hw, Option.elim_none] at valid
    cases valid
  | some t =>
    rw [TreeOk.pteAt_eq hw] at valid flags range
    simp only [Option.map_some, Comp.bind_gets_run, pte_eq_entry, valid, Bool.not_true,
      Bool.false_eq_true, if_false, if_neg flags, if_true]
    rw [Comp.run_bind_of_ok (pmemFree_returns range)]
    exact ⟨_, rfl⟩

/-- The pages of `n` entries from `va` on are given back. -/
structure Shrunk (L : Layout) (r va n : ℕ) (s : Pmem) (free : List ℕ) (s' : Pmem)
    (free' : List ℕ) : Prop where
  keeps : Keeps L r s free s' free'
  mapped : ∀ k < n, Leaf L (pteAt L s.mem r (va + k * PGSIZE))
  ptes : ∀ va', pteAt L s'.mem r va' = pteAt L s.mem r va' ∨
    pteAt L s'.mem r va' = 0 ∧ ∃ k < n, SameEntry (va + k * PGSIZE) va'
  gone : ∀ k < n, pteAt L s'.mem r (va + k * PGSIZE) = 0
  leaves : tableLeaves L s'.mem r ≤ tableLeaves L s.mem r
  content : ∀ q ∈ tableLeaves L s'.mem r, s'.mem q = s.mem q
  length : free'.length = free.length + n

theorem Shrunk.refl (sp : Space L s free r) (va : ℕ) : Shrunk L r va 0 s free s free where
  keeps := .refl sp
  mapped _ hk := absurd hk (Nat.not_lt_zero _)
  ptes _ := Or.inl rfl
  gone _ hk := absurd hk (Nat.not_lt_zero _)
  leaves := le_rfl
  content _ _ := rfl
  length := rfl

theorem leafOf_of_leaf {pte : ℕ} (h : Leaf L pte) : leafOf L pte = {PTE2PA pte} := if_pos h.2.2

/-- One page more. -/
theorem Shrunk.snoc {t u : Pmem} {free₁ : List ℕ}
    (apart : ((free : Multiset ℕ) + tablePages L s.mem r).Nodup)
    (h : Shrunk L r va n s free t free₁)
    (hr : (vmUnmappage L r (va + n * PGSIZE) true).run t = .ok () u) :
    ∃ free', Shrunk L r va (n + 1) s free u free' := by
  have apart₁ := h.keeps.apart apart
  have leaf := vmUnmappage_leaf h.keeps.space hr
  have apart' := apart₁
  unfold tablePages at apart'
  rw [← add_assoc] at apart'
  obtain ⟨q, sp, nodes, leaves, frame, ptes⟩ := vmUnmappage_free h.keeps.space apart' hr
  have nodup : (tableLeaves L t.mem r).Nodup := (Multiset.nodup_add.mp apart').2.1
  rw [leaves, Multiset.nodup_cons] at nodup
  refine ⟨q :: free₁, h.keeps.trans ⟨sp, ?_, ?_, ?_⟩, ?_, ?_, ?_, ?_, ?_, ?_⟩
  · unfold tablePages
    rw [nodes, leaves, ← Multiset.cons_coe, ← Multiset.singleton_add, ← Multiset.singleton_add]
    abel
  · intro p _ hp
    rw [tablePages, Multiset.mem_add, not_or, leaves, Multiset.mem_cons, not_or] at hp
    exact frame p hp.2.1 hp.1
  · intro va'
    rw [ptes]
    split
    · exact Or.inr (Or.inl rfl)
    · exact Or.inl rfl
  · intro k hk
    rcases Nat.lt_succ_iff_lt_or_eq.mp hk with hk | rfl
    · exact h.mapped k hk
    · rcases h.ptes (va + k * PGSIZE) with same | ⟨zero, -⟩
      · rwa [same] at leaf
      · rw [zero] at leaf
        exact absurd leaf.1 (by decide)
  · intro va'
    rw [ptes]
    by_cases here : SameEntry (va + n * PGSIZE) va'
    · rw [if_pos here]
      exact Or.inr ⟨rfl, n, Nat.lt_succ_self n, here⟩
    · rw [if_neg here]
      rcases h.ptes va' with same | ⟨zero, k, hk, entry⟩
      · exact Or.inl same
      · exact Or.inr ⟨zero, k, Nat.lt_succ_of_lt hk, entry⟩
  · intro k hk
    rw [ptes]
    split
    · rfl
    next other =>
    rcases Nat.lt_succ_iff_lt_or_eq.mp hk with hk | rfl
    · exact h.gone k hk
    · exact absurd ⟨rfl, rfl⟩ other
  · refine le_trans ?_ h.leaves
    rw [leaves]
    exact Multiset.le_cons_self _ _
  · intro p hp
    have before : p ∈ tableLeaves L t.mem r := by
      rw [leaves]
      exact Multiset.mem_cons_of_mem hp
    have out := Space.leaf_apart apart₁ before
    rw [frame p (ne_of_mem_of_not_mem hp nodup.1) out.2, h.content p before]
  · rw [List.length_cons, h.length]
    rfl

theorem unmapLoop_shrunk (sp : Space L s free r)
    (apart : ((free : Multiset ℕ) + tablePages L s.mem r).Nodup)
    (hr : (Comp.forUpTo n fun k => vmUnmappage L r (va + k * PGSIZE) true).run s = .ok () s') :
    ∃ free', Shrunk L r va n s free s' free' := by
  refine Comp.forUpTo_ok (fun k t => ∃ free', Shrunk L r va k s free t free')
    ⟨free, .refl sp va⟩ ?_ hr
  rintro k - t u ⟨free₁, h⟩ hbody
  exact h.snoc apart hbody

theorem unmapLoop_returns (sp : Space L s free r)
    (apart : ((free : Multiset ℕ) + tablePages L s.mem r).Nodup)
    (hend : va + n * PGSIZE ≤ 2 ^ 39)
    (mapped : ∀ k < n, Leaf L (pteAt L s.mem r (va + k * PGSIZE))) :
    ∃ s', (Comp.forUpTo n fun k => vmUnmappage L r (va + k * PGSIZE) true).run s = .ok () s' := by
  have low : ∀ k < n, va + k * PGSIZE < 2 ^ 39 := by
    intro k hk
    simp only [PGSIZE] at *
    omega
  refine (Comp.forUpTo_returns (fun k t => ∃ free', Shrunk L r va k s free t free')
    ⟨free, .refl sp va⟩ ?_).imp fun _ h => h.1
  rintro k hk t ⟨free₁, h⟩
  have here : pteAt L t.mem r (va + k * PGSIZE) = pteAt L s.mem r (va + k * PGSIZE) := by
    rcases h.ptes (va + k * PGSIZE) with same | ⟨-, j, hj, entry⟩
    · exact same
    · exact absurd entry
        (not_sameEntry_round (low j (Nat.lt_trans hj hk)) (low k hk) (Nat.ne_of_lt hj))
  obtain ⟨u, hu⟩ := vmUnmappage_frees h.keeps.space (by rw [here]; exact mapped k hk)
  exact ⟨u, hu, h.snoc apart hu⟩

end Shrink

section Calls

variable {L : Layout} {s s' : Pmem} {free : List ℕ} {r top len va : ℕ} {h : Heap}

/-- The pages of `len` bytes from a page boundary on. -/
def pagesFor (len : ℕ) : ℕ := (len + (PGSIZE - 1)) / PGSIZE

theorem rounds_add (lo len : ℕ) : rounds lo (lo + len) = pagesFor len := by
  rw [rounds, Nat.add_sub_cancel_left, pagesFor]

theorem pg_round_up_of_le (htop : top ≤ TRAPFRAME) : PG_ROUND_UP top = pagesFor top * PGSIZE := by
  simp only [PG_ROUND_UP, pagesFor, TRAPFRAME, TRAMPOLINE, MAXVA, PGSIZE] at *
  omega

theorem pg_round_up_mono (hlen : len ≤ top) (htop : top ≤ TRAPFRAME) :
    PG_ROUND_UP len ≤ PG_ROUND_UP top := by
  rw [pg_round_up_of_le htop, pg_round_up_of_le (Nat.le_trans hlen htop)]
  exact Nat.mul_le_mul_right _ (Nat.div_le_div_right (Nat.add_le_add_right hlen _))

theorem pg_round_up_aligned (top : ℕ) : PG_ROUND_UP top % PGSIZE = 0 := Nat.mul_mod_left ..

theorem uvmHeapGrow_grown (sp : Space L s free r)
    (apart : ((free : Multiset ℕ) + tablePages L s.mem r).Nodup) (htop : top ≤ TRAPFRAME)
    (htf : pteAt L s.mem r TRAPFRAME ≠ 0) (hlen : len < 2 ^ 32)
    (hr : (uvmHeapGrow L r top len).run s = .ok h s') :
    h = ⟨PG_ROUND_UP top + len, PG_ROUND_UP top + len⟩ ∧
      PG_ROUND_UP top + pagesFor len * PGSIZE ≤ TRAPFRAME ∧
      ∃ free', Grown L r (PG_ROUND_UP top) (pagesFor len) s free s' free' := by
  have hle : PG_ROUND_UP top ≤ TRAPFRAME := by
    simp only [PG_ROUND_UP, TRAPFRAME, TRAMPOLINE, MAXVA, PGSIZE] at htop ⊢
    omega
  have small : (PG_ROUND_UP top + len) % 2 ^ 64 = PG_ROUND_UP top + len := by
    refine Nat.mod_eq_of_lt ?_
    simp only [TRAPFRAME, TRAMPOLINE, MAXVA, PGSIZE] at hle
    omega
  unfold uvmHeapGrow at hr
  dsimp only at hr
  rw [small, rounds_add] at hr
  obtain ⟨-, -, -, hend, -⟩ :=
    uvmHeapGrowLoop_ok sp apart (pg_round_up_aligned top) hle htf hr
  obtain ⟨rfl, grown⟩ := uvmHeapGrowLoop_grown sp apart (pg_round_up_aligned top) hend hr
  exact ⟨rfl, hend, grown⟩

theorem uvmHeapGrow_returns (sp : Space L s free r) (htop : top ≤ TRAPFRAME)
    (aligned : top % PGSIZE = 0) (hend : top + pagesFor len * PGSIZE ≤ TRAPFRAME)
    (unmapped : ∀ k < pagesFor len, pteAt L s.mem r (top + k * PGSIZE) = 0)
    (room : pagesFor len + tablesNeeded L s.mem r top (pagesFor len) ≤ free.length) :
    ∃ s', (uvmHeapGrow L r top len).run s = .ok ⟨top + len, top + len⟩ s' := by
  have up : PG_ROUND_UP top = top := by
    simp only [PG_ROUND_UP, TRAPFRAME, TRAMPOLINE, MAXVA, PGSIZE] at htop aligned ⊢
    omega
  have small : (top + len) % 2 ^ 64 = top + len := by
    refine Nat.mod_eq_of_lt ?_
    simp only [pagesFor, TRAPFRAME, TRAMPOLINE, MAXVA, PGSIZE] at hend
    omega
  unfold uvmHeapGrow
  dsimp only
  rw [up, small, rounds_add]
  exact uvmHeapGrowLoop_returns sp aligned hend unmapped room

/-- The rounds of `vm_unmappages`, whose `len_rounded` is an `int`. -/
def unmapRounds (va len : ℕ) : ℕ :=
  rounds va ((va + Int.bmod (PG_ROUND_UP len) (2 ^ 32)) % 2 ^ 64).toNat

theorem unmapRounds_small (hva : va ≤ MAXVA) (hlen : PG_ROUND_UP len < 2 ^ 31)
    (h32 : len < 2 ^ 32) : unmapRounds va len = pagesFor len := by
  have up : PG_ROUND_UP len = pagesFor len * PGSIZE := by
    simp only [PG_ROUND_UP, pagesFor, PGSIZE]
    omega
  have hb : Int.bmod (PG_ROUND_UP len) (2 ^ 32) = PG_ROUND_UP len := by
    rw [Int.bmod_eq_of_le] <;> omega
  rw [unmapRounds, hb, up, rounds]
  rw [up] at hlen
  simp only [pagesFor, PGSIZE, MAXVA] at *
  omega

/-- A length from `2 ^ 31` on is negative. -/
theorem bmod_large (hlen : 2 ^ 31 ≤ PG_ROUND_UP len) (h32 : len < 2 ^ 32) :
    Int.bmod (PG_ROUND_UP len) (2 ^ 32) = PG_ROUND_UP len - 2 ^ 32 := by
  have up : PG_ROUND_UP len ≤ 2 ^ 32 := by
    simp only [PG_ROUND_UP, PGSIZE]
    omega
  rw [Int.bmod_def]
  split <;> omega

theorem unmapRounds_zero (hva : va ≤ MAXVA) (hlen : 2 ^ 31 ≤ PG_ROUND_UP len) (h32 : len < 2 ^ 32)
    (low : 2 ^ 32 ≤ va + PG_ROUND_UP len) : unmapRounds va len = 0 := by
  have up : PG_ROUND_UP len ≤ 2 ^ 32 := by
    simp only [PG_ROUND_UP, PGSIZE]
    omega
  rw [unmapRounds, bmod_large hlen h32, rounds]
  simp only [PGSIZE, MAXVA] at *
  omega

theorem unmapRounds_huge (hva : va ≤ MAXVA) (hlen : 2 ^ 31 ≤ PG_ROUND_UP len) (h32 : len < 2 ^ 32)
    (high : va + PG_ROUND_UP len < 2 ^ 32) : PHYSTOP / PGSIZE < unmapRounds va len := by
  rw [unmapRounds, bmod_large hlen h32, rounds]
  simp only [PGSIZE, MAXVA, PHYSTOP] at *
  omega

theorem uvmHeapUngrow_run (htop : top ≤ TRAPFRAME) (hlen : len ≤ top)
    (aligned : (top - len) % PGSIZE = 0) : uvmHeapUngrow L r top len =
      (Comp.forUpTo (unmapRounds (top - len) len)
        fun k => vmUnmappage L r (top - len + k * PGSIZE) true) >>= fun _ =>
          pure ⟨top - len, top - len⟩ := by
  have hnew : (top + 2 ^ 64 - len) % 2 ^ 64 = top - len := by
    simp only [TRAPFRAME, TRAMPOLINE, MAXVA, PGSIZE] at htop
    omega
  unfold uvmHeapUngrow vmUnmappages
  rw [hnew]
  dsimp only
  rw [if_neg (not_not.mpr aligned)]
  rfl

theorem uvmHeapUngrow_shrunk (sp : Space L s free r)
    (apart : ((free : Multiset ℕ) + tablePages L s.mem r).Nodup) (htop : top ≤ TRAPFRAME)
    (hlen : len ≤ top) (hr : (uvmHeapUngrow L r top len).run s = .ok h s') :
    h = ⟨top - len, top - len⟩ ∧ (top - len) % PGSIZE = 0 ∧
      unmapRounds (top - len) len ≤ PHYSTOP / PGSIZE ∧
      ∃ free', Shrunk L r (top - len) (unmapRounds (top - len) len) s free s' free' := by
  have hnew : (top + 2 ^ 64 - len) % 2 ^ 64 = top - len := by
    simp only [TRAPFRAME, TRAMPOLINE, MAXVA, PGSIZE] at htop
    omega
  by_cases aligned : (top - len) % PGSIZE = 0
  swap
  · unfold uvmHeapUngrow vmUnmappages at hr
    rw [hnew] at hr
    dsimp only at hr
    rw [if_pos aligned] at hr
    cases hr
  rw [uvmHeapUngrow_run htop hlen aligned] at hr
  obtain ⟨_, t, loop, hr⟩ := (Comp.bind_ok_iff _ _ _ _ _).mp hr
  cases hr
  obtain ⟨free', shrunk⟩ := unmapLoop_shrunk sp apart loop
  refine ⟨rfl, aligned, ?_, free', shrunk⟩
  -- every round frees a page
  have few := shrunk.keeps.space.list.length_le shrunk.keeps.space.nodup
  rw [shrunk.length] at few
  exact Nat.le_trans (Nat.le_add_left _ _) few

theorem uvmHeapUngrow_returns (sp : Space L s free r)
    (apart : ((free : Multiset ℕ) + tablePages L s.mem r).Nodup) (htop : top ≤ TRAPFRAME)
    (hlen : len ≤ top) (aligned : (top - len) % PGSIZE = 0)
    (hend : top - len + unmapRounds (top - len) len * PGSIZE ≤ 2 ^ 39)
    (mapped : ∀ k < unmapRounds (top - len) len,
      Leaf L (pteAt L s.mem r (top - len + k * PGSIZE))) :
    ∃ s', (uvmHeapUngrow L r top len).run s = .ok ⟨top - len, top - len⟩ s' := by
  obtain ⟨s', loop⟩ := unmapLoop_returns sp apart hend mapped
  rw [uvmHeapUngrow_run htop hlen aligned, Comp.run_bind_of_ok loop]
  exact ⟨s', rfl⟩

end Calls

end EasyXv6.Mem
