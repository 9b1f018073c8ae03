import EasyXv6.Mem.Space

set_option autoImplicit false

/-!
# User address spaces (uvm.c)
-/
namespace EasyXv6.Mem
open Lib Radix Finset

/-- `depth` is `3 - level`. -/
def destroyPgtbl (L : Layout) : (depth : ℕ) → (pgtbl : ℕ) → Comp Pmem Unit
  | 0, pgtbl => if pgtbl = 0 then pure () else pmemFree L pgtbl
  | depth + 1, pgtbl =>
    if pgtbl = 0 then
      pure ()
    else do
      .forUpTo 512 fun i => do
        let pte ← .gets (·.pte pgtbl i)
        if PTE2PA pte ≠ 0 then destroyPgtbl L depth (PTE2PA pte) else pure ()
      pmemFree L pgtbl

def uvmDestroyPgtbl (L : Layout) (pgtbl : ℕ) : Comp Pmem Unit := do
  vmUnmappages L pgtbl TRAMPOLINE PGSIZE false
  vmUnmappages L pgtbl TRAPFRAME PGSIZE false
  destroyPgtbl L 3 pgtbl

/-- The body of the loop of `uvm_copy_pgtbl`. -/
def uvmCopyPage (L : Layout) (old new va : ℕ) : Comp Pmem Unit := do
  match ← vmGetpte old va false with
  | none => .halt "uvmcopy: pte should exist"
  | some (t, i) =>
    let pte ← .gets (·.pte t i)
    if !isValid pte then
      .halt "uvmcopy: page not present"
    else
      let mem ← pmemAlloc
      (if mem = 0 then vmUnmappages L new 0 (va / PGSIZE) true else pure ())
      let s ← .get
      .modify (·.setPage mem fun _ => s.mem (PTE2PA pte))
      -- `flags` is a `uint8`
      vmMappages new va mem PGSIZE (PTE_FLAGS pte % 2 ^ 8)

def uvmCopyPgtbl (L : Layout) (old new heapTop : ℕ) : Comp Pmem Unit :=
  .forUpTo (rounds 0 heapTop) fun k => uvmCopyPage L old new (k * PGSIZE)

/-- What `uvm_heap_grow` and `uvm_heap_ungrow` return, and the `heap_top` that they set. -/
structure Heap where
  ret : ℕ
  heapTop : ℕ

def uvmHeapUngrow (L : Layout) (pgtbl heapTop len : ℕ) : Comp Pmem Heap := do
  let newHeapTop := (heapTop + 2 ^ 64 - len) % 2 ^ 64
  vmUnmappages L pgtbl newHeapTop len true
  return ⟨newHeapTop, newHeapTop⟩

/-- The loop of `uvm_heap_grow` with `n` rounds to go. -/
def uvmHeapGrowLoop (L : Layout) (pgtbl heapTop newHeapTop : ℕ) : (n : ℕ) → (a : ℕ) →
    Comp Pmem Heap
  | 0, _ => pure ⟨newHeapTop, newHeapTop⟩
  | n + 1, a => do
    let mem ← pmemAlloc
    if mem = 0 then
      let h ← uvmHeapUngrow L pgtbl a ((a - heapTop) % 2 ^ 32)
      return { h with ret := 2 ^ 64 - 1 }
    else
      memzero mem
      vmMappages pgtbl a mem PGSIZE (PTE_W ||| PTE_R ||| PTE_U)
      uvmHeapGrowLoop L pgtbl heapTop newHeapTop n (a + PGSIZE)

def uvmHeapGrow (L : Layout) (pgtbl heapTop len : ℕ) : Comp Pmem Heap :=
  let heapTop := PG_ROUND_UP heapTop
  let newHeapTop := (heapTop + len) % 2 ^ 64
  uvmHeapGrowLoop L pgtbl heapTop newHeapTop (rounds heapTop newHeapTop) heapTop

/-- A round of the loop of `uvm_copyout`, until `len` is 0: `src` is the source from the byte that
    is copied next. -/
def uvmCopyoutLoop (pgtbl : ℕ) : (fuel : ℕ) → (dst : ℕ) → (src : ℕ → UInt8) → (len : ℕ) →
    Comp Pmem Bool
  | 0, _, _, _ => pure true
  | fuel + 1, dst, src, len =>
    if len = 0 then
      pure true
    else do
      let va0 := PG_ROUND_DOWN dst
      if MAXVA ≤ va0 then
        return false
      else
        let pa0 ← vmGetpa pgtbl va0
        if pa0 = 0 then
          return false
        else
          let n := min (PGSIZE - (dst - va0)) len
          .modify (·.setPage pa0 (·.put (dst - va0) n src))
          uvmCopyoutLoop pgtbl fuel ((va0 + PGSIZE) % 2 ^ 64) (fun i => src (i + n)) (len - n)

/-- `true` for 0 and `false` for -1. Every round copies at least one byte. -/
def uvmCopyout (pgtbl dst : ℕ) (src : ℕ → UInt8) (len : ℕ) : Comp Pmem Bool :=
  uvmCopyoutLoop pgtbl len dst src len

section Destroy

variable {L : Layout} {s s' : Pmem} {free : List ℕ} {p q d : ℕ}

theorem destroy_inRange (hp : p ≠ 0) (hr : (destroyPgtbl L d p).run s = .ok () s') :
    InRange L p := by
  cases d with
  | zero =>
    rw [destroyPgtbl, if_neg hp] at hr
    exact (pmemFree_ok hr).1
  | succ d =>
    rw [destroyPgtbl, if_neg hp] at hr
    obtain ⟨_, _, _, hr⟩ := (Comp.bind_ok_iff _ _ _ _ _).mp hr
    exact (pmemFree_ok hr).1

theorem mem_pages_of_node {m : ℕ → Page} (h : q ∈ nodes 512 (child L m) d p) :
    q ∈ pages 512 (child L m) d p := by
  rw [pages_eq]
  exact Multiset.mem_add.mpr (Or.inl h)

/-- What hangs at the entry `i` of a page. -/
def below (L : Layout) (m : ℕ → Page) (d p i : ℕ) : Multiset ℕ :=
  (child L m p i).elim 0 (pages 512 (child L m) d)

theorem pages_eq_below (L : Layout) (m : ℕ → Page) (d p : ℕ) :
    pages 512 (child L m) (d + 1) p = {p} + ∑ i ∈ range 512, below L m d p i := pages_succ ..

theorem below_of_null {m : ℕ → Page} {i : ℕ} (h : PTE2PA (entry m p i) = 0) :
    below L m d p i = 0 := by
  have none : child L m p i = none := by
    rw [child, h, if_neg]
    intro h0
    exact absurd h0.pos (Nat.lt_irrefl 0)
  rw [below, none, Option.elim_none]

theorem below_of_range {m : ℕ → Page} {i : ℕ} (h : InRange L (PTE2PA (entry m p i))) :
    below L m d p i = pages 512 (child L m) d (PTE2PA (entry m p i)) := by
  rw [below, child, if_pos h, Option.elim_some]

/-- A table that is destroyed gives all its pages back. -/
def DestroyOk (L : Layout) (d : ℕ) : Prop :=
  ∀ {p : ℕ} {s s' : Pmem} {free : List ℕ}, p ≠ 0 → FreeList L s free →
    ((free : Multiset ℕ) + pages 512 (child L s.mem) d p).Nodup →
    (destroyPgtbl L d p).run s = .ok () s' →
    ∃ free', FreeList L s' free' ∧ (free' : Multiset ℕ) = free + pages 512 (child L s.mem) d p ∧
      ∀ q ∉ pages 512 (child L s.mem) d p, s'.mem q = s.mem q

def destroyRound (L : Layout) (d p i : ℕ) : Comp Pmem Unit := do
  let pte ← .gets (·.pte p i)
  if PTE2PA pte ≠ 0 then destroyPgtbl L d (PTE2PA pte) else pure ()

theorem destroyPgtbl_succ (hp : p ≠ 0) : destroyPgtbl L (d + 1) p =
    (Comp.forUpTo 512 (destroyRound L d p) >>= fun _ => pmemFree L p) := by
  rw [destroyPgtbl, if_neg hp]
  rfl

/-- After `n` rounds of the loop the pages of the first `n` entries are free. -/
structure DestroyedTo (L : Layout) (s : Pmem) (free : List ℕ) (d p n : ℕ) (t : Pmem) : Prop where
  list : ∃ fr : List ℕ, FreeList L t fr ∧
    (fr : Multiset ℕ) = free + ∑ i ∈ range n, below L s.mem d p i
  same : ∀ q ∉ ∑ i ∈ range n, below L s.mem d p i, t.mem q = s.mem q

/-- The pages of a table, its root apart. -/
theorem apart_below (apart : ((free : Multiset ℕ) + pages 512 (child L s.mem) (d + 1) p).Nodup) :
    p ∉ (free : Multiset ℕ) ∧ p ∉ ∑ i ∈ range 512, below L s.mem d p i ∧
      ((free : Multiset ℕ) + ∑ i ∈ range 512, below L s.mem d p i).Nodup := by
  rw [pages_eq_below] at apart
  generalize ∑ i ∈ range 512, below L s.mem d p i = all at apart ⊢
  have root := apart
  rw [add_left_comm, Multiset.singleton_add, Multiset.nodup_cons, Multiset.mem_add, not_or] at root
  exact ⟨root.1.1, root.1.2, root.2⟩

theorem below_upTo {k : ℕ} (hk : k ≤ 512) : ∑ i ∈ range k, below L s.mem d p i ≤
    ∑ i ∈ range 512, below L s.mem d p i :=
  sum_le_sum_of_subset (range_subset_range.mpr hk)

set_option linter.constructorNameAsVariable false in
/-- What the next round finds: the entry as it was, and a subtree that nobody has touched. -/
theorem DestroyedTo.round {k : ℕ} {t : Pmem} (h : DestroyedTo L s free d p k t) (hk : k < 512)
    (apart : ((free : Multiset ℕ) + pages 512 (child L s.mem) (d + 1) p).Nodup) :
    entry t.mem p k = entry s.mem p k ∧
      (InRange L (PTE2PA (entry s.mem p k)) → ∃ fr : List ℕ, FreeList L t fr ∧
        (fr : Multiset ℕ) = free + ∑ i ∈ range k, below L s.mem d p i ∧
        pages 512 (child L t.mem) d (PTE2PA (entry s.mem p k)) = below L s.mem d p k ∧
        (∀ b ∈ below L s.mem d p k, t.mem b = s.mem b) ∧
        ((fr : Multiset ℕ) +
          pages 512 (child L t.mem) d (PTE2PA (entry s.mem p k))).Nodup) := by
  obtain ⟨-, root, rest⟩ := apart_below apart
  obtain ⟨fr, list, sum⟩ := h.list
  have up := below_upTo (L := L) (s := s) (d := d) (p := p) (Nat.le_of_lt hk)
  have next := below_upTo (L := L) (s := s) (d := d) (p := p) (Nat.succ_le_of_lt hk)
  rw [sum_range_succ] at next
  have same := h.same
  generalize hsum : ∑ i ∈ range k, below L s.mem d p i = done at up next sum same
  generalize ∑ i ∈ range 512, below L s.mem d p i = all at root rest up next
  have notYet : ∀ q ∈ below L s.mem d p k, q ∉ done := by
    intro q hq hq'
    have := Multiset.nodup_of_le next (Multiset.nodup_add.mp rest).2.1
    exact Multiset.disjoint_left.mp (Multiset.nodup_add.mp this).2.2 hq' hq
  refine ⟨entry_congr (same p fun hin => root (Multiset.mem_of_le up hin)), ?_⟩
  intro hr
  have hpages := below_of_range (L := L) (m := s.mem) (d := d) hr
  have untouched : ∀ b ∈ below L s.mem d p k, t.mem b = s.mem b :=
    fun b hb => same b (notYet b hb)
  have pagesT : pages 512 (child L t.mem) d (PTE2PA (entry s.mem p k)) = below L s.mem d p k := by
    rw [hpages]
    refine gather_of_same fun b hb => untouched b ?_
    rw [hpages]
    exact mem_pages_of_node hb
  refine ⟨fr, list, sum, pagesT, untouched, ?_⟩
  rw [pagesT, sum, add_assoc]
  exact Multiset.nodup_of_le (add_le_add_right next _) rest

theorem destroyLoop_ok {n : ℕ} {t : Pmem} (sub : DestroyOk L d) (hn : n ≤ 512)
    (list : FreeList L s free)
    (apart : ((free : Multiset ℕ) + pages 512 (child L s.mem) (d + 1) p).Nodup)
    (hr : (Comp.forUpTo n (destroyRound L d p)).run s = .ok () t) : DestroyedTo L s free d p n t := by
  refine Comp.forUpTo_ok (DestroyedTo L s free d p)
    ⟨⟨free, list, by rw [sum_range_zero, add_zero]⟩, fun _ _ => rfl⟩ ?_ hr
  intro k hk t v h hbody
  obtain ⟨here, found⟩ := h.round (Nat.lt_of_lt_of_le hk hn) apart
  simp only [destroyRound, Comp.bind_gets_run, pte_eq_entry, here, Comp.run_ite] at hbody
  by_cases hz : PTE2PA (entry s.mem p k) = 0
  · rw [if_neg (not_not.mpr hz)] at hbody
    cases hbody
    have none : below L s.mem d p k = 0 := below_of_null hz
    refine ⟨?_, ?_⟩
    · rw [sum_range_succ, none, add_zero]
      exact h.list
    · rw [sum_range_succ, none, add_zero]
      exact h.same
  · rw [if_pos hz] at hbody
    obtain ⟨fr, list', sum, pagesT, -, apartT⟩ := found (destroy_inRange hz hbody)
    obtain ⟨fr', list'', sum', same'⟩ := sub hz list' apartT hbody
    rw [pagesT] at sum' same'
    refine ⟨⟨fr', list'', ?_⟩, ?_⟩
    · rw [sum', sum, sum_range_succ, add_assoc]
    · intro q hq
      rw [sum_range_succ, Multiset.mem_add, not_or] at hq
      rw [same' q hq.2, h.same q hq.1]

theorem destroyPgtbl_ok : DestroyOk L d := by
  induction d with
  | zero =>
    intro p s s' free hp list apart hr
    rw [destroyPgtbl, if_neg hp] at hr
    obtain ⟨hq, rfl⟩ := pmemFree_ok hr
    rw [pages_zero] at apart ⊢
    refine ⟨p :: free, list.push ?_ hq, ?_, ?_⟩
    · intro h
      exact Multiset.disjoint_left.mp (Multiset.nodup_add.mp apart).2.2 (Multiset.mem_coe.mpr h)
        (Multiset.mem_singleton_self p)
    · rw [← Multiset.cons_coe, ← Multiset.singleton_add, add_comm]
    · exact fun q hq => push_mem_of_ne fun h => hq (Multiset.mem_singleton.mpr h)
  | succ d ih =>
    intro p s s' free hp list apart hr
    rw [destroyPgtbl_succ hp] at hr
    obtain ⟨_, s₁, loop, hr⟩ := (Comp.bind_ok_iff _ _ _ _ _).mp hr
    obtain ⟨hq, rfl⟩ := pmemFree_ok hr
    obtain ⟨⟨fr, listEnd, sumEnd⟩, sameEnd⟩ := destroyLoop_ok ih (Nat.le_refl _) list apart loop
    obtain ⟨notFree, root, -⟩ := apart_below apart
    rw [pages_eq_below]
    generalize ∑ i ∈ range 512, below L s.mem d p i = all at *
    refine ⟨p :: fr, listEnd.push ?_ hq, ?_, ?_⟩
    · rw [← Multiset.mem_coe, sumEnd, Multiset.mem_add, not_or]
      exact ⟨notFree, root⟩
    · rw [← Multiset.cons_coe, sumEnd, ← Multiset.singleton_add, add_left_comm]
    · intro q hq
      rw [Multiset.mem_add, not_or, Multiset.mem_singleton] at hq
      rw [push_mem_of_ne hq.1, sameEnd q hq.2]

theorem pmemFree_returns (h : InRange L p) : (pmemFree L p).run s = .ok () (s.push p) := by
  unfold pmemFree
  rw [Comp.run_ite, if_neg]
  · rfl
  · rintro (bad | bad | bad)
    · exact bad h.1
    · exact Nat.not_lt.mpr h.2.1 bad
    · exact Nat.not_lt.mpr bad h.2.2

/-- A table whose entries are pages of the allocator is destroyed without a panic. -/
theorem destroyPgtbl_returns (hp : InRange L p) (list : FreeList L s free)
    (apart : ((free : Multiset ℕ) + pages 512 (child L s.mem) d p).Nodup)
    (sound : ∀ b ∈ nodes 512 (child L s.mem) d p, ∀ i < 512,
      PTE2PA (entry s.mem b i) = 0 ∨ InRange L (PTE2PA (entry s.mem b i))) :
    ∃ s', (destroyPgtbl L d p).run s = .ok () s' := by
  induction d generalizing p s free with
  | zero =>
    rw [destroyPgtbl, if_neg (Nat.ne_of_gt hp.pos)]
    exact ⟨_, pmemFree_returns hp⟩
  | succ d ih =>
    rw [destroyPgtbl_succ (Nat.ne_of_gt hp.pos)]
    cases hl : (Comp.forUpTo 512 (destroyRound L d p)).run s with
    | ok u t => exact ⟨_, (Comp.run_bind_of_ok hl).trans (pmemFree_returns hp)⟩
    | halt w t =>
      exfalso
      obtain ⟨k, hk, v, before, bad⟩ := Comp.forUpTo_halt_iff.mp hl
      have done := destroyLoop_ok destroyPgtbl_ok (Nat.le_of_lt hk) list apart before
      obtain ⟨here, found⟩ := done.round hk apart
      simp only [destroyRound, Comp.bind_gets_run, pte_eq_entry, here, Comp.run_ite] at bad
      rcases sound p mem_nodes_self k hk with zero | range
      · rw [if_neg (not_not.mpr zero)] at bad
        cases bad
      · rw [if_pos (Nat.ne_of_gt range.pos)] at bad
        obtain ⟨fr, list', -, pagesT, same, apartT⟩ := found range
        have childOf : child L s.mem p k = some (PTE2PA (entry s.mem p k)) :=
          child_eq_some.mpr ⟨rfl, range⟩
        have nodesT : nodes 512 (child L v.mem) d (PTE2PA (entry s.mem p k)) =
            nodes 512 (child L s.mem) d (PTE2PA (entry s.mem p k)) := by
          refine gather_of_same fun b hb => same b ?_
          rw [below_of_range range]
          exact mem_pages_of_node hb
        obtain ⟨s', ok⟩ := ih range list' apartT (by
          intro b hb i hi
          rw [nodesT] at hb
          rw [entry_congr (same b (by rw [below_of_range range]; exact mem_pages_of_node hb))]
          exact sound b (mem_nodes_child hk childOf hb) i hi)
        rw [ok] at bad
        cases bad

/-- An address for every path and index. -/
theorem exists_path {is : List ℕ} {i : ℕ} (his : ∀ j ∈ is, j < 512) (len : is.length = 2)
    (hi : i < 512) : ∃ va, path va = is ∧ PX va 0 = i := by
  obtain ⟨i₂, i₁, rfl⟩ : ∃ i₂ i₁, is = [i₂, i₁] := List.length_eq_two.mp len
  have h₂ := his i₂ (by simp)
  have h₁ := his i₁ (by simp)
  refine ⟨i₂ * 1073741824 + i₁ * 2097152 + i * 4096, ?_, ?_⟩
  · simp only [path, PX_two, PX_one, List.cons.injEq, and_true]
    omega
  · rw [PX_zero]
    omega

/-- Where all that is mapped are pages of the allocator, so is all that the nodes point to. -/
theorem TreeOk.sound {r : ℕ} (ok : TreeOk L s.mem r)
    (backed : ∀ va, pteAt L s.mem r va ≠ 0 → InRange L (PTE2PA (pteAt L s.mem r va))) :
    ∀ b ∈ nodes 512 (child L s.mem) 3 r, ∀ i < 512,
      PTE2PA (entry s.mem b i) = 0 ∨ InRange L (PTE2PA (entry s.mem b i)) := by
  intro b hb i hi
  by_cases h0 : entry s.mem b i = 0
  · rw [h0]
    exact Or.inl rfl
  right
  obtain ⟨is, his, len, hw⟩ := walk_of_mem_nodes hb
  by_cases low : is.length < 2
  · exact (child_eq_some.mp (ok.inner is b his low hw i hi h0)).2
  · obtain ⟨va, rfl, rfl⟩ := exists_path his (by omega) hi
    rw [← TreeOk.pteAt_eq hw] at h0 ⊢
    exact backed va h0

/-- The table from which `destroy_pgtbl` starts: the trapframe is free and, as the trampoline, no
    longer mapped. -/
structure Detached (L : Layout) (s : Pmem) (free : List ℕ) (r tf : ℕ) (s' : Pmem) : Prop where
  list : FreeList L s' (tf :: free)
  tree : TreeOk L s'.mem r
  pages : ((tf :: free : List ℕ) : Multiset ℕ) + pages 512 (child L s'.mem) 3 r =
    free + tablePages L s.mem r
  ptes : ∀ va, pteAt L s'.mem r va =
    if SameEntry TRAPFRAME va then 0 else if SameEntry TRAMPOLINE va then 0 else pteAt L s.mem r va
  frame : ∀ q, q ∉ free → q ∉ tablePages L s.mem r → s'.mem q = s.mem q

/-- `proc_free` frees the trapframe while it is still mapped, then `uvm_destroy_pgtbl` takes it and
    the trampoline out of the table. -/
theorem detach_ok {r tf : ℕ} {s₂ : Pmem} (sp : Space L s free r)
    (apart : ((free : Multiset ℕ) + tablePages L s.mem r).Nodup) (tfRange : InRange L tf)
    (htf : PTE2PA (pteAt L s.mem r TRAPFRAME) = tf)
    (htr : ¬ InRange L (PTE2PA (pteAt L s.mem r TRAMPOLINE)))
    (unmap₂ : (vmUnmappages L r TRAMPOLINE PGSIZE false).run (s.push tf) = .ok () s₂)
    (unmap₃ : (vmUnmappages L r TRAPFRAME PGSIZE false).run s₂ = .ok () s') :
    Detached L s free r tf s' := by
  have leaf : tf ∈ tableLeaves L s.mem r := htf ▸ sp.tree.mem_leaves (htf ▸ tfRange)
  have leafTf : leafOf L (pteAt L s.mem r TRAPFRAME) = {tf} := by
    rw [leafOf, htf, if_pos tfRange]
  have leafTr : leafOf L (pteAt L s.mem r TRAMPOLINE) = 0 := by
    rw [leafOf, if_neg htr]
  obtain ⟨sp₁, nodes₁, leaves₁, ptes₁⟩ := sp.pushLeaf apart tfRange leaf
  rw [vmUnmappages_page (by decide) (by decide)] at unmap₂ unmap₃
  obtain ⟨re₂, -, leaves₂, ptes₂⟩ := vmUnmappage_keep sp₁ unmap₂
  obtain ⟨re₃, -, leaves₃, ptes₃⟩ := vmUnmappage_keep re₂.space unmap₃
  rw [ptes₁, leafTr, add_zero, leaves₁] at leaves₂
  rw [ptes₂, if_neg (by decide), ptes₁, leafTf, leaves₂] at leaves₃
  have nodes₃ : tableNodes L s'.mem r = tableNodes L s.mem r := by
    rw [← nodes₁]
    exact add_left_cancel ((re₂.trans re₃).pages)
  refine ⟨re₃.space.list, re₃.space.tree, ?_, ?_, ?_⟩
  · rw [← tablePages_eq, tablePages, nodes₃, tablePages, ← leaves₃, ← Multiset.cons_coe,
      ← Multiset.singleton_add]
    abel
  · intro va
    rw [ptes₃, ptes₂, ptes₁]
  · intro q hqf hq
    rw [tablePages, Multiset.mem_add, not_or] at hq
    have hqtf : q ≠ tf := fun h => hq.2 (h ▸ leaf)
    rw [(re₂.trans re₃).frame q ?_ (by rw [nodes₁]; exact hq.1), push_mem_of_ne hqtf]
    rw [List.mem_cons, not_or]
    exact ⟨hqtf, hqf⟩

/-- The whole table is free once. -/
theorem free_destroy_ok {r tf : ℕ} (sp : Space L s free r)
    (apart : ((free : Multiset ℕ) + tablePages L s.mem r).Nodup) (hr0 : r ≠ 0)
    (htf : PTE2PA (pteAt L s.mem r TRAPFRAME) = tf)
    (htr : ¬ InRange L (PTE2PA (pteAt L s.mem r TRAMPOLINE)))
    (hr : (pmemFree L tf >>= fun _ => uvmDestroyPgtbl L r).run s = .ok () s') :
    ∃ free', FreeList L s' free' ∧ (free' : Multiset ℕ) = free + tablePages L s.mem r ∧
      ∀ q, q ∉ free → q ∉ tablePages L s.mem r → s'.mem q = s.mem q := by
  obtain ⟨_, s₁, hfree, hr⟩ := (Comp.bind_ok_iff _ _ _ _ _).mp hr
  obtain ⟨tfRange, rfl⟩ := pmemFree_ok hfree
  unfold uvmDestroyPgtbl at hr
  obtain ⟨_, s₂, unmap₂, hr⟩ := (Comp.bind_ok_iff _ _ _ _ _).mp hr
  obtain ⟨_, s₃, unmap₃, hr⟩ := (Comp.bind_ok_iff _ _ _ _ _).mp hr
  have det := detach_ok sp apart tfRange htf htr unmap₂ unmap₃
  obtain ⟨free', list', sum', same'⟩ := destroyPgtbl_ok hr0 det.list
    (by rw [det.pages]; exact apart) hr
  refine ⟨free', list', sum'.trans det.pages, ?_⟩
  intro q hqf hq
  refine (same' q ?_).trans (det.frame q hqf hq)
  intro hq₃
  have total : q ∈ (free : Multiset ℕ) + tablePages L s.mem r := by
    rw [← det.pages]
    exact Multiset.mem_add.mpr (Or.inr hq₃)
  rcases Multiset.mem_add.mp total with h | h
  · exact hqf h
  · exact hq h

end Destroy

section Heap

variable {L : Layout} {s s' : Pmem} {free : List ℕ} {r va len n a top new : ℕ} {h : Heap}

/-- A run of `vm_unmappages` that frees `n` pages. -/
theorem unmapLoop_ok (sp : Space L s free r)
    (apart : ((free : Multiset ℕ) + tablePages L s.mem r).Nodup)
    (hr : (Comp.forUpTo n fun k => vmUnmappage L r (va + k * PGSIZE) true).run s = .ok () s') :
    ∃ free', Keeps L r s free s' free' ∧ free'.length = free.length + n ∧
      ∀ va', (∀ j < n, ¬ SameEntry (va + j * PGSIZE) va') →
        pteAt L s'.mem r va' = pteAt L s.mem r va' := by
  refine Comp.forUpTo_ok (fun k t => ∃ free', Keeps L r s free t free' ∧
    free'.length = free.length + k ∧ ∀ va', (∀ j < k, ¬ SameEntry (va + j * PGSIZE) va') →
      pteAt L t.mem r va' = pteAt L s.mem r va') ⟨free, .refl sp, rfl, fun _ _ => rfl⟩ ?_ hr
  rintro k - t u ⟨fr, keeps, len, ptes⟩ hbody
  have apartK := keeps.apart apart
  unfold tablePages at apartK
  rw [← add_assoc] at apartK
  obtain ⟨q, sp', nodes', leaves', frame, ptes'⟩ := vmUnmappage_free keeps.space apartK hbody
  refine ⟨q :: fr, keeps.trans ⟨sp', ?_, ?_, ?_⟩, ?_, ?_⟩
  · unfold tablePages
    rw [nodes', leaves', ← Multiset.cons_coe, ← Multiset.singleton_add, ← Multiset.singleton_add]
    abel
  · intro p _ hp
    rw [tablePages, Multiset.mem_add, not_or, leaves', Multiset.mem_cons, not_or] at hp
    exact frame p hp.2.1 hp.1
  · intro va'
    rw [ptes']
    split
    · exact Or.inr (Or.inl rfl)
    · exact Or.inl rfl
  · rw [List.length_cons, len]
    rfl
  · intro va' hva'
    rw [ptes', if_neg (hva' k (Nat.lt_succ_self k)), ptes va' fun j hj => hva' j (by omega)]

/-- `heap_top` does not go past the trapframe, and what lies above it stays mapped. -/
theorem uvmHeapUngrow_ok (sp : Space L s free r)
    (apart : ((free : Multiset ℕ) + tablePages L s.mem r).Nodup) (htop : top ≤ TRAPFRAME)
    (hlen : len ≤ top) (h32 : len < 2 ^ 32) (hr : (uvmHeapUngrow L r top len).run s = .ok h s') :
    ∃ free', Keeps L r s free s' free' ∧ h.heapTop ≤ TRAPFRAME ∧
      ∀ va, TRAPFRAME ≤ va → va < MAXVA → pteAt L s'.mem r va = pteAt L s.mem r va := by
  unfold uvmHeapUngrow at hr
  obtain ⟨_, t, hun, hr⟩ := (Comp.bind_ok_iff _ _ _ _ _).mp hr
  cases hr
  have hnew : (top + 2 ^ 64 - len) % 2 ^ 64 = top - len := by
    simp only [TRAPFRAME, TRAMPOLINE, MAXVA, PGSIZE] at htop
    omega
  rw [hnew] at hun ⊢
  unfold vmUnmappages at hun
  split at hun
  · cases hun
  next aligned =>
  dsimp only at hun
  generalize hn : rounds _ _ = n at hun
  obtain ⟨free', keeps, flen, ptes⟩ := unmapLoop_ok sp apart hun
  -- every round frees a page, so there are not more rounds than pages
  have few : free'.length ≤ PHYSTOP / PGSIZE :=
    keeps.space.list.length_le keeps.space.nodup
  have bound : top - len + n * PGSIZE ≤ TRAPFRAME := by
    rw [not_not] at aligned
    have hup : PG_ROUND_UP len = (len + 4095) / 4096 * 4096 := by
      simp only [PG_ROUND_UP, PGSIZE]
      omega
    rw [hup, Int.bmod_def, rounds] at hn
    simp only [TRAPFRAME, TRAMPOLINE, MAXVA, PGSIZE, PHYSTOP] at *
    split at hn <;> omega
  refine ⟨free', keeps, Nat.le_trans (Nat.sub_le _ _) htop, ?_⟩
  intro va hlo hhi
  apply ptes
  intro j hj
  rw [sameEntry_iff]
  · simp only [TRAPFRAME, TRAMPOLINE, MAXVA, PGSIZE] at *
    omega
  · simp only [TRAPFRAME, TRAMPOLINE, MAXVA, PGSIZE] at *
    omega
  · simp only [TRAPFRAME, TRAMPOLINE, MAXVA, PGSIZE] at *
    omega

theorem uvmHeapGrowLoop_ok (sp : Space L s free r)
    (apart : ((free : Multiset ℕ) + tablePages L s.mem r).Nodup) (ha : a % PGSIZE = 0)
    (hle : a ≤ TRAPFRAME) (htf : pteAt L s.mem r TRAPFRAME ≠ 0)
    (hr : (uvmHeapGrowLoop L r top new n a).run s = .ok h s') :
    ∃ free', Keeps L r s free s' free' ∧ h = ⟨new, new⟩ ∧ a + n * PGSIZE ≤ TRAPFRAME ∧
      ∀ va, pteAt L s.mem r va ≠ 0 → pteAt L s'.mem r va = pteAt L s.mem r va := by
  induction n generalizing a s free with
  | zero =>
    cases hr
    refine ⟨free, .refl sp, rfl, ?_, fun _ _ => rfl⟩
    rw [Nat.zero_mul, Nat.add_zero]
    exact hle
  | succ n ih =>
    unfold uvmHeapGrowLoop at hr
    obtain ⟨mem, t, halloc, hr⟩ := (Comp.bind_ok_iff _ _ _ _ _).mp hr
    obtain ⟨_, _, _, _, hmem, _⟩ := sp.alloc halloc
    simp only [Nat.ne_of_gt hmem.pos, if_false] at hr
    rw [memzero, Comp.bind_modify_run] at hr
    obtain ⟨_, u, hmap, hr⟩ := (Comp.bind_ok_iff _ _ _ _ _).mp hr
    have hlt : a + PGSIZE ≤ 2 ^ 64 := by
      simp only [TRAPFRAME, TRAMPOLINE, MAXVA, PGSIZE] at hle ⊢
      omega
    obtain ⟨free₁, new₁⟩ := mapNew sp halloc (by decide) ha hlt hmap
    have hne : a ≠ TRAPFRAME := by
      intro heq
      have unmapped := new₁.unmapped
      rw [heq] at unmapped
      exact htf unmapped
    have kept : ∀ va, pteAt L s.mem r va ≠ 0 → pteAt L u.mem r va = pteAt L s.mem r va :=
      fun va => new₁.kept
    have ha' : (a + PGSIZE) % PGSIZE = 0 := by
      rw [Nat.add_mod_right]
      exact ha
    have hle' : a + PGSIZE ≤ TRAPFRAME := by
      simp only [TRAPFRAME, TRAMPOLINE, MAXVA, PGSIZE] at *
      omega
    have htf' : pteAt L u.mem r TRAPFRAME ≠ 0 := by
      rw [kept _ htf]
      exact htf
    obtain ⟨free', keeps, hh, hend, kept'⟩ :=
      ih new₁.keeps.space (new₁.keeps.apart apart) ha' hle' htf' hr
    refine ⟨free', new₁.keeps.trans keeps, hh, ?_, ?_⟩
    · rw [Nat.add_one_mul, Nat.add_comm (n * PGSIZE), ← Nat.add_assoc]
      exact hend
    · intro va hva
      rw [kept' va (by rw [kept va hva]; exact hva), kept va hva]

theorem uvmHeapGrow_ok (sp : Space L s free r)
    (apart : ((free : Multiset ℕ) + tablePages L s.mem r).Nodup) (htop : top ≤ TRAPFRAME)
    (htf : pteAt L s.mem r TRAPFRAME ≠ 0)
    (hr : (uvmHeapGrow L r top len).run s = .ok h s') :
    ∃ free', Keeps L r s free s' free' ∧ h.heapTop ≤ TRAPFRAME ∧
      ∀ va, pteAt L s.mem r va ≠ 0 → pteAt L s'.mem r va = pteAt L s.mem r va := by
  unfold uvmHeapGrow at hr
  dsimp only at hr
  have ha : PG_ROUND_UP top % PGSIZE = 0 := Nat.mul_mod_left ..
  have hle : PG_ROUND_UP top ≤ TRAPFRAME := by
    simp only [PG_ROUND_UP, TRAPFRAME, TRAMPOLINE, MAXVA, PGSIZE] at htop ⊢
    omega
  obtain ⟨free', keeps, rfl, hend, kept⟩ := uvmHeapGrowLoop_ok sp apart ha hle htf hr
  refine ⟨free', keeps, ?_, kept⟩
  dsimp only
  rw [rounds] at hend
  simp only [TRAPFRAME, TRAMPOLINE, MAXVA, PGSIZE] at *
  omega

end Heap

section Copy

variable {L : Layout} {s s' : Pmem} {free : List ℕ} {old new r va top q : ℕ}

theorem uvmCopyPage_ok (sp : Space L s free new) (tree : TreeOk L s.mem old)
    (hva : va % PGSIZE = 0) (hlt : va + PGSIZE ≤ 2 ^ 64)
    (hr : (uvmCopyPage L old new va).run s = .ok () s') :
    isValid (pteAt L s.mem old va) ∧
      ∃ free' c, MapNew L new va (PTE_FLAGS (pteAt L s.mem old va) % 2 ^ 8)
        (s.mem (PTE2PA (pteAt L s.mem old va))) s free c s' free' := by
  unfold uvmCopyPage at hr
  rw [Comp.run_bind_of_ok (vmGetpte_find tree va)] at hr
  cases hw : walk (child L s.mem) (path va) old with
  | none =>
    rw [hw] at hr
    cases hr
  | some t =>
    rw [hw] at hr
    simp only [Option.map_some, Comp.bind_gets_run, pte_eq_entry, Comp.run_ite] at hr
    rw [TreeOk.pteAt_eq hw]
    split at hr
    · cases hr
    next valid =>
    obtain ⟨mem, s₁, halloc, hr⟩ := (Comp.bind_ok_iff _ _ _ _ _).mp hr
    obtain ⟨_, _, _, hmem, hrange, _⟩ := sp.alloc halloc
    simp only [Nat.ne_of_gt hrange.pos, if_false] at hr
    rw [Comp.bind_pure_run, Comp.bind_get_run, Comp.bind_modify_run, hmem] at hr
    have low : PTE_FLAGS (entry s.mem t (PX va 0)) % 2 ^ 8 < 2 ^ 10 :=
      Nat.lt_trans (Nat.mod_lt _ (by decide)) (by decide)
    obtain ⟨free', new'⟩ := mapNew sp halloc low hva hlt hr
    exact ⟨by simpa using valid, free', mem, new'⟩

/-- The page of `va` in the new table is a page of its own with the old flags and content. -/
structure Copied (L : Layout) (old new va : ℕ) (s : Pmem) (free : List ℕ) (s' : Pmem) (c : ℕ) :
    Prop where
  valid : isValid (pteAt L s.mem old va)
  pte : pteAt L s'.mem new va = leafPte c (PTE_FLAGS (pteAt L s.mem old va) % 2 ^ 8)
  range : InRange L c
  taken : c ∈ (free : Multiset ℕ) + tablePages L s.mem new
  fresh : c ∉ tableLeaves L s.mem new
  leaf : c ∈ tableLeaves L s'.mem new
  content : s'.mem c = s.mem (PTE2PA (pteAt L s.mem old va))

theorem leafPte_ne_zero (pa perm : ℕ) : leafPte pa perm ≠ 0 := by
  intro h
  have valid := isValid_leafPte pa perm
  rw [h] at valid
  cases valid

theorem uvmCopyPgtbl_ok (sp : Space L s free new)
    (apart : ((free : Multiset ℕ) + tablePages L s.mem new).Nodup) (tree : TreeOk L s.mem old)
    (nodesOut : ∀ q ∈ tableNodes L s.mem old, q ∉ free ∧ q ∉ tablePages L s.mem new)
    (dataOut : ∀ va, PTE2PA (pteAt L s.mem old va) ∉ free ∧
      PTE2PA (pteAt L s.mem old va) ∉ tablePages L s.mem new)
    (htop : top ≤ TRAPFRAME) (hr : (uvmCopyPgtbl L old new top).run s = .ok () s') :
    ∃ free', Keeps L new s free s' free' ∧
      (∀ k < rounds 0 top, ∃ c, Copied L old new (k * PGSIZE) s free s' c) ∧
      tableLeaves L s.mem new ≤ tableLeaves L s'.mem new ∧
      (∀ va, pteAt L s.mem new va ≠ 0 → pteAt L s'.mem new va = pteAt L s.mem new va) ∧
      ∀ va, (∀ k < rounds 0 top, ¬ SameEntry (k * PGSIZE) va) →
        pteAt L s'.mem new va = pteAt L s.mem new va := by
  refine Comp.forUpTo_ok (fun n t => ∃ free', Keeps L new s free t free' ∧
    (∀ k < n, ∃ c, Copied L old new (k * PGSIZE) s free t c) ∧
    tableLeaves L s.mem new ≤ tableLeaves L t.mem new ∧
    (∀ va, pteAt L s.mem new va ≠ 0 → pteAt L t.mem new va = pteAt L s.mem new va) ∧
    ∀ va, (∀ k < n, ¬ SameEntry (k * PGSIZE) va) → pteAt L t.mem new va = pteAt L s.mem new va)
    ⟨free, .refl sp, fun _ hk => absurd hk (Nat.not_lt_zero _), le_rfl, fun _ _ => rfl,
      fun _ _ => rfl⟩ ?_ hr
  rintro n hn t u ⟨fr, keeps, copied, leaves, kept, rest⟩ hbody
  have same : ∀ q ∈ tableNodes L s.mem old, t.mem q = s.mem q :=
    fun q hq => keeps.frame q (nodesOut q hq).1 (nodesOut q hq).2
  have hlt : n * PGSIZE + PGSIZE ≤ 2 ^ 64 := by
    simp only [rounds, TRAPFRAME, TRAMPOLINE, MAXVA, PGSIZE] at *
    omega
  obtain ⟨valid, free', c, new'⟩ := uvmCopyPage_ok keeps.space (tree.of_same same).1
    (Nat.mul_mod_left ..) hlt hbody
  rw [pteAt_of_same same] at valid new'
  rw [keeps.frame _ (dataOut _).1 (dataOut _).2] at new'
  have apartN := keeps.apart apart
  refine ⟨free', keeps.trans new'.keeps, ?_, ?_, ?_, ?_⟩
  · intro k hk
    rcases Nat.lt_succ_iff_lt_or_eq.mp hk with hk | rfl
    · obtain ⟨d, hd⟩ := copied k hk
      have ne : pteAt L t.mem new (k * PGSIZE) ≠ 0 := by
        rw [hd.pte]
        exact leafPte_ne_zero _ _
      have out : d ∉ (fr : Multiset ℕ) + tableNodes L t.mem new := by
        have apart' := apartN
        rw [tablePages, ← add_assoc] at apart'
        exact fun h => Multiset.disjoint_left.mp (Multiset.nodup_add.mp apart').2.2 h hd.leaf
      rw [Multiset.mem_add, not_or] at out
      refine ⟨d, hd.valid, (new'.kept ne).trans hd.pte, hd.range, hd.taken, hd.fresh,
        ?_, ?_⟩
      · rw [new'.leaves]
        exact Multiset.mem_cons_of_mem hd.leaf
      · rw [new'.frame d out.1 out.2, hd.content]
    · refine ⟨c, valid, ?_, new'.range, ?_, ?_, ?_, new'.content⟩
      · rw [new'.ptes, if_pos ⟨rfl, rfl⟩]
      · rw [← keeps.pages]
        exact Multiset.mem_add.mpr (Or.inl new'.taken)
      · intro h
        exact Multiset.disjoint_left.mp (Multiset.nodup_add.mp apartN).2.2
          (Multiset.mem_coe.mpr new'.taken) (mem_tablePages_of_leaf (Multiset.mem_of_le leaves h))
      · rw [new'.leaves]
        exact Multiset.mem_cons_self c _
  · rw [new'.leaves]
    exact leaves.trans (Multiset.le_cons_self _ _)
  · intro va hva
    rw [new'.kept (by rw [kept va hva]; exact hva), kept va hva]
  · intro va hva
    rw [new'.ptes, if_neg (hva n (Nat.lt_succ_self n)),
      rest va fun k hk => hva k (Nat.lt_succ_of_lt hk)]

end Copy

section Copyout

variable {L : Layout} {s s' : Pmem} {r va q : ℕ}

/-- A page that the process can reach in user mode. -/
def UserPage (L : Layout) (m : ℕ → Page) (r q : ℕ) : Prop :=
  ∃ va, isUser (pteAt L m r va) ∧ PTE2PA (pteAt L m r va) = q

theorem vmGetpa_ok {pa : ℕ} {t : Pmem} (ok : TreeOk L s.mem r)
    (hr : (vmGetpa r va).run s = .ok pa t) : s = t ∧ (pa ≠ 0 → UserPage L s.mem r pa) := by
  rw [vmGetpa_find ok] at hr
  cases hr
  refine ⟨rfl, ?_⟩
  intro hne
  by_cases hva : MAXVA ≤ va
  · rw [if_pos hva] at hne
    exact absurd rfl hne
  rw [if_neg hva] at hne ⊢
  by_cases flags : (isValid (pteAt L s.mem r va) && isUser (pteAt L s.mem r va)) = true
  · rw [if_pos flags]
    exact ⟨va, (Bool.and_eq_true_iff.mp flags).2, rfl⟩
  · rw [if_neg flags] at hne
    exact absurd rfl hne

/-- `uvm_copyout` writes to pages that the process can reach in user mode. -/
theorem uvmCopyoutLoop_ok {fuel dst len : ℕ} {src : ℕ → UInt8} {b : Bool} (ok : TreeOk L s.mem r)
    (apart : ∀ q, UserPage L s.mem r q → q ∉ tableNodes L s.mem r)
    (hr : (uvmCopyoutLoop r fuel dst src len).run s = .ok b s') :
    s'.next = s.next ∧ s'.allocable = s.allocable ∧
      ∀ q, ¬ UserPage L s.mem r q → s'.mem q = s.mem q := by
  induction fuel generalizing s dst src len with
  | zero =>
    cases hr
    exact ⟨rfl, rfl, fun _ _ => rfl⟩
  | succ fuel ih =>
    unfold uvmCopyoutLoop at hr
    rw [Comp.run_ite] at hr
    split at hr
    · cases hr
      exact ⟨rfl, rfl, fun _ _ => rfl⟩
    dsimp only at hr
    rw [Comp.run_ite] at hr
    split at hr
    · cases hr
      exact ⟨rfl, rfl, fun _ _ => rfl⟩
    obtain ⟨q, _, hget, rest⟩ := (Comp.bind_ok_iff _ _ _ _ _).mp hr
    obtain ⟨rfl, user⟩ := vmGetpa_ok ok hget
    rw [Comp.run_ite] at rest
    split at rest
    · cases rest
      exact ⟨rfl, rfl, fun _ _ => rfl⟩
    next hpa =>
      rw [Comp.bind_modify_run] at rest
      have user := user hpa
      generalize hn : min (PGSIZE - (dst - PG_ROUND_DOWN dst)) len = n at rest
      generalize ht : s.setPage q (fun x => x.put (dst - PG_ROUND_DOWN dst) n src) = t at rest
      have frame : ∀ p, p ≠ q → t.mem p = s.mem p := by
        intro p hp
        rw [← ht]
        exact setPage_mem_of_ne hp
      have same : ∀ p ∈ tableNodes L s.mem r, t.mem p = s.mem p :=
        fun p hp => frame p (ne_of_mem_of_not_mem hp (apart q user))
      have userSame : ∀ p, UserPage L t.mem r p ↔ UserPage L s.mem r p := by
        intro p
        unfold UserPage
        simp only [pteAt_of_same same]
      obtain ⟨hnext, halloc, hmem⟩ := ih (ok.of_same same).1
        (fun p hp => by
          rw [(ok.of_same same).2.1]
          exact apart p ((userSame p).mp hp)) rest
      refine ⟨hnext.trans ?_, halloc.trans ?_, ?_⟩
      · rw [← ht]
        rfl
      · rw [← ht]
        rfl
      · intro p hp
        rw [hmem p (fun h => hp ((userSame p).mp h)), frame p]
        rintro rfl
        exact hp user

theorem uvmCopyoutLoop_returns {fuel dst len : ℕ} {src : ℕ → UInt8} (ok : TreeOk L s.mem r)
    (apart : ∀ q, UserPage L s.mem r q → q ∉ tableNodes L s.mem r) :
    ∃ b s', (uvmCopyoutLoop r fuel dst src len).run s = .ok b s' := by
  induction fuel generalizing s dst src len with
  | zero => exact ⟨true, s, rfl⟩
  | succ fuel ih =>
    unfold uvmCopyoutLoop
    rw [Comp.run_ite]
    split
    · exact ⟨true, s, rfl⟩
    dsimp only
    rw [Comp.run_ite]
    split
    · exact ⟨false, s, rfl⟩
    obtain ⟨q, hget⟩ : ∃ q, (vmGetpa r (PG_ROUND_DOWN dst)).run s = .ok q s :=
      ⟨_, vmGetpa_find ok⟩
    obtain ⟨-, user⟩ := vmGetpa_ok ok hget
    rw [Comp.run_bind_of_ok hget, Comp.run_ite]
    split
    · exact ⟨false, s, rfl⟩
    next hpa =>
    rw [Comp.bind_modify_run]
    have same : ∀ p ∈ tableNodes L s.mem r, (s.setPage q fun page =>
        page.put (dst - PG_ROUND_DOWN dst) (min (PGSIZE - (dst - PG_ROUND_DOWN dst)) len) src).mem p =
        s.mem p := fun p hp => setPage_mem_of_ne (ne_of_mem_of_not_mem hp (apart q (user hpa)))
    apply ih (ok.of_same same).1
    intro p hp
    rw [(ok.of_same same).2.1]
    apply apart
    obtain ⟨va, huser, hpage⟩ := hp
    rw [pteAt_of_same same] at huser hpage
    exact ⟨va, huser, hpage⟩

end Copyout

end EasyXv6.Mem
