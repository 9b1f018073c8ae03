import EasyXv6.Proc.Pages

set_option autoImplicit false

/-!
# What proc_alloc and proc_fork do
-/
namespace EasyXv6.Proc
open Lib Mem Radix

section Alloc

variable {L : Layout} {s s' : Kernel} {pm pm' : Pmem} {free free' : List ℕ} {tf r : ℕ}

/-- A trapframe and a table that maps it and the trampoline. -/
structure Fresh (L : Layout) (pm : Pmem) (free : List ℕ) (tf r : ℕ) (pm' : Pmem)
    (free' : List ℕ) : Prop where
  space : Space L pm' free' r
  pages : (free' : Multiset ℕ) + tablePages L pm'.mem r = free
  frame : ∀ q, q ∉ free → pm'.mem q = pm.mem q
  tfRange : InRange L tf
  rootRange : InRange L r
  trapframe : PTE2PA (pteAt L pm'.mem r TRAPFRAME) = tf
  trampoline : PTE2PA (pteAt L pm'.mem r TRAMPOLINE) = L.trampoline
  framed : Framed L pm'.mem r
  mapped : ∀ va, pteAt L pm'.mem r va ≠ 0 → SameEntry TRAMPOLINE va ∨ SameEntry TRAPFRAME va
  system : ∀ va, isUser (pteAt L pm'.mem r va) = false

theorem trampoline_lt (L : Layout) : L.trampoline < 2 ^ 64 :=
  Nat.lt_of_lt_of_le L.trampoline_lt (Nat.le_trans L.allocBegin_le (by decide))

theorem trampoline_not_inRange (L : Layout) : ¬ InRange L L.trampoline :=
  fun h => h.ne_trampoline rfl

theorem Fresh.backed (h : Fresh L pm free tf r pm' free') : Backed L pm'.mem r := by
  intro va hva
  rcases h.mapped va hva with trampoline | trapframe
  · exact Or.inl trampoline
  · right
    rw [← trapframe.pteAt_eq, h.trapframe]
    exact h.tfRange

theorem procPgtblInit_ok {pm₁ : Pmem} (list : FreeList L pm free) (nodup : free.Nodup)
    (htf : pmemAlloc.run pm = .ok tf pm₁) (hr : (procPgtblInit L tf).run pm₁ = .ok r pm') :
    ∃ free', Fresh L pm free tf r pm' free' := by
  obtain ⟨rest, rfl, list₁, mem₁, tfRange⟩ := list.alloc htf
  unfold procPgtblInit at hr
  obtain ⟨root, pm₂, hroot, hr⟩ := (Comp.bind_ok_iff _ _ _ _ _).mp hr
  obtain ⟨rest₂, rfl, list₂, mem₂, rootRange⟩ := list₁.alloc hroot
  simp only [Nat.ne_of_gt rootRange.pos, if_false] at hr
  rw [memzero, Comp.bind_modify_run] at hr
  obtain ⟨_, pm₃, map₃, hr⟩ := (Comp.bind_ok_iff _ _ _ _ _).mp hr
  obtain ⟨_, pm₄, map₄, hr⟩ := (Comp.bind_ok_iff _ _ _ _ _).mp hr
  cases hr
  rw [List.nodup_cons, List.nodup_cons, List.mem_cons, not_or] at nodup
  obtain ⟨⟨hne, htf₂⟩, hr₂, nodup₂⟩ := nodup
  generalize hz : pm₂.setPage r (fun _ => Bytes.zero) = z at map₃
  have zero : z.mem r = Bytes.zero := by
    rw [← hz]
    exact Function.update_self ..
  have frameZ : ∀ q, q ≠ r → z.mem q = pm.mem q := by
    intro q hq
    rw [← hz, setPage_mem_of_ne hq, mem₂, mem₁]
  obtain ⟨tree, nodes, leaves, ptes⟩ := TreeOk.empty (L := L) zero
  have space : Space L z rest₂ r := by
    refine ⟨hz ▸ list₂.setPage hr₂ _, tree, ?_⟩
    rw [nodes, add_comm, Multiset.singleton_add]
    exact Multiset.nodup_cons.mpr ⟨hr₂, Multiset.coe_nodup.mpr nodup₂⟩
  rw [vmMappages_page (by decide) (by decide)
    (trampoline_lt L)] at map₃
  rw [vmMappages_page (by decide) (by decide) tfRange.lt_pa] at map₄
  obtain ⟨free₃, re₃, -, leaves₃, ptes₃, -⟩ :=
    vmMappage_ok space (by decide) (trampoline_lt L) map₃
  obtain ⟨free₄, re₄, -, leaves₄, ptes₄, -⟩ :=
    vmMappage_ok re₃.space (by decide) tfRange.lt_pa map₄
  have pa₃ : PTE2PA (leafPte L.trampoline (PTE_R ||| PTE_X)) = L.trampoline :=
    pte2pa_leafPte (by decide) L.trampoline_aligned (trampoline_lt L)
  have pa₄ : PTE2PA (leafPte tf (PTE_R ||| PTE_W)) = tf :=
    pte2pa_leafPte (by decide) tfRange.1 tfRange.lt_pa
  rw [leafOf, pa₃, if_neg (trampoline_not_inRange L), add_zero, leaves] at leaves₃
  rw [leafOf, pa₄, if_pos tfRange, leaves₃, zero_add] at leaves₄
  have re := re₃.trans re₄
  refine ⟨free₄, re.space, ?_, ?_, tfRange, rootRange, ?_, ?_, ⟨?_, ?_⟩, ?_, ?_⟩
  · rw [tablePages, leaves₄, ← add_assoc, re.pages, nodes, ← Multiset.cons_coe,
      ← Multiset.cons_coe, ← Multiset.singleton_add, ← Multiset.singleton_add]
    abel
  · intro q hq
    rw [List.mem_cons, List.mem_cons, not_or, not_or] at hq
    rw [re.frame q hq.2.2 (by rw [nodes, Multiset.mem_singleton]; exact hq.2.1), frameZ q hq.2.1]
  · rw [ptes₄, if_pos ⟨rfl, rfl⟩, pa₄]
  · rw [ptes₄, if_neg (by decide), ptes₃, if_pos ⟨rfl, rfl⟩, pa₃]
  · rw [ptes₄, if_neg (by decide), ptes₃, if_pos ⟨rfl, rfl⟩, pte_flags_leafPte (by decide)]
    decide
  · rw [ptes₄, if_pos ⟨rfl, rfl⟩, pte_flags_leafPte (by decide)]
    decide
  · intro va hva
    by_cases h₄ : SameEntry TRAPFRAME va
    · exact Or.inr h₄
    · rw [ptes₄, if_neg h₄, ptes₃] at hva
      by_cases h₃ : SameEntry TRAMPOLINE va
      · exact Or.inl h₃
      · rw [if_neg h₃, ptes] at hva
        exact absurd rfl hva
  · intro va
    rw [ptes₄, ptes₃, ptes]
    split
    · rw [isUser_leafPte (by decide)]
      rfl
    split
    · rw [isUser_leafPte (by decide)]
      rfl
    · rfl

theorem onMem_ok {α : Type} {m : Comp Pmem α} {a : α} (h : (onMem m).run s = .ok a s') :
    ∃ pm', m.run s.pm = .ok a pm' ∧ s' = { s with pm := pm' } :=
  (Comp.zoom_ok_iff ..).mp h

theorem onMem_returns {α : Type} {m : Comp Pmem α} {a : α} (h : m.run s.pm = .ok a pm) :
    (onMem m).run s = .ok a { s with pm := pm } := Comp.zoom_run_of_ok h

/-- `proc_alloc` returns the first free slot, with a table of its own. -/
theorem procAlloc_ok {o : Option (Fin NPROC)} (list : FreeList L s.pm free) (nodup : free.Nodup)
    (hr : (procAlloc L).run s = .ok o s') :
    (firstUnused s.proc = none ∧ o = none ∧ s' = s) ∨
      ∃ c tf r free', firstUnused s.proc = some c ∧ o = some c ∧
        Fresh L s.pm free tf r s'.pm free' ∧ s'.nextpid = s.nextpid + 1 ∧
        s'.proc = Function.update s.proc c
          { (s.proc c).found s.nextpid with tf := tf, pgtbl := r } := by
  unfold procAlloc at hr
  rw [Comp.bind_get_run] at hr
  split at hr
  next hnone =>
    cases hr
    exact Or.inl ⟨hnone, rfl, rfl⟩
  next c hc =>
  right
  rw [Comp.run_bind_of_ok (show allocpid.run s = .ok s.nextpid _ from rfl), setProc,
    Comp.bind_modify_run] at hr
  obtain ⟨tf, s₁, hpage, hr⟩ := (Comp.bind_ok_iff _ _ _ _ _).mp hr
  obtain ⟨pm₁, halloc, hs₁⟩ := onMem_ok hpage
  obtain ⟨_, _, _, _, tfRange⟩ := list.alloc halloc
  rw [setProc, Comp.bind_modify_run] at hr
  simp only [Nat.ne_of_gt tfRange.pos, if_false] at hr
  obtain ⟨r, s₂, htable, hr⟩ := (Comp.bind_ok_iff _ _ _ _ _).mp hr
  obtain ⟨pm₂, hinit, hs₂⟩ := onMem_ok htable
  rw [Kernel.setProc_pm, hs₁] at hinit
  obtain ⟨free', fresh⟩ := procPgtblInit_ok list nodup halloc hinit
  rw [setProc, Comp.bind_modify_run] at hr
  simp only [Nat.ne_of_gt fresh.rootRange.pos, if_false, Comp.run_pure, Outcome.ok.injEq] at hr
  obtain ⟨rfl, rfl⟩ := hr
  subst hs₂ hs₁
  refine ⟨c, tf, r, free', hc, rfl, fresh, rfl, ?_⟩
  simp only [Kernel.setProc, Function.update_idem, Function.update_self]

end Alloc

section Fork

variable {L : Layout} {s s' : Kernel} {free free' : List ℕ} {kernel : Multiset ℕ}
  {i c : Fin NPROC} {tf r : ℕ} {pid : ℤ}

/-- The slot `np` as `proc_fork` of `p` in the slot `i` leaves it. -/
def ProcT.child (np p : ProcT) (i : Fin NPROC) (pid : ℤ) (tf pgtbl : ℕ) : ProcT :=
  { { np.found pid with tf := tf, pgtbl := pgtbl, ustackPages := p.ustackPages }.dupFiles p with
    parent := some i, priority := p.priority, priorityBoost := p.priorityBoost, state := .runnable }

theorem pteAt_ne_zero {m : ℕ → Page} {va : ℕ} (h : 0 < PTE2PA (pteAt L m r va)) :
    pteAt L m r va ≠ 0 := by
  intro h0
  rw [h0] at h
  exact absurd h (by decide)

/-- What `proc_fork` of the process `i` does when it takes the slot `c`. -/
structure Forked (L : Layout) (s : Kernel) (free : List ℕ) (i c : Fin NPROC) (tf r : ℕ)
    (s' : Kernel) (free' : List ℕ) : Prop where
  slot : firstUnused s.proc = some c
  proc : s'.proc = Function.update s.proc c ((s.proc c).child (s.proc i) i s.nextpid tf r)
  nextpid : s'.nextpid = s.nextpid + 1
  space : Space L s'.pm free' r
  pages : (free' : Multiset ℕ) + tablePages L s'.pm.mem r = free
  frame : ∀ q, q ∉ free → s'.pm.mem q = s.pm.mem q
  tfRange : InRange L tf
  rootRange : InRange L r
  trapframe : PTE2PA (pteAt L s'.pm.mem r TRAPFRAME) = tf
  trampoline : PTE2PA (pteAt L s'.pm.mem r TRAMPOLINE) = L.trampoline
  copied : ∀ k < rounds 0 (s.proc i).heapTop, isValid (pteAt L s.pm.mem (s.proc i).pgtbl (k * PGSIZE)) ∧
    ∃ page ∈ free, InRange L page ∧
      pteAt L s'.pm.mem r (k * PGSIZE) =
        leafPte page (PTE_FLAGS (pteAt L s.pm.mem (s.proc i).pgtbl (k * PGSIZE)) % 2 ^ 8) ∧
      s'.pm.mem page = s.pm.mem (PTE2PA (pteAt L s.pm.mem (s.proc i).pgtbl (k * PGSIZE)))
  backed : Backed L s'.pm.mem r
  framed : Framed L s'.pm.mem r
  regs : ∃ base : Page, s'.pm.mem tf =
    (base.put 0 TRAPFRAME_SIZE (s.pm.mem (s.proc i).tf).byte).putNum A0 8 0

/-- The pages of the parent are apart from those of a new table. -/
theorem Fresh.copyReady {pm₁ : Pmem} {free₁ : List ℕ} (own : Owned L s free kernel)
    (hi : (s.proc i).state ≠ .unused) (fresh : Fresh L s.pm free tf r pm₁ free₁) :
    ((free₁ : Multiset ℕ) + tablePages L pm₁.mem r).Nodup ∧
      (∀ q ∈ tableNodes L s.pm.mem (s.proc i).pgtbl, pm₁.mem q = s.pm.mem q) ∧
      TreeOk L pm₁.mem (s.proc i).pgtbl ∧
      (∀ q ∈ tableNodes L pm₁.mem (s.proc i).pgtbl, q ∉ free₁ ∧ q ∉ tablePages L pm₁.mem r) ∧
      ∀ va, PTE2PA (pteAt L pm₁.mem (s.proc i).pgtbl va) ∉ free₁ ∧
        PTE2PA (pteAt L pm₁.mem (s.proc i).pgtbl va) ∉ tablePages L pm₁.mem r := by
  have taken : ∀ q, q ∉ free → q ∉ free₁ ∧ q ∉ tablePages L pm₁.mem r := by
    intro q hq
    rw [← Multiset.mem_coe, ← fresh.pages, Multiset.mem_add, not_or] at hq
    exact hq
  have same : ∀ q ∈ tableNodes L s.pm.mem (s.proc i).pgtbl, pm₁.mem q = s.pm.mem q :=
    fun q hq => fresh.frame q (own.notFree (own.mem_slotPages_of_node hi hq))
  obtain ⟨tree, nodes, -⟩ := (own.used i hi).tree.of_same same
  refine ⟨?_, same, tree, ?_, ?_⟩
  · rw [fresh.pages]
    exact Multiset.coe_nodup.mpr own.free_nodup
  · intro q hq
    exact taken q (own.notFree (own.mem_slotPages_of_node hi (nodes ▸ hq)))
  · intro va
    rw [pteAt_of_same same]
    exact taken _ (own.data_notFree hi va)

theorem procFork_ok (own : Owned L s free kernel) (hi : (s.proc i).state ≠ .unused)
    (hr : (procFork L i).run s = .ok pid s') :
    (firstUnused s.proc = none ∧ pid = -1 ∧ s' = s) ∨
      pid = s.nextpid ∧ ∃ c tf r free', Forked L s free i c tf r s' free' := by
  unfold procFork at hr
  obtain ⟨o, s₁, halloc, rest⟩ := (Comp.bind_ok_iff _ _ _ _ _).mp hr
  rcases procAlloc_ok own.list own.free_nodup halloc with
    ⟨hnone, rfl, rfl⟩ | ⟨c, tf, r, free₁, hc, rfl, fresh, next₁, proc₁⟩
  · cases rest
    exact Or.inl ⟨hnone, rfl, rfl⟩
  right
  have unused : (s.proc c).state = .unused := by
    have := List.find?_some hc
    simpa using this
  have hic : i ≠ c := by
    rintro rfl
    exact hi unused
  have old : s₁.proc i = s.proc i := by
    rw [proc₁, Function.update_of_ne hic]
  have new : s₁.proc c = { (s.proc c).found s.nextpid with tf := tf, pgtbl := r } := by
    rw [proc₁, Function.update_self]
  have taken : ∀ q, q ∉ free → q ∉ free₁ ∧ q ∉ tablePages L s₁.pm.mem r := by
    intro q hq
    rw [← Multiset.mem_coe, ← fresh.pages, Multiset.mem_add, not_or] at hq
    exact hq
  obtain ⟨apart, same, tree, nodesOut, dataOut⟩ := fresh.copyReady own hi
  rw [Comp.bind_gets_run, Comp.bind_gets_run, old, new] at rest
  obtain ⟨_, s₂, hcopy, rest⟩ := (Comp.bind_ok_iff _ _ _ _ _).mp rest
  obtain ⟨pm₂, hcopy, hs₂⟩ := onMem_ok hcopy
  obtain ⟨free₂, keeps, copied, leaves, kept, -⟩ := uvmCopyPgtbl_ok fresh.space apart tree
    nodesOut dataOut (own.heapTop i) hcopy
  -- the trapframe is a leaf, so what is written to it leaves the table alone
  have tfLeaf : tf ∈ tableLeaves L s₁.pm.mem r := by
    rw [← fresh.trapframe]
    exact fresh.space.tree.mem_leaves (fresh.trapframe ▸ fresh.tfRange)
  have tfOut : tf ∉ free₂ ∧ tf ∉ tableNodes L pm₂.mem r := by
    have apart₂ := keeps.apart apart
    rw [tablePages, ← add_assoc] at apart₂
    have : tf ∉ (free₂ : Multiset ℕ) + tableNodes L pm₂.mem r := fun h =>
      Multiset.disjoint_left.mp (Multiset.nodup_add.mp apart₂).2.2 h (Multiset.mem_of_le leaves tfLeaf)
    rwa [Multiset.mem_add, Multiset.mem_coe, not_or] at this
  generalize hf₃ : (fun q : Page => q.put 0 TRAPFRAME_SIZE (pm₂.mem (s.proc i).tf).byte) = f₃
  generalize hf₄ : (fun q : Page => q.putNum A0 8 0) = f₄
  obtain ⟨space₃, nodes₃, leaves₃, ptes₃⟩ := keeps.space.setPage tfOut.1 tfOut.2 f₃
  rw [← nodes₃] at tfOut
  obtain ⟨space₄, nodes₄, leaves₄, ptes₄⟩ := space₃.setPage tfOut.1 tfOut.2 f₄
  have final : pid = s.nextpid ∧ s' =
      { pm := (pm₂.setPage tf f₃).setPage tf f₄
        proc := Function.update s.proc c ((s.proc c).child (s.proc i) i s.nextpid tf r)
        nextpid := s.nextpid + 1 } := by
    rw [setProc, Comp.bind_modify_run, Comp.run_bind_of_ok (show (onMem _).run _ = .ok () _ from rfl),
      Comp.run_bind_of_ok (show (onMem _).run _ = .ok () _ from rfl), setProc, Comp.bind_modify_run,
      setProc, Comp.bind_modify_run, setProc, Comp.bind_modify_run] at rest
    simp only [Comp.run_pure, Outcome.ok.injEq] at rest
    obtain ⟨rfl, rfl⟩ := rest
    refine ⟨rfl, ?_⟩
    subst hs₂ hf₃ hf₄
    simp only [Kernel.setProc, Function.update_idem, Function.update_self, proc₁, next₁]
    rfl
  obtain ⟨rfl, rfl⟩ := final
  have frame₂ : ∀ q, q ∉ free → pm₂.mem q = s.pm.mem q :=
    fun q hq => (keeps.frame q (taken q hq).1 (taken q hq).2).trans (fresh.frame q hq)
  have tfFree : tf ∈ free := by
    rw [← Multiset.mem_coe, ← fresh.pages]
    exact Multiset.mem_add.mpr (Or.inr (mem_tablePages_of_leaf tfLeaf))
  have other : ∀ q, q ≠ tf → ((pm₂.setPage tf f₃).setPage tf f₄).mem q = pm₂.mem q := by
    intro q hq
    rw [setPage_mem_of_ne hq, setPage_mem_of_ne hq]
  have kept₄ : ∀ va, pteAt L s₁.pm.mem r va ≠ 0 →
      pteAt L ((pm₂.setPage tf f₃).setPage tf f₄).mem r va = pteAt L s₁.pm.mem r va := by
    intro va hva
    rw [ptes₄, ptes₃]
    exact kept va hva
  refine ⟨rfl, c, tf, r, free₂, hc, rfl, rfl, space₄, ?_, ?_, fresh.tfRange, fresh.rootRange, ?_,
    ?_, ?_, ?_, ?_, ?_⟩
  · dsimp only
    rw [tablePages, nodes₄, nodes₃, leaves₄, leaves₃]
    exact keeps.pages.trans fresh.pages
  · intro q hq
    exact (other q (ne_of_mem_of_not_mem tfFree hq).symm).trans (frame₂ q hq)
  · dsimp only
    rw [kept₄, fresh.trapframe]
    exact pteAt_ne_zero (fresh.trapframe.symm ▸ fresh.tfRange.pos)
  · dsimp only
    rw [kept₄, fresh.trampoline]
    exact pteAt_ne_zero (fresh.trampoline.symm ▸ L.trampoline_pos)
  · intro k hk
    obtain ⟨page, hpage⟩ := copied k hk
    have hne : page ≠ tf := (ne_of_mem_of_not_mem tfLeaf hpage.fresh).symm
    have hpages := hpage.taken
    rw [fresh.pages] at hpages
    have valid := hpage.valid
    have hpte := hpage.pte
    have content := hpage.content
    rw [pteAt_of_same same] at valid hpte content
    refine ⟨valid, page, hpages, hpage.range, ?_, ?_⟩
    · dsimp only
      rw [ptes₄, ptes₃]
      exact hpte
    · exact (other page hne).trans (content.trans (fresh.frame _ (own.data_notFree hi _)))
  · refine fresh.backed.of_keeps keeps fun va => ?_
    dsimp only
    rw [ptes₄, ptes₃]
  · dsimp only
    rw [Framed, kept₄ _ (pteAt_ne_zero (fresh.trampoline.symm ▸ L.trampoline_pos)),
      kept₄ _ (pteAt_ne_zero (fresh.trapframe.symm ▸ fresh.tfRange.pos))]
    exact fresh.framed
  · have source : pm₂.mem (s.proc i).tf = s.pm.mem (s.proc i).tf := by
      apply frame₂
      rw [← (own.used i hi).trapframe]
      exact own.data_notFree hi _
    refine ⟨pm₂.mem tf, ?_⟩
    have self : ((pm₂.setPage tf f₃).setPage tf f₄).mem tf = f₄ (f₃ (pm₂.mem tf)) := by
      simp only [Pmem.setPage, Function.update_self]
    dsimp only
    rw [self, ← hf₃, ← hf₄, source]

end Fork

end EasyXv6.Proc
