import EasyXv6.Proc.Reap

set_option autoImplicit false

/-!
# Boot
-/
namespace EasyXv6.Proc
open Lib Mem Radix

variable {L : Layout} {pm pm' : Pmem} {free : List ℕ}

theorem allPages_get (L : Layout) (k : ℕ) (hk : k < (PHYSTOP - L.allocBegin) / PGSIZE) :
    InRange L (L.allocBegin + k * PGSIZE) := by
  have ha := L.allocBegin_aligned
  have hle := L.allocBegin_le
  simp only [InRange, PGSIZE, PHYSTOP] at *
  omega

theorem pmemInit_returns (L : Layout) (pm : Pmem) : ∃ pm' free,
    (pmemInit L).run pm = .ok () pm' ∧ FreeList L pm' free ∧ (free : Multiset ℕ) = allPages L := by
  have push : ∀ k < (PHYSTOP - L.allocBegin) / PGSIZE, ∀ t : Pmem,
      FreeList L t ((List.range k).map fun k => L.allocBegin + k * PGSIZE).reverse →
      ∃ u, (Comp.modify (·.push (L.allocBegin + k * PGSIZE))).run t = .ok () u ∧
        FreeList L u ((List.range (k + 1)).map fun k => L.allocBegin + k * PGSIZE).reverse := by
    intro k hk t list
    refine ⟨_, rfl, ?_⟩
    rw [List.range_succ, List.map_append, List.reverse_append]
    refine list.push ?_ (allPages_get L k hk)
    rw [List.mem_reverse, List.mem_map]
    rintro ⟨j, hj, heq⟩
    rw [List.mem_range] at hj
    simp only [PGSIZE] at heq
    omega
  unfold pmemInit
  rw [Comp.bind_modify_run]
  obtain ⟨pm', hr, list⟩ := Comp.forUpTo_returns
    (fun k t => FreeList L t ((List.range k).map fun k => L.allocBegin + k * PGSIZE).reverse)
    (s := { pm with allocable := 0, next := 0 }) ⟨rfl, rfl, by simp⟩ push
  refine ⟨pm', _, hr, list, ?_⟩
  rw [Multiset.coe_reverse]
  rfl

theorem kernelTakes_ok {taken : List Page} {pages : List ℕ} (list : FreeList L pm free)
    (nodup : free.Nodup) (hr : (kernelTakes taken).run pm = .ok pages pm') :
    ∃ free', FreeList L pm' free' ∧ free = pages ++ free' := by
  induction taken generalizing pm free pages with
  | nil =>
    cases hr
    exact ⟨free, list, rfl⟩
  | cons content rest ih =>
    unfold kernelTakes at hr
    obtain ⟨page, pm₁, halloc, hrest⟩ := (Comp.bind_ok_iff _ _ _ _ _).mp hr
    obtain ⟨free₁, rfl, list₁, -, -⟩ := list.alloc halloc
    rw [Comp.bind_modify_run] at hrest
    obtain ⟨pages', pm₂, hpages, hret⟩ := (Comp.bind_ok_iff _ _ _ _ _).mp hrest
    cases hret
    have notIn := (List.nodup_cons.mp nodup).1
    obtain ⟨free', list', rfl⟩ :=
      ih (list₁.setPage notIn _) (List.nodup_cons.mp nodup).2 hpages
    exact ⟨free', list', rfl⟩

theorem setPage_id (s : Pmem) (q : ℕ) : s.setPage q (fun p => p) = s := by
  unfold Pmem.setPage
  rw [Function.update_eq_self]

/-- The entry of a page of the first program. -/
def codePte (q : ℕ) : ℕ := leafPte q (PTE_W ||| PTE_R ||| PTE_X ||| PTE_U)

/-- The user pages of the first process: its code, and its stack. -/
structure FirstSpace (L : Layout) (m : ℕ → Page) (r : ℕ) : Prop where
  code : ∀ k < rounds 0 userInitcodeLen, ∃ q, pteAt L m r (k * PGSIZE) = codePte q
  rest : ∀ va, ¬ SameEntry (KSTACK 0 - PGSIZE) va →
    (∀ k < rounds 0 userInitcodeLen, ¬ SameEntry (k * PGSIZE) va) →
    isUser (pteAt L m r va) = false ∧
      (pteAt L m r va ≠ 0 → SameEntry TRAMPOLINE va ∨ SameEntry TRAPFRAME va)

theorem FirstSpace.mapped {m : ℕ → Page} {r k : ℕ} (h : FirstSpace L m r)
    (hk : k < rounds 0 userInitcodeLen) : pteAt L m r (k * PGSIZE) ≠ 0 := by
  obtain ⟨q, hq⟩ := h.code k hk
  rw [hq]
  exact leafPte_ne_zero _ _

theorem page_end_le {k n : ℕ} (hk : k < n) (hn : n * PGSIZE ≤ TRAPFRAME) :
    k * PGSIZE + PGSIZE ≤ 2 ^ 64 := by
  calc k * PGSIZE + PGSIZE = (k + 1) * PGSIZE := (Nat.add_one_mul k PGSIZE).symm
    _ ≤ n * PGSIZE := Nat.mul_le_mul_right PGSIZE hk
    _ ≤ TRAPFRAME := hn
    _ ≤ 2 ^ 64 := by decide

section MakeFirst

variable {s s' : Kernel} {kernel : Multiset ℕ} {code : ℕ → UInt8}

/-- The loop of `proc_make_first`. -/
theorem mapCode_ok {n r : ℕ} (leaf : ℕ) (sp : Space L pm free r)
    (apart : ((free : Multiset ℕ) + tablePages L pm.mem r).Nodup)
    (hn : n * PGSIZE ≤ TRAPFRAME)
    (hr : (Comp.forUpTo n fun k => mapCode code r (k * PGSIZE)).run pm = .ok () pm') :
    ∃ free', Keeps L r pm free pm' free' ∧
      (leaf ∈ tableLeaves L pm.mem r → leaf ∈ tableLeaves L pm'.mem r) ∧
      (∀ va, pteAt L pm.mem r va ≠ 0 → pteAt L pm'.mem r va = pteAt L pm.mem r va) ∧
      (∀ k < n, ∃ q, pteAt L pm'.mem r (k * PGSIZE) = codePte q) ∧
      ∀ va, (∀ k < n, ¬ SameEntry (k * PGSIZE) va) → pteAt L pm'.mem r va = pteAt L pm.mem r va := by
  refine Comp.forUpTo_ok (fun n t => ∃ free', Keeps L r pm free t free' ∧
    (leaf ∈ tableLeaves L pm.mem r → leaf ∈ tableLeaves L t.mem r) ∧
    (∀ va, pteAt L pm.mem r va ≠ 0 → pteAt L t.mem r va = pteAt L pm.mem r va) ∧
    (∀ k < n, ∃ q, pteAt L t.mem r (k * PGSIZE) = codePte q) ∧
    ∀ va, (∀ k < n, ¬ SameEntry (k * PGSIZE) va) → pteAt L t.mem r va = pteAt L pm.mem r va)
    ⟨free, .refl sp, id, fun _ _ => rfl, fun _ hk => absurd hk (Nat.not_lt_zero _),
      fun _ _ => rfl⟩ ?_ hr
  rintro k hk t u ⟨fr, keeps, leaves, kept, mapped, rest'⟩ hbody
  unfold mapCode at hbody
  obtain ⟨mem, t₁, halloc, rest⟩ := (Comp.bind_ok_iff _ _ _ _ _).mp hbody
  obtain ⟨_, _, _, _, hmem, _⟩ := keeps.space.alloc halloc
  simp only [Nat.ne_of_gt hmem.pos, if_false] at rest
  rw [memzero, Comp.bind_modify_run] at rest
  obtain ⟨_, t₂, hmap, rest⟩ := (Comp.bind_ok_iff _ _ _ _ _).mp rest
  have hlt := page_end_le hk hn
  obtain ⟨fr', new⟩ := mapNew keeps.space halloc (by decide) (Nat.mul_mod_left ..) hlt hmap
  have apart₂ := new.keeps.apart (keeps.apart apart)
  have leafIn : mem ∈ tableLeaves L t₂.mem r := by
    rw [new.leaves]
    exact Multiset.mem_cons_self mem _
  have out := Space.leaf_apart apart₂ leafIn
  rw [Comp.run_modify, Outcome.ok.injEq] at rest
  obtain ⟨-, rfl⟩ := rest
  generalize (fun b : Page => b.put 0 (min (userInitcodeLen - k * PGSIZE) PGSIZE)
    fun j => code (k * PGSIZE + j)) = f
  obtain ⟨space, nodes', leaves', ptes'⟩ := new.keeps.space.setPage out.1 out.2 f
  refine ⟨fr', keeps.trans ⟨space, ?_, ?_, ?_⟩, ?_, ?_, ?_, ?_⟩
  · rw [tablePages, nodes', leaves']
    exact new.keeps.pages
  · intro q hf hq
    have hne : q ≠ mem := by
      rintro rfl
      exact hf new.taken
    exact (setPage_mem_of_ne hne).trans (new.keeps.frame q hf hq)
  · intro va
    rw [ptes']
    exact new.keeps.backed va
  · intro h
    rw [leaves', new.leaves]
    exact Multiset.mem_cons_of_mem (leaves h)
  · intro va hva
    rw [ptes', new.kept (by rw [kept va hva]; exact hva), kept va hva]
  · intro j hj
    rw [ptes']
    rcases Nat.lt_succ_iff_lt_or_eq.mp hj with hlt | rfl
    · obtain ⟨q, hq⟩ := mapped j hlt
      refine ⟨q, ?_⟩
      rw [new.kept, hq]
      rw [hq]
      exact leafPte_ne_zero _ _
    · rw [new.ptes, if_pos ⟨rfl, rfl⟩]
      exact ⟨mem, rfl⟩
  · intro va hva
    rw [ptes', new.ptes, if_neg (hva k (Nat.lt_succ_self k)),
      rest' va fun j hj => hva j (Nat.lt_succ_of_lt hj)]

/-- `proc_make_first` on a table of empty slots. -/
theorem procMakeFirst_ok (own : Owned L s free kernel)
    (hr : (procMakeFirst L code).run s = .ok () s') :
    ∃ c tf r free', firstUnused s.proc = some c ∧ Moves L kernel (some c) s free s' free' ∧
      s'.nextpid = s.nextpid + 1 ∧ s'.proc = Function.update s.proc c
        { (s.proc c).found s.nextpid with
          pid := 0, tf := tf, pgtbl := r, ustackPages := rounds 0 userInitcodeLen
          heapTop := rounds 0 userInitcodeLen * PGSIZE } ∧
      FirstSpace L s'.pm.mem r := by
  unfold procMakeFirst at hr
  obtain ⟨o, s₁, halloc, rest⟩ := (Comp.bind_ok_iff _ _ _ _ _).mp hr
  rcases procAlloc_ok own.list own.free_nodup halloc with
    ⟨-, rfl, -⟩ | ⟨c, tf, r, free₁, hc, rfl, fresh, next₁, proc₁⟩
  · cases rest
  have apart₁ : ((free₁ : Multiset ℕ) + tablePages L s₁.pm.mem r).Nodup := by
    rw [fresh.pages]
    exact Multiset.coe_nodup.mpr own.free_nodup
  have tfLeaf : tf ∈ tableLeaves L s₁.pm.mem r := by
    rw [← fresh.trapframe]
    exact fresh.space.tree.mem_leaves (fresh.trapframe ▸ fresh.tfRange)
  dsimp only at rest
  rw [setProc, Comp.bind_modify_run, Comp.bind_gets_run, Kernel.setProc_proc_self, proc₁,
    Function.update_self] at rest
  obtain ⟨_, s₂, hmem, rest⟩ := (Comp.bind_ok_iff _ _ _ _ _).mp rest
  obtain ⟨pm₂, hmem, hs₂⟩ := onMem_ok hmem
  rw [Kernel.setProc_pm] at hmem
  obtain ⟨stack, pm₃, hstack, hmem⟩ := (Comp.bind_ok_iff _ _ _ _ _).mp hmem
  obtain ⟨_, pm₄, hmap, hmem⟩ := (Comp.bind_ok_iff _ _ _ _ _).mp hmem
  rw [← setPage_id pm₃ stack] at hmap
  obtain ⟨free₄, new₄⟩ := mapNew fresh.space hstack (by decide) (by decide) (by decide) hmap
  obtain ⟨_, pm₅, hloop, hmem⟩ := (Comp.bind_ok_iff _ _ _ _ _).mp hmem
  obtain ⟨free₅, keeps₅, leaves₅, kept₅, mapped₅, rest₅⟩ := mapCode_ok tf new₄.keeps.space
    (new₄.keeps.apart apart₁) (by decide) hloop
  have keeps := new₄.keeps.trans keeps₅
  have tfLeaf₅ : tf ∈ tableLeaves L pm₅.mem r := by
    apply leaves₅
    rw [new₄.leaves]
    exact Multiset.mem_cons_of_mem tfLeaf
  have out := Space.leaf_apart (keeps.apart apart₁) tfLeaf₅
  rw [setReg, Comp.bind_modify_run, setReg, Comp.run_modify, Outcome.ok.injEq] at hmem
  obtain ⟨-, rfl⟩ := hmem
  rw [setProc, Comp.run_modify, Outcome.ok.injEq] at rest
  obtain ⟨-, rfl⟩ := rest
  dsimp only at hs₂ ⊢
  generalize (fun q : Page => q.putNum EPC 8 0) = f at hs₂
  generalize (fun q : Page => q.putNum SP 8 (rounds 0 userInitcodeLen * PGSIZE)) = g at hs₂
  obtain ⟨space₆, nodes₆, leaves₆, ptes₆⟩ := keeps.space.setPage out.1 out.2 f
  rw [← nodes₆] at out
  obtain ⟨space₇, nodes₇, leaves₇, ptes₇⟩ := space₆.setPage out.1 out.2 g
  have tfFree : tf ∈ free := by
    rw [← Multiset.mem_coe, ← fresh.pages]
    exact Multiset.mem_add.mpr (Or.inr (mem_tablePages_of_leaf tfLeaf))
  have kept : ∀ va, pteAt L s₁.pm.mem r va ≠ 0 →
      pteAt L ((pm₅.setPage tf f).setPage tf g).mem r va = pteAt L s₁.pm.mem r va := by
    intro va hva
    have h₄ := new₄.kept hva
    rw [ptes₇, ptes₆, kept₅ va (by rw [h₄]; exact hva), h₄]
  have unused := firstUnused_state hc
  generalize hp : { (s.proc c).found s.nextpid with
    pid := 0, tf := tf, pgtbl := r, ustackPages := rounds 0 userInitcodeLen
    heapTop := rounds 0 userInitcodeLen * PGSIZE } = p
  have final : s₂.setProc c { s₂.proc c with
      ustackPages := rounds 0 userInitcodeLen
      heapTop := rounds 0 userInitcodeLen * PGSIZE
      state := .runnable } =
      { pm := (pm₅.setPage tf f).setPage tf g
        proc := Function.update s.proc c p
        nextpid := s₁.nextpid } := by
    rw [hs₂, ← hp]
    simp only [Kernel.setProc, proc₁, Function.update_idem, Function.update_self]
    rfl
  rw [final]
  refine ⟨c, tf, r, free₅, hc, ?_, next₁, by rw [← hp], ?_⟩
  rotate_left
  · refine ⟨?_, ?_⟩
    · intro k hk
      dsimp only
      rw [ptes₇, ptes₆]
      exact mapped₅ k hk
    · intro va hstack hcode
      dsimp only
      rw [ptes₇, ptes₆, rest₅ va hcode, new₄.ptes, if_neg hstack]
      exact ⟨fresh.system va, fresh.mapped va⟩
  have child : Function.update s.proc c p c = p := Function.update_self ..
  have root : p.pgtbl = r := by rw [← hp]
  have state : p.state = .runnable := by
    rw [← hp]
    rfl
  refine own.moves_exchange ?_ space₇.list ?_ ?_ ?_ ?_ ?_ ?_
  · intro j hj
    dsimp only
    rw [Function.update_of_ne hj]
    exact .refl _
  · rw [slotPages_of_root ((congrArg ProcT.pgtbl child).trans root)
      (Nat.ne_of_gt fresh.rootRange.pos), own.slotPages_unused unused, add_zero, tablePages, nodes₇,
      nodes₆, leaves₇, leaves₆]
    exact keeps.pages.trans fresh.pages
  · intro q hq _
    have hne : q ≠ tf := (ne_of_mem_of_not_mem tfFree hq).symm
    have taken : q ∉ free₁ ∧ q ∉ tablePages L s₁.pm.mem r := by
      rw [← Multiset.mem_coe, ← fresh.pages, Multiset.mem_add, not_or] at hq
      exact hq
    dsimp only
    rw [setPage_mem_of_ne hne, setPage_mem_of_ne hne, keeps.frame q taken.1 taken.2]
    exact fresh.frame q hq
  · intro _
    dsimp only
    rw [child]
    refine ⟨?_, ?_, ?_, ?_, ?_, ?_, ?_⟩
    · rw [root]
      exact Nat.ne_of_gt fresh.rootRange.pos
    · rw [root]
      exact space₇.tree
    · rw [← hp]
      exact fresh.tfRange
    · rw [root, kept _ (pteAt_ne_zero (fresh.trapframe.symm ▸ fresh.tfRange.pos)),
        fresh.trapframe, ← hp]
    · rw [root, kept _ (pteAt_ne_zero (fresh.trampoline.symm ▸ L.trampoline_pos)),
        fresh.trampoline]
    · rw [root]
      refine fresh.backed.of_keeps keeps ?_
      intro va
      rw [ptes₇, ptes₆]
    · rw [root, Framed, kept _ (pteAt_ne_zero (fresh.trampoline.symm ▸ L.trampoline_pos)),
        kept _ (pteAt_ne_zero (fresh.trapframe.symm ▸ fresh.tfRange.pos))]
      exact fresh.framed
  · intro h
    dsimp only at h
    rw [child, state] at h
    cases h
  · dsimp only
    rw [child, ← hp]
    change rounds 0 userInitcodeLen * PGSIZE ≤ TRAPFRAME
    decide
  · intro h
    dsimp only at h
    rw [child] at h
    rcases h with h | h <;> rw [state] at h <;> cases h

/-- Before the first process. -/
theorem initial_owned {kernel : List ℕ} {n : ℤ} (list : FreeList L pm free)
    (all : ((kernel ++ free : List ℕ) : Multiset ℕ) = allPages L) :
    Owned L ⟨pm, procInit fun _ => .zero, n⟩ free (kernel : Multiset ℕ) := by
  refine ⟨list, ?_, ?_, ?_, ?_, ?_⟩
  · have none : ∀ i, slotPages L ⟨pm, procInit fun _ => .zero, n⟩ i = 0 :=
      fun i => slotPages_of_null rfl
    rw [← all, ← Multiset.coe_add, Finset.sum_eq_zero fun i _ => none i, add_zero, add_comm]
  · exact fun i h => absurd rfl h
  · exact fun i _ => ⟨rfl, rfl⟩
  · exact fun i => Nat.zero_le _
  · exact fun i _ _ => rfl

/-- After boot the pages are divided between the free list, the kernel and `proczero`. -/
theorem boot_ok {m : ℕ → Page} {taken : List Page} {kernel : List ℕ}
    (hr : (boot L taken code).run (powerOn m) = .ok kernel s') : ∃ free, Owned L s' free kernel ∧
      s'.nextpid = 2 ∧ ∃ tf r, s'.proc = Function.update (procInit fun _ => .zero) proczero
        { (procInit fun _ => .zero) proczero with
          pid := 0, state := .runnable, tf := tf, pgtbl := r
          ustackPages := rounds 0 userInitcodeLen
          heapTop := rounds 0 userInitcodeLen * PGSIZE } ∧
      FirstSpace L s'.pm.mem r := by
  unfold boot at hr
  obtain ⟨_, s₁, hinit, rest⟩ := (Comp.bind_ok_iff _ _ _ _ _).mp hr
  obtain ⟨pm₁, hinit, hs₁⟩ := onMem_ok hinit
  obtain ⟨pm₁', free₁, hinit', list₁, all⟩ := pmemInit_returns L (powerOn m).pm
  rw [hinit'] at hinit
  cases hinit
  obtain ⟨pages, s₂, htakes, rest⟩ := (Comp.bind_ok_iff _ _ _ _ _).mp rest
  obtain ⟨pm₂, htakes, hs₂⟩ := onMem_ok htakes
  rw [hs₁] at htakes
  have nodup : free₁.Nodup := by
    rw [← Multiset.coe_nodup, all]
    exact nodup_allPages L
  obtain ⟨free₂, list₂, rfl⟩ := kernelTakes_ok list₁ nodup htakes
  have hs : s₂ = ⟨pm₂, fun _ => .zero, 1⟩ := by
    rw [hs₂, hs₁]
    rfl
  rw [hs, Comp.bind_modify_run] at rest
  obtain ⟨_, s₃, hfirst, rest⟩ := (Comp.bind_ok_iff _ _ _ _ _).mp rest
  cases rest
  have start := initial_owned (n := 1) list₂ all
  obtain ⟨c, tf, r, free', hc, moves, hnext, hproc, first⟩ := procMakeFirst_ok start hfirst
  have zero : firstUnused (procInit fun _ => .zero) = some proczero := rfl
  cases zero.symm.trans hc
  exact ⟨free', moves.owned, hnext, tf, r, hproc, first⟩

end MakeFirst

end EasyXv6.Proc
