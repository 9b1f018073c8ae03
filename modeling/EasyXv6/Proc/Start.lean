import EasyXv6.Mem.Room
import EasyXv6.Proc.Runs

set_option autoImplicit false

/-!
# Boot and fork return when there are pages enough
-/
namespace EasyXv6.Proc
open Lib Mem Radix

/-- `m` takes at most `n` pages. -/
abbrev KernelTakes {α : Type} (n : ℕ) (m : Comp Kernel α) : Prop :=
  Comp.Spends (fun s : Kernel => s.pm.allocable) "alloc pages not enough" n m

/-- `m` panics only when `pmem_alloc` has no page left. -/
abbrev KernelOnlyPages {α : Type} (m : Comp Kernel α) (s : Kernel) : Prop :=
  Comp.HaltsOnly "alloc pages not enough" m s

section Takes

variable {α : Type} {n : ℕ}

theorem takes_onMem {m : Comp Pmem α} (h : Takes n m) : KernelTakes n (onMem m) :=
  .zoom (fun _ => rfl) (fun _ _ => rfl) h

theorem only_onMem {m : Comp Pmem α} {s : Kernel} (h : OnlyPages m s.pm) :
    KernelOnlyPages (onMem m) s := .zoom h

theorem takes_setProc (i : Fin NPROC) (f : ProcT → ProcT) : KernelTakes 0 (setProc i f) :=
  .modify fun _ => Nat.le_refl _

theorem takes_allocpid : KernelTakes 0 allocpid := fun _ _ => Nat.le_refl _

theorem takes_procPgtblInit (L : Layout) (tf : ℕ) : Takes 5 (procPgtblInit L tf) := by
  unfold procPgtblInit
  refine Comp.Spends.bind (n := 1) (k := 4) takes_pmemAlloc fun r => ?_
  refine .ite ((Comp.Spends.pure _).mono (Nat.zero_le _)) ?_
  refine Comp.Spends.bind (n := 0) (k := 4) (takes_modify fun _ => Nat.le_refl _) fun _ => ?_
  refine Comp.Spends.bind (n := 2) (k := 2)
    (takes_vmMappages_page r _ _ (by decide) (by decide)) fun _ => ?_
  exact Comp.Spends.bind (n := 2) (k := 0)
    (takes_vmMappages_page r _ _ (by decide) (by decide)) fun _ => .pure _

theorem takes_procFree (L : Layout) (c : Fin NPROC) : KernelTakes 0 (procFree L c) := by
  unfold procFree
  refine Comp.Spends.bind (n := 0) (k := 0) (.gets _) fun p => ?_
  refine Comp.Spends.bind (n := 0) (k := 0)
    (takes_onMem (.ite (takes_pmemFree L _) (.pure _))) fun _ => ?_
  exact Comp.Spends.bind (n := 0) (k := 0)
    (takes_onMem (.ite (takes_uvmDestroyPgtbl L _) (.pure _))) fun _ => takes_setProc c _

theorem takes_procAlloc (L : Layout) : KernelTakes 6 (procAlloc L) := by
  unfold procAlloc
  refine Comp.Spends.bind (n := 0) (k := 6) (.gets id) fun s => ?_
  split
  · exact (Comp.Spends.pure _).mono (Nat.zero_le _)
  next i _ =>
  refine Comp.Spends.bind (n := 0) (k := 6) takes_allocpid fun pid => ?_
  refine Comp.Spends.bind (n := 0) (k := 6) (takes_setProc i _) fun _ => ?_
  refine Comp.Spends.bind (n := 1) (k := 5) (takes_onMem takes_pmemAlloc) fun tf => ?_
  refine Comp.Spends.bind (n := 0) (k := 5) (takes_setProc i _) fun _ => ?_
  refine .ite ?_ ?_
  · exact (Comp.Spends.bind (n := 0) (k := 0) (takes_procFree L i) fun _ => .pure _).mono
      (Nat.zero_le _)
  refine Comp.Spends.bind (n := 5) (k := 0) (takes_onMem (takes_procPgtblInit L tf)) fun r => ?_
  refine Comp.Spends.bind (n := 0) (k := 0) (takes_setProc i _) fun _ => ?_
  refine .ite ?_ (.pure _)
  exact Comp.Spends.bind (n := 0) (k := 0) (takes_procFree L i) fun _ => .pure _

theorem takes_uvmCopyPgtbl (L : Layout) (old new top : ℕ) (htop : top ≤ TRAPFRAME) :
    Takes (rounds 0 top * 3) (uvmCopyPgtbl L old new top) := by
  unfold uvmCopyPgtbl
  -- the addresses past the last round do not matter
  rw [Comp.forUpTo_congr (fun k hk => (if_pos hk).symm : ∀ k < rounds 0 top,
    uvmCopyPage L old new (k * PGSIZE) =
      if k < rounds 0 top then uvmCopyPage L old new (k * PGSIZE) else pure ())]
  refine .forUpTo (fun k => ?_) _
  split
  next hk =>
    refine takes_uvmCopyPage L old new (Nat.mul_mod_left ..) ?_
    simp only [rounds, TRAPFRAME, TRAMPOLINE, MAXVA, PGSIZE] at *
    omega
  · exact (Comp.Spends.pure _).mono (Nat.zero_le _)

end Takes

section Alloc

variable {L : Layout} {s s' : Kernel} {pm pm₁ pm₂ : Pmem} {free : List ℕ} {tf r : ℕ}

/-- A page of zeros taken from the free list is an empty table. -/
theorem emptyTable (list : FreeList L pm free) (nodup : free.Nodup)
    (halloc : pmemAlloc.run pm = .ok r pm₁) : ∃ rest, free = r :: rest ∧ InRange L r ∧
      Space L (pm₁.setPage r fun _ => Bytes.zero) rest r ∧
      ∀ va, pteAt L (pm₁.setPage r fun _ => Bytes.zero).mem r va = 0 := by
  obtain ⟨rest, rfl, list₁, -, range⟩ := list.alloc halloc
  obtain ⟨hr, nodup⟩ := List.nodup_cons.mp nodup
  have zero : (pm₁.setPage r fun _ => Bytes.zero).mem r = Bytes.zero := Function.update_self ..
  obtain ⟨tree, nodes, -, ptes⟩ := TreeOk.empty (L := L) zero
  refine ⟨rest, rfl, range, ⟨list₁.setPage hr _, tree, ?_⟩, ptes⟩
  rw [nodes, add_comm, Multiset.singleton_add]
  exact Multiset.nodup_cons.mpr ⟨hr, Multiset.coe_nodup.mpr nodup⟩

theorem procPgtblInit_only (list : FreeList L pm free) (nodup : free.Nodup)
    (htf : tf < 2 ^ 64) : OnlyPages (procPgtblInit L tf) pm := by
  unfold procPgtblInit
  refine .bind (pmemAlloc_only pm) fun r pm₁ halloc => ?_
  obtain ⟨rest, -, range, space, ptes⟩ := emptyTable list nodup halloc
  rw [if_neg (Nat.ne_of_gt range.pos), memzero]
  refine .modify ?_
  generalize pm₁.setPage r (fun _ => Bytes.zero) = z at space ptes
  have first : (vmMappages r TRAMPOLINE L.trampoline PGSIZE (PTE_R ||| PTE_X)).run z =
      (vmMappage r TRAMPOLINE L.trampoline (PTE_R ||| PTE_X)).run z :=
    vmMappages_page (by decide) (by decide) (trampoline_lt L)
  refine .bind ?_ fun _ pm₂ hmap => .bind ?_ fun _ pm₃ _ => .of_ok (Comp.run_pure _ _)
  · intro w t hw
    rw [first] at hw
    exact vmMappage_only space (by rw [ptes]; rfl) w t hw
  · rw [first] at hmap
    obtain ⟨free₂, re, -, -, ptes₂, -⟩ := vmMappage_ok space (by decide) (trampoline_lt L) hmap
    intro w t hw
    rw [vmMappages_page (by decide) (by decide) htf] at hw
    refine vmMappage_only re.space ?_ w t hw
    rw [ptes₂, if_neg (by decide), ptes]
    rfl

theorem procAlloc_only (list : FreeList L s.pm free) (nodup : free.Nodup) :
    KernelOnlyPages (procAlloc L) s := by
  unfold procAlloc
  refine .get ?_
  split
  · exact .of_ok (Comp.run_pure _ _)
  next c hc =>
  refine .bind (.of_ok (show allocpid.run s = .ok s.nextpid _ from rfl)) fun pid s₁ hpid => ?_
  cases hpid
  refine .modify ?_
  refine .bind (only_onMem (pmemAlloc_only _)) fun tf s₂ htf => ?_
  obtain ⟨pm₁, halloc, rfl⟩ := onMem_ok htf
  obtain ⟨rest, rfl, list₁, -, tfRange⟩ := list.alloc halloc
  refine .modify ?_
  rw [if_neg (Nat.ne_of_gt tfRange.pos)]
  have nodup₁ := (List.nodup_cons.mp nodup).2
  refine .bind (only_onMem (procPgtblInit_only list₁ nodup₁ tfRange.lt_pa)) fun r s₃ hinit => ?_
  obtain ⟨pm₂, run, rfl⟩ := onMem_ok hinit
  obtain ⟨free', fresh⟩ := procPgtblInit_ok list nodup halloc run
  refine .modify ?_
  rw [if_neg (Nat.ne_of_gt fresh.rootRange.pos)]
  exact .of_ok (Comp.run_pure _ _)

end Alloc

section Fork

variable {L : Layout} {s s' : Kernel} {free : List ℕ} {kernel : Multiset ℕ} {i c : Fin NPROC}

theorem page_of_round {k top : ℕ} (htop : top ≤ TRAPFRAME) (hk : k < rounds 0 top) :
    k * PGSIZE < TRAPFRAME ∧ k * PGSIZE + PGSIZE ≤ 2 ^ 64 := by
  simp only [rounds, TRAPFRAME, TRAMPOLINE, MAXVA, PGSIZE] at *
  omega

theorem not_sameEntry_of_lt {va va' : ℕ} (h : va' + PGSIZE ≤ va) (hva : va < MAXVA) :
    ¬ SameEntry va va' := by
  simp only [MAXVA, PGSIZE] at *
  rw [sameEntry_iff (by omega) (by omega)]
  simp only [PGSIZE]
  omega

/-- The pages of the parent are copied to where the child has none. -/
theorem uvmCopyPgtbl_only {pm : Pmem} {old new top : ℕ} (sp : Space L pm free new)
    (apart : ((free : Multiset ℕ) + tablePages L pm.mem new).Nodup) (tree : TreeOk L pm.mem old)
    (nodesOut : ∀ q ∈ tableNodes L pm.mem old, q ∉ free ∧ q ∉ tablePages L pm.mem new)
    (dataOut : ∀ va, PTE2PA (pteAt L pm.mem old va) ∉ free ∧
      PTE2PA (pteAt L pm.mem old va) ∉ tablePages L pm.mem new)
    (htop : top ≤ TRAPFRAME) (valid : ∀ k < rounds 0 top, isValid (pteAt L pm.mem old (k * PGSIZE)))
    (unmapped : ∀ k < rounds 0 top, pteAt L pm.mem new (k * PGSIZE) = 0) :
    OnlyPages (uvmCopyPgtbl L old new top) pm := by
  refine .forUpTo fun k hk t before => ?_
  have count : rounds 0 (k * PGSIZE) = k := by
    simp only [rounds, PGSIZE]
    omega
  have part : (uvmCopyPgtbl L old new (k * PGSIZE)).run pm = .ok () t := by
    unfold uvmCopyPgtbl
    rw [count]
    exact before
  obtain ⟨hlt, hend⟩ := page_of_round htop hk
  obtain ⟨free', keeps, -, -, -, rest⟩ :=
    uvmCopyPgtbl_ok sp apart tree nodesOut dataOut (Nat.le_of_lt hlt) part
  have same : ∀ q ∈ tableNodes L pm.mem old, t.mem q = pm.mem q :=
    fun q hq => keeps.frame q (nodesOut q hq).1 (nodesOut q hq).2
  refine uvmCopyPage_only keeps.space (tree.of_same same).1 ?_ ?_ (Nat.mul_mod_left ..) hend
  · rw [pteAt_of_same same]
    exact valid k hk
  · rw [rest, unmapped k hk]
    intro j hj
    rw [count] at hj
    have hj' : j * PGSIZE + PGSIZE ≤ k * PGSIZE := by
      rw [← Nat.add_one_mul]
      exact Nat.mul_le_mul_right PGSIZE hj
    intro same'
    refine not_sameEntry_of_lt hj' ?_ ⟨same'.1.symm, same'.2.symm⟩
    exact Nat.lt_trans hlt (by decide)

theorem procFork_returns (own : Owned L s free kernel) (hi : (s.proc i).state ≠ .unused)
    (hc : firstUnused s.proc = some c)
    (valid : ∀ k < rounds 0 (s.proc i).heapTop,
      isValid (pteAt L s.pm.mem (s.proc i).pgtbl (k * PGSIZE)))
    (room : 6 + rounds 0 (s.proc i).heapTop * 3 ≤ s.pm.allocable) :
    ∃ s', (procFork L i).run s = .ok s.nextpid s' := by
  obtain ⟨o, s₁, halloc, room₁⟩ :=
    (procAlloc_only (L := L) own.list own.free_nodup).returns (takes_procAlloc L)
      (Nat.le_trans (Nat.le_add_right _ _) room)
  rcases procAlloc_ok own.list own.free_nodup halloc with
    ⟨hnone, -, -⟩ | ⟨c', tf, r, free₁, hc', rfl, fresh, -, proc₁⟩
  · rw [hnone] at hc
    cases hc
  cases hc.symm.trans hc'
  have hic : i ≠ c := by
    rintro rfl
    exact hi (firstUnused_state hc)
  have old : s₁.proc i = s.proc i := by
    rw [proc₁, Function.update_of_ne hic]
  have new : s₁.proc c = { (s.proc c).found s.nextpid with tf := tf, pgtbl := r } := by
    rw [proc₁, Function.update_self]
  obtain ⟨apart, same, tree, nodesOut, dataOut⟩ := fresh.copyReady own hi
  have unmapped : ∀ k < rounds 0 (s.proc i).heapTop, pteAt L s₁.pm.mem r (k * PGSIZE) = 0 := by
    intro k hk
    by_contra hne
    obtain ⟨hlt, -⟩ := page_of_round (own.heapTop i) hk
    have aligned : k * PGSIZE + PGSIZE ≤ TRAPFRAME := by
      simp only [TRAPFRAME, TRAMPOLINE, MAXVA, PGSIZE] at hlt ⊢
      omega
    rcases fresh.mapped _ hne with h | h
    · exact not_sameEntry_of_lt (Nat.le_trans aligned (by decide)) (by decide) h
    · exact not_sameEntry_of_lt aligned (by decide) h
  obtain ⟨_, pm₂, hcopy, -⟩ := (uvmCopyPgtbl_only fresh.space apart tree nodesOut dataOut
    (own.heapTop i) (fun k hk => by rw [pteAt_of_same same]; exact valid k hk) unmapped).returns
    (takes_uvmCopyPgtbl L _ _ _ (own.heapTop i)) (by omega)
  unfold procFork
  rw [Comp.run_bind_of_ok halloc]
  dsimp only
  rw [Comp.bind_gets_run, Comp.bind_gets_run, old, new,
    Comp.run_bind_of_ok (onMem_returns hcopy)]
  exact ⟨_, rfl⟩

end Fork

section Reap

variable {L : Layout} {s s' : Kernel} {free : List ℕ} {kernel : Multiset ℕ} {i c : Fin NPROC}

theorem TreeOk.isValid_of_ne_zero {pm : Pmem} {r va : ℕ} (ok : TreeOk L pm.mem r)
    (h : pteAt L pm.mem r va ≠ 0) : isValid (pteAt L pm.mem r va) := by
  by_contra hv
  exact h (ok.pteAt_zero (by simpa using hv))

/-- A slot in use is freed without a panic. -/
theorem procFree_returns (own : Owned L s free kernel) (hc : (s.proc c).state ≠ .unused) :
    ∃ s', (procFree L c).run s = .ok () s' := by
  have ok := own.used c hc
  have apart := own.apart c
  rw [own.slotPages_eq hc] at apart
  have htr : ¬ InRange L (PTE2PA (pteAt L s.pm.mem (s.proc c).pgtbl TRAMPOLINE)) := by
    rw [ok.trampoline]
    exact trampoline_not_inRange L
  obtain ⟨sp₁, -, -, ptes₁⟩ := (own.space hc).pushLeaf apart ok.tf (own.tf_leaf hc)
  have trampoline := TreeOk.isValid_of_ne_zero ok.tree
    (pteAt_ne_zero (ok.trampoline.symm ▸ L.trampoline_pos))
  have trapframe := TreeOk.isValid_of_ne_zero ok.tree
    (pteAt_ne_zero (ok.trapframe.symm ▸ ok.tf.pos))
  obtain ⟨s₂, unmap₂⟩ := vmUnmappage_returns sp₁ TRAMPOLINE
    (by rw [ptes₁]; exact trampoline) (by rw [ptes₁]; exact ok.framed.1)
  obtain ⟨re₂, -, -, ptes₂⟩ := vmUnmappage_keep sp₁ unmap₂
  obtain ⟨s₃, unmap₃⟩ := vmUnmappage_returns re₂.space TRAPFRAME
    (by rw [ptes₂, if_neg (by decide), ptes₁]; exact trapframe)
    (by rw [ptes₂, if_neg (by decide), ptes₁]; exact ok.framed.2)
  rw [← vmUnmappages_page (by decide) (by decide)] at unmap₂ unmap₃
  have det := detach_ok (own.space hc) apart ok.tf ok.trapframe htr unmap₂ unmap₃
  have root : InRange L (s.proc c).pgtbl :=
    own.inRange (i := c) (own.mem_slotPages_of_node hc mem_nodes_self)
  obtain ⟨s₄, destroy⟩ := destroyPgtbl_returns root det.list (by rw [det.pages]; exact apart)
    (det.tree.sound (by
      intro va hva
      rw [det.ptes] at hva ⊢
      split at hva
      · exact absurd rfl hva
      split at hva
      · exact absurd rfl hva
      next hf ht =>
      rw [if_neg hf, if_neg ht]
      exact (ok.backed va hva).resolve_left ht))
  have run : (uvmDestroyPgtbl L (s.proc c).pgtbl).run (s.pm.push (s.proc c).tf) = .ok () s₄ :=
    (Comp.run_bind_of_ok unmap₂).trans ((Comp.run_bind_of_ok unmap₃).trans destroy)
  unfold procFree
  rw [Comp.bind_gets_run, if_pos (Nat.ne_of_gt ok.tf.pos), if_pos ok.root,
    Comp.run_bind_of_ok (onMem_returns (pmemFree_returns ok.tf))]
  exact ⟨_, (Comp.run_bind_of_ok (onMem_returns
    (s := { s with pm := s.pm.push (s.proc c).tf }) run)).trans rfl⟩

/-- `proc_wait` reaps a zombie child without a panic. -/
theorem procWait_returns (addr : ℕ) (own : Owned L s free kernel)
    (hi : (s.proc i).state ≠ .unused) (hc : firstZombie s.proc i = some c) :
    ∃ s', (procWait L i addr).run s = .ok (some (s.proc c).pid) s' := by
  have copy : ∃ b pm₁, (if addr ≠ 0 then uvmCopyout (s.proc i).pgtbl addr
      (leByte ((s.proc c).xstate % 2 ^ 32).toNat) 4 else pure true).run s.pm = .ok b pm₁ := by
    rw [Comp.run_ite]
    split
    · exact uvmCopyoutLoop_returns (own.used i hi).tree
        fun q user => (own.user_apart hi user).2 i hi
    · exact ⟨true, s.pm, rfl⟩
  obtain ⟨b, pm₁, hcopy⟩ := copy
  have written := copyout_written own hi hcopy
  have moves₁ := own.moves_user hi written.1 written.2.1 written.2.2
  have used : ({ s with pm := pm₁ }.proc c).state ≠ .unused := by
    change (s.proc c).state ≠ .unused
    rw [(firstZombie_spec hc).2]
    simp
  obtain ⟨s₂, hfree⟩ := procFree_returns moves₁.owned used
  unfold procWait
  rw [Comp.bind_get_run, hc]
  dsimp only
  rw [Comp.run_bind_of_ok (onMem_returns hcopy),
    Comp.run_bind_of_ok hfree]
  exact ⟨s₂, rfl⟩

end Reap

section Boot

variable {L : Layout} {s s' : Kernel} {pm : Pmem} {free : List ℕ} {kernel : Multiset ℕ}
  {code : ℕ → UInt8} {c : Fin NPROC}

theorem takes_mapCode (r va : ℕ) (hva : va % PGSIZE = 0) (hlt : va + PGSIZE ≤ 2 ^ 64) :
    Takes 3 (mapCode code r va) := by
  unfold mapCode
  refine Comp.Spends.bind (n := 1) (k := 2) takes_pmemAlloc fun mem => ?_
  refine .ite (.halt (by decide)) ?_
  refine Comp.Spends.bind (n := 0) (k := 2) (takes_modify fun _ => Nat.le_refl _) fun _ => ?_
  refine Comp.Spends.bind (n := 2) (k := 0) (takes_vmMappages_page r _ _ hva hlt) fun _ => ?_
  exact takes_modify fun _ => Nat.le_refl _

theorem mapCode_only {r va : ℕ} (sp : Space L pm free r) (unmapped : pteAt L pm.mem r va = 0)
    (hva : va % PGSIZE = 0) (hlt : va + PGSIZE ≤ 2 ^ 64) : OnlyPages (mapCode code r va) pm := by
  unfold mapCode
  refine .bind (pmemAlloc_only pm) fun mem pm₁ halloc => ?_
  obtain ⟨_, _, _, _, hrange, _⟩ := sp.alloc halloc
  rw [if_neg (Nat.ne_of_gt hrange.pos), memzero]
  refine .modify (.bind (mapNew_only sp halloc unmapped hva hlt) fun _ _ _ => ?_)
  exact .of_ok (Comp.run_modify _ _)

/-- The stack and the code of the first process. -/
theorem takes_makeFirst (r : ℕ) (regs : Comp Pmem Unit) (h : Takes 0 regs) :
    Takes 6 (do
      let ustackPhys ← pmemAlloc
      vmMappages r (KSTACK 0 - PGSIZE) ustackPhys PGSIZE (PTE_R ||| PTE_W ||| PTE_U)
      .forUpTo (rounds 0 userInitcodeLen) fun k => mapCode code r (k * PGSIZE)
      regs) := by
  refine Comp.Spends.bind (n := 1) (k := 5) takes_pmemAlloc fun stack => ?_
  refine Comp.Spends.bind (n := 2) (k := 3)
    (takes_vmMappages_page r _ _ (by decide) (by decide)) fun _ => ?_
  refine Comp.Spends.bind (n := 3) (k := 0) ?_ fun _ => h
  have one : rounds 0 userInitcodeLen = 1 := by decide
  rw [one]
  change Takes 3 (pure () >>= fun _ => mapCode code r (0 * PGSIZE))
  refine Comp.Spends.bind (n := 0) (k := 3) (.pure _) fun _ => ?_
  exact takes_mapCode r _ (by decide) (by decide)

theorem procMakeFirst_returns (code : ℕ → UInt8) (own : Owned L s free kernel)
    (hc : firstUnused s.proc = some c) (room : 12 ≤ s.pm.allocable) :
    ∃ s', (procMakeFirst L code).run s = .ok () s' ∧ s.pm.allocable ≤ s'.pm.allocable + 12 := by
  obtain ⟨o, s₁, halloc, room₁⟩ :=
    (procAlloc_only (L := L) own.list own.free_nodup).returns (takes_procAlloc L) (by omega)
  rcases procAlloc_ok own.list own.free_nodup halloc with
    ⟨hnone, -, -⟩ | ⟨c', tf, r, free₁, hc', rfl, fresh, -, proc₁⟩
  · rw [hnone] at hc
    cases hc
  cases hc.symm.trans hc'
  have only : OnlyPages (do
      let ustackPhys ← pmemAlloc
      vmMappages r (KSTACK 0 - PGSIZE) ustackPhys PGSIZE (PTE_R ||| PTE_W ||| PTE_U)
      .forUpTo (rounds 0 userInitcodeLen) fun k => mapCode code r (k * PGSIZE)
      setReg tf EPC 0
      setReg tf SP (rounds 0 userInitcodeLen * PGSIZE)) s₁.pm := by
    have free0 : ∀ va, ¬ SameEntry TRAMPOLINE va → ¬ SameEntry TRAPFRAME va →
        pteAt L s₁.pm.mem r va = 0 := by
      intro va h h'
      by_contra hne
      exact (fresh.mapped va hne).elim h h'
    refine .bind (pmemAlloc_only _) fun stack pm₂ hstack => ?_
    refine .bind ?_ fun _ pm₃ hmap => ?_
    · intro w t hw
      rw [← setPage_id pm₂ stack] at hw
      exact mapNew_only fresh.space hstack (free0 _ (by decide) (by decide)) (by decide)
        (by decide) w t hw
    rw [← setPage_id pm₂ stack] at hmap
    obtain ⟨free₃, new₃⟩ := mapNew fresh.space hstack (by decide) (by decide) (by decide) hmap
    refine .bind (.forUpTo fun k hk t before => ?_) fun _ _ _ => .of_ok (Comp.run_modify _ _)
    have zero : k = 0 := by
      have one : rounds 0 userInitcodeLen = 1 := by decide
      omega
    subst zero
    cases before
    refine mapCode_only new₃.keeps.space ?_ (by decide) (by decide)
    rw [new₃.ptes, if_neg (by decide), free0 _ (by decide) (by decide)]
  obtain ⟨_, pm₂, hmem, room₂⟩ := only.returns
    (takes_makeFirst r _ (Comp.Spends.bind (n := 0) (k := 0)
      (takes_modify fun _ => Nat.le_refl _) fun _ => takes_modify fun _ => Nat.le_refl _)) (by omega)
  unfold procMakeFirst
  rw [Comp.run_bind_of_ok halloc]
  dsimp only
  rw [setProc, Comp.bind_modify_run, Comp.bind_gets_run, Kernel.setProc_proc_self, proc₁,
    Function.update_self]
  refine ⟨_, (Comp.run_bind_of_ok (onMem_returns (s := s₁.setProc c _) hmem)).trans rfl, ?_⟩
  change s.pm.allocable ≤ pm₂.allocable + 12
  omega

theorem card_allPages (L : Layout) :
    (allPages L).card = (PHYSTOP - L.allocBegin) / PGSIZE := by
  rw [allPages, Multiset.coe_card, List.length_map, List.length_range]

theorem kernelTakes_returns (taken : List Page) (list : FreeList L pm free) (nodup : free.Nodup)
    (room : taken.length ≤ free.length) :
    ∃ pages pm', (kernelTakes taken).run pm = .ok pages pm' ∧ pages.length = taken.length := by
  induction taken generalizing pm free with
  | nil => exact ⟨[], pm, rfl, rfl⟩
  | cons content rest ih =>
    have enough : 1 ≤ pm.allocable := by
      rw [list.allocable]
      exact Nat.le_trans (Nat.succ_le_succ (Nat.zero_le _)) room
    obtain ⟨page, pm₁, halloc, -⟩ := (pmemAlloc_only pm).returns takes_pmemAlloc enough
    obtain ⟨free₁, rfl, list₁, -, -⟩ := list.alloc halloc
    obtain ⟨notIn, nodup₁⟩ := List.nodup_cons.mp nodup
    obtain ⟨pages, pm₂, hrest, len⟩ := ih (list₁.setPage notIn fun _ => content) nodup₁
      (Nat.le_of_succ_le_succ room)
    refine ⟨page :: pages, pm₂, ?_, by rw [List.length_cons, List.length_cons, len]⟩
    unfold kernelTakes
    rw [Comp.run_bind_of_ok halloc, Comp.bind_modify_run, Comp.run_bind_of_ok hrest]
    rfl

/-- A machine with twelve pages more than the kernel takes for itself boots. -/
theorem boot_returns (L : Layout) (m : ℕ → Page) (taken : List Page) (code : ℕ → UInt8)
    (room : taken.length + 12 ≤ (PHYSTOP - L.allocBegin) / PGSIZE) :
    ∃ kernel s', (boot L taken code).run (powerOn m) = .ok kernel s' ∧
      (PHYSTOP - L.allocBegin) / PGSIZE ≤ s'.pm.allocable + taken.length + 12 := by
  obtain ⟨pm₁, free₁, hinit, list₁, all⟩ := pmemInit_returns L (powerOn m).pm
  have nodup : free₁.Nodup := by
    rw [← Multiset.coe_nodup, all]
    exact nodup_allPages L
  have len : free₁.length = (PHYSTOP - L.allocBegin) / PGSIZE := by
    rw [← Multiset.coe_card, all, card_allPages]
  obtain ⟨pages, pm₂, htakes, plen⟩ := kernelTakes_returns taken list₁ nodup (by omega)
  obtain ⟨free₂, list₂, rfl⟩ := kernelTakes_ok list₁ nodup htakes
  have own : Owned L ⟨pm₂, procInit fun _ => .zero, 1⟩ free₂ (pages : Multiset ℕ) :=
    initial_owned list₂ all
  have left : (PHYSTOP - L.allocBegin) / PGSIZE = pm₂.allocable + taken.length := by
    rw [list₂.allocable, ← len, List.length_append, plen, Nat.add_comm]
  obtain ⟨s', hfirst, room'⟩ := procMakeFirst_returns code own (c := proczero) rfl (by
    change 12 ≤ pm₂.allocable
    omega)
  refine ⟨pages, s', ?_, ?_⟩
  rotate_left
  · change pm₂.allocable ≤ _ at room'
    omega
  unfold boot
  rw [Comp.run_bind_of_ok (onMem_returns hinit),
    Comp.run_bind_of_ok (onMem_returns (s := { powerOn m with pm := pm₁ }) htakes),
    Comp.bind_modify_run]
  exact (Comp.run_bind_of_ok hfirst).trans rfl

/-- The first process runs and forks. -/
theorem fork_after_boot (L : Layout) (m : ℕ → Page) (code : ℕ → UInt8)
    (room : 21 ≤ (PHYSTOP - L.allocBegin) / PGSIZE) :
    ∃ kernel s₀ s', (boot L [] code).run (powerOn m) = .ok kernel s₀ ∧ Live (s₀.proc proczero) ∧
      firstUnused (s₀.dispatch proczero).proc = some 1 ∧
      (procFork L proczero).run (s₀.dispatch proczero) = .ok 2 s' := by
  obtain ⟨kernel, s₀, hboot, left⟩ := boot_returns L m [] code (by change 0 + 12 ≤ _; omega)
  obtain ⟨free, own, next, tf, r, proc, first⟩ := boot_ok hboot
  have runnable : (s₀.proc proczero).state = .runnable := by rw [proc, Function.update_self]
  have root : (s₀.proc proczero).pgtbl = r := by rw [proc, Function.update_self]
  have top : (s₀.proc proczero).heapTop = rounds 0 userInitcodeLen * PGSIZE := by
    rw [proc, Function.update_self]
  have live : Live (s₀.proc proczero) := Or.inl runnable
  have idle : ∀ j, (s₀.proc j).state ≠ .running := by
    intro j
    by_cases hj : j = proczero
    · rw [hj, runnable]
      simp
    · rw [proc, Function.update_of_ne hj]
      simp [procInit]
  have tail : (s₀.dispatch proczero).proc 1 = (procInit fun _ => .zero) 1 := by
    rw [dispatch_other (by decide) (idle 1), proc, Function.update_of_ne (by decide)]
  have head : ((s₀.dispatch proczero).proc proczero).state = .running := by rw [dispatch_self]
  have slot : firstUnused (s₀.dispatch proczero).proc = some 1 := by
    change List.find? _ (proczero :: 1 :: (List.finRange NPROC).drop 2) = some 1
    rw [List.find?_cons_of_neg (by rw [head]; decide), List.find?_cons_of_pos (by rw [tail]; rfl)]
  obtain ⟨free', moves⟩ := own.step (step_dispatch live)
  obtain ⟨s', hfork⟩ := procFork_returns moves.owned (not_unused_of_running head) slot
    (by
      intro k hk
      refine TreeOk.isValid_of_ne_zero (moves.owned.used _ (not_unused_of_running head)).tree ?_
      rw [dispatch_self] at hk ⊢
      dsimp only at hk ⊢
      rw [root]
      rw [top] at hk
      exact first.mapped hk)
    (by
      rw [dispatch_self]
      dsimp only
      rw [top]
      change 9 ≤ s₀.pm.allocable
      change _ ≤ s₀.pm.allocable + 0 + 12 at left
      omega)
  refine ⟨kernel, s₀, s', hboot, live, slot, ?_⟩
  rw [hfork]
  exact congrArg (Outcome.ok · s') next

end Boot

section Child

variable {L : Layout} {s s' : Kernel} {i : Fin NPROC}

theorem dispatch_parent (s : Kernel) (i j : Fin NPROC) :
    ((s.dispatch i).proc j).parent = (s.proc j).parent := by
  unfold Kernel.dispatch
  dsimp only
  split
  · rfl
  · split <;> rfl

theorem reparent_childless {t : Table} (h : ∀ pp, (t pp).parent ≠ some i) :
    Machine.reparent t i = t := by
  unfold Machine.reparent
  induction List.finRange NPROC with
  | nil => rfl
  | cons pp rest ih =>
    have one : Machine.reparentOne i t pp = t := if_neg (h pp)
    rw [List.foldl_cons, one]
    exact ih

/-- A child of the first process that has no children of its own exits. -/
theorem procExit_childless (st : ℤ) (hi : i ≠ proczero)
    (parent : (s.proc i).parent = some proczero) (childless : ∀ pp, (s.proc pp).parent ≠ some i) :
    ∃ s', (procExit i st).run s = .ok () s' ∧
      s'.proc i = { s.proc i with ofile := fun _ => none, xstate := st, state := .zombie } ∧
      (s'.proc proczero).parent = (s.proc proczero).parent ∧
      (s'.proc proczero).pid = (s.proc proczero).pid ∧
      (Live (s.proc proczero) → Live (s'.proc proczero)) := by
  obtain ⟨t, ht⟩ : ∃ t, Function.update s.proc i { s.proc i with ofile := fun _ => none } = t :=
    ⟨_, rfl⟩
  have self : t i = { s.proc i with ofile := fun _ => none } := by
    rw [← ht, Function.update_self]
  have other : ∀ pp, pp ≠ i → t pp = s.proc pp := by
    intro pp hp
    rw [← ht, Function.update_of_ne hp]
  have same : Machine.reparent t i = t := by
    refine reparent_childless fun pp => ?_
    by_cases hp : pp = i
    · rw [hp, self]
      exact childless i
    · rw [other pp hp]
      exact childless pp
  have parent' : (t i).parent = some proczero := by rw [self, parent]
  have wake : Machine.wakeupOne t proczero i = t i ∧
      (Machine.wakeupOne t proczero proczero).parent = (t proczero).parent ∧
      (Machine.wakeupOne t proczero proczero).pid = (t proczero).pid ∧
      (Live (t proczero) → Live (Machine.wakeupOne t proczero proczero)) := by
    unfold Machine.wakeupOne
    split
    · rw [Function.update_of_ne hi, Function.update_self]
      exact ⟨rfl, rfl, rfl, fun _ => Or.inl rfl⟩
    · exact ⟨rfl, rfl, rfl, id⟩
  rw [other proczero hi.symm] at wake
  unfold procExit
  rw [if_neg hi, setProc, Comp.bind_modify_run, Comp.bind_modify_run, Comp.bind_gets_run]
  dsimp only [Kernel.setProc]
  rw [ht, same, parent']
  refine ⟨_, rfl, ?_, ?_⟩
  · dsimp only [Kernel.setProc]
    rw [Function.update_self, wake.1, self]
  · dsimp only [Kernel.setProc]
    rw [Function.update_of_ne hi.symm]
    exact wake.2

/-- The first process forks a child, which exits and is waited for. -/
theorem reap_after_boot (L : Layout) (m : ℕ → Page) (code : ℕ → UInt8) (st : ℤ) (addr : ℕ)
    (room : 21 ≤ (PHYSTOP - L.allocBegin) / PGSIZE) :
    ∃ kernel s₀ s₁ s₂ s₃, (boot L [] code).run (powerOn m) = .ok kernel s₀ ∧
      Along (Step L kernel) s₀ [(.other proczero, s₀.dispatch proczero), (.fork proczero 2, s₁),
        (.other 1, s₁.dispatch 1), (.exit 1 st, s₂), (.other proczero, s₂.dispatch proczero),
        (.wait proczero addr (some 2), s₃)] ∧
      firstZombie (s₂.dispatch proczero).proc proczero = some 1 ∧
      (s₃.proc 1).state = .unused ∧ (s₃.proc 1).pid = 2 ∧ (s₃.proc proczero).pid = 0 := by
  obtain ⟨kernel, s₀, s₁, hboot, live, slot, hfork⟩ := fork_after_boot L m code room
  obtain ⟨free, own, next, tf, r, proc, -⟩ := boot_ok hboot
  have init : (s₀.proc proczero).parent = none ∧ (s₀.proc proczero).pid = 0 := by
    rw [proc, Function.update_self]
    exact ⟨rfl, rfl⟩
  have orphan : ∀ j, (s₀.proc j).parent = none := by
    intro j
    by_cases hj : j = proczero
    · rw [hj, init.1]
    · rw [proc, Function.update_of_ne hj]
      rfl
  -- the child is born
  have run₀ : ((s₀.dispatch proczero).proc proczero).state = .running := by rw [dispatch_self]
  have dispatch₀ : Step L kernel s₀ (.other proczero) (s₀.dispatch proczero) := step_dispatch live
  have fork : Step L kernel (s₀.dispatch proczero) (.fork proczero 2) s₁ := .fork run₀ hfork
  obtain ⟨_, moves₀⟩ := own.step dispatch₀
  rcases procFork_ok moves₀.owned (not_unused_of_running run₀) hfork with
    ⟨-, failed, -⟩ | ⟨-, c, tf', r', free₁, forked⟩
  · cases failed
  cases slot.symm.trans forked.slot
  obtain ⟨_, moves₁⟩ := moves₀.owned.step fork
  have child₁ : (s₁.proc 1).state = .runnable ∧ (s₁.proc 1).pid = 2 ∧
      (s₁.proc 1).parent = some proczero := by
    rw [forked.proc, Function.update_self]
    exact ⟨rfl, next, rfl⟩
  have init₁ : s₁.proc proczero = (s₀.dispatch proczero).proc proczero := by
    rw [forked.proc, Function.update_of_ne (by decide)]
  -- it runs and exits
  have dispatch₁ : Step L kernel s₁ (.other 1) (s₁.dispatch 1) :=
    step_dispatch (Or.inl child₁.1)
  obtain ⟨_, moves₂⟩ := moves₁.owned.step dispatch₁
  have run₁ : ((s₁.dispatch 1).proc 1).state = .running := by rw [dispatch_self]
  have init₂ : (s₁.dispatch 1).proc proczero = { s₀.proc proczero with state := .runnable } := by
    unfold Kernel.dispatch at init₁ ⊢
    dsimp only at init₁ ⊢
    rw [if_pos rfl] at init₁
    rw [if_neg (by decide), init₁, if_pos rfl]
  have childless : ∀ pp, ((s₁.dispatch 1).proc pp).parent ≠ some 1 := by
    intro pp
    rw [dispatch_parent]
    by_cases hp : pp = 1
    · rw [hp, child₁.2.2]
      decide
    · rw [forked.proc, Function.update_of_ne hp, dispatch_parent, orphan]
      simp
  obtain ⟨s₂, hexit, child₂, parent₂, pid₂, live₂⟩ := procExit_childless (s := s₁.dispatch 1)
    (i := 1) st (by decide) (by rw [dispatch_parent, child₁.2.2]) childless
  have exit : Step L kernel (s₁.dispatch 1) (.exit 1 st) s₂ := .exit run₁ hexit
  obtain ⟨_, moves₃⟩ := moves₂.owned.step exit
  -- the first process reaps it
  rw [init₂] at parent₂ pid₂ live₂
  have dispatch₂ : Step L kernel s₂ (.other proczero) (s₂.dispatch proczero) :=
    step_dispatch (live₂ (Or.inl rfl))
  obtain ⟨_, moves₄⟩ := moves₃.owned.step dispatch₂
  have run₂ : ((s₂.dispatch proczero).proc proczero).state = .running := by rw [dispatch_self]
  have child₃ : (s₂.dispatch proczero).proc 1 = s₂.proc 1 :=
    dispatch_other (by decide) (by rw [child₂]; simp)
  have first : firstZombie (s₂.dispatch proczero).proc proczero = some 1 := by
    change List.find? _ (proczero :: 1 :: (List.finRange NPROC).drop 2) = some 1
    rw [List.find?_cons_of_neg, List.find?_cons_of_pos]
    · rw [child₃, child₂, dispatch_self]
      simp [child₁.2.2]
    · rw [dispatch_self]
      simp [parent₂, init.1]
  have pid₃ : ((s₂.dispatch proczero).proc 1).pid = 2 := by
    rw [child₃, child₂, dispatch_self]
    exact child₁.2.1
  obtain ⟨s₃, hwait⟩ := procWait_returns addr moves₄.owned (not_unused_of_running run₂) first
  rw [pid₃] at hwait
  obtain ⟨-, -, proc₃, -⟩ := procWait_reaps moves₄.owned (not_unused_of_running run₂) first hwait
  refine ⟨kernel, s₀, s₁, s₂, s₃, hboot,
    ⟨dispatch₀, fork, dispatch₁, exit, dispatch₂, .wait run₂ hwait, trivial⟩, first, ?_, ?_, ?_⟩
  · rw [proc₃, Function.update_self]
    rfl
  · rw [proc₃, Function.update_self]
    exact pid₃
  · rw [proc₃, Function.update_of_ne (by decide), dispatch_self]
    exact pid₂.trans init.2

end Child

end EasyXv6.Proc
