import EasyXv6.Proc.Fidelity
import EasyXv6.Proc.HeapPages

set_option autoImplicit false

/-!
# The two pages at the top of user space

The table of every process maps its own trapframe and the trampoline, both for the kernel only.
-/
namespace EasyXv6.Proc
open Lib Mem Radix

/-- The entries that `proc_pgtbl_init` makes. -/
structure HighPages (L : Layout) (m : ℕ → Page) (p : ProcT) : Prop where
  trapframe : pteAt L m p.pgtbl TRAPFRAME = leafPte p.tf (PTE_R ||| PTE_W)
  trampoline : pteAt L m p.pgtbl TRAMPOLINE = leafPte L.trampoline (PTE_R ||| PTE_X)

/-- Every process has them. -/
def AllHigh (L : Layout) (s : Kernel) : Prop :=
  ∀ i, (s.proc i).state ≠ .unused → HighPages L s.pm.mem (s.proc i)

variable {L : Layout} {s s' : Kernel} {pm pm' : Pmem} {free free' : List ℕ} {kernel : Multiset ℕ}
  {i j c : Fin NPROC} {tf r : ℕ} {m m' : ℕ → Page} {p q : ProcT}

section Entries

theorem HighPages.of_entries (h : HighPages L m p) (pgtbl : q.pgtbl = p.pgtbl) (tf : q.tf = p.tf)
    (frame : pteAt L m' p.pgtbl TRAPFRAME = pteAt L m p.pgtbl TRAPFRAME)
    (code : pteAt L m' p.pgtbl TRAMPOLINE = pteAt L m p.pgtbl TRAMPOLINE) : HighPages L m' q where
  trapframe := by rw [pgtbl, tf, frame, h.trapframe]
  trampoline := by rw [pgtbl, code, h.trampoline]

theorem HighPages.of_same (h : HighPages L m p) (pgtbl : q.pgtbl = p.pgtbl) (tf : q.tf = p.tf)
    (same : ∀ b ∈ tableNodes L m p.pgtbl, m' b = m b) : HighPages L m' q :=
  h.of_entries pgtbl tf (pteAt_of_same same) (pteAt_of_same same)

/-- What is mapped stays mapped as it is. -/
theorem HighPages.of_kept (h : HighPages L m p) (pgtbl : q.pgtbl = p.pgtbl) (tf : q.tf = p.tf)
    (kept : ∀ va, pteAt L m p.pgtbl va ≠ 0 → pteAt L m' p.pgtbl va = pteAt L m p.pgtbl va) :
    HighPages L m' q := by
  apply h.of_entries pgtbl tf
  · apply kept
    rw [h.trapframe]
    exact leafPte_ne_zero _ _
  · apply kept
    rw [h.trampoline]
    exact leafPte_ne_zero _ _

theorem procPgtblInit_high {pm₁ : Pmem} (list : FreeList L pm free) (nodup : free.Nodup)
    (htf : pmemAlloc.run pm = .ok tf pm₁) (hr : (procPgtblInit L tf).run pm₁ = .ok r pm') :
    pteAt L pm'.mem r TRAPFRAME = leafPte tf (PTE_R ||| PTE_W) ∧
      pteAt L pm'.mem r TRAMPOLINE = leafPte L.trampoline (PTE_R ||| PTE_X) := by
  obtain ⟨rest, rfl, list₁, mem₁, tfRange⟩ := list.alloc htf
  unfold procPgtblInit at hr
  obtain ⟨root, pm₂, hroot, hr⟩ := (Comp.bind_ok_iff _ _ _ _ _).mp hr
  obtain ⟨rest₂, rfl, list₂, mem₂, rootRange⟩ := list₁.alloc hroot
  simp only [Nat.ne_of_gt rootRange.pos, if_false] at hr
  rw [memzero, Comp.bind_modify_run] at hr
  obtain ⟨_, pm₃, map₃, hr⟩ := (Comp.bind_ok_iff _ _ _ _ _).mp hr
  obtain ⟨_, pm₄, map₄, hr⟩ := (Comp.bind_ok_iff _ _ _ _ _).mp hr
  cases hr
  obtain ⟨hr₂, nodup₂⟩ := List.nodup_cons.mp (List.nodup_cons.mp nodup).2
  have zero : (pm₂.setPage r fun _ => Bytes.zero).mem r = Bytes.zero := setPage_mem_self
  obtain ⟨tree, nodes, -, -⟩ := TreeOk.empty (L := L) zero
  have space : Space L (pm₂.setPage r fun _ => Bytes.zero) rest₂ r := by
    refine ⟨list₂.setPage hr₂ _, tree, ?_⟩
    rw [nodes, add_comm, Multiset.singleton_add]
    exact Multiset.nodup_cons.mpr ⟨hr₂, Multiset.coe_nodup.mpr nodup₂⟩
  rw [vmMappages_page (by decide) (by decide) (trampoline_lt L)] at map₃
  rw [vmMappages_page (by decide) (by decide) tfRange.lt_pa] at map₄
  obtain ⟨_, re₃, -, -, ptes₃, -⟩ := vmMappage_ok space (by decide) (trampoline_lt L) map₃
  obtain ⟨_, -, -, -, ptes₄, -⟩ := vmMappage_ok re₃.space (by decide) tfRange.lt_pa map₄
  constructor
  · rw [ptes₄, if_pos ⟨rfl, rfl⟩]
  · rw [ptes₄, if_neg (by decide), ptes₃, if_pos ⟨rfl, rfl⟩]

theorem procAlloc_high (list : FreeList L s.pm free) (nodup : free.Nodup)
    (hr : (procAlloc L).run s = .ok (some c) s') : HighPages L s'.pm.mem (s'.proc c) := by
  unfold procAlloc at hr
  rw [Comp.bind_get_run] at hr
  split at hr
  · cases hr
  next d _ =>
  rw [Comp.run_bind_of_ok (show allocpid.run s = .ok s.nextpid _ from rfl), setProc,
    Comp.bind_modify_run] at hr
  obtain ⟨tf, s₁, hpage, hr⟩ := (Comp.bind_ok_iff _ _ _ _ _).mp hr
  obtain ⟨pm₁, halloc, hs₁⟩ := onMem_ok hpage
  obtain ⟨_, _, _, _, tfRange⟩ := list.alloc halloc
  rw [setProc, Comp.bind_modify_run] at hr
  simp only [Nat.ne_of_gt tfRange.pos, if_false] at hr
  obtain ⟨r, s₂, htable, hr⟩ := (Comp.bind_ok_iff _ _ _ _ _).mp hr
  obtain ⟨pm₂, hinit, hs₂⟩ := onMem_ok htable
  rw [Kernel.setProc_pm, hs₁] at hinit
  obtain ⟨free', fresh⟩ := procPgtblInit_ok list nodup halloc hinit
  obtain ⟨frame, code⟩ := procPgtblInit_high list nodup halloc hinit
  rw [setProc, Comp.bind_modify_run] at hr
  simp only [Nat.ne_of_gt fresh.rootRange.pos, if_false, Comp.run_pure, Outcome.ok.injEq,
    Option.some.injEq] at hr
  obtain ⟨rfl, rfl⟩ := hr
  subst hs₂ hs₁
  simp only [Kernel.setProc, Function.update_idem, Function.update_self]
  exact ⟨frame, code⟩

end Entries

section Calls

variable {pid : ℤ}

theorem procFork_high (own : Owned L s free kernel) (hi : (s.proc i).state ≠ .unused)
    (high : AllHigh L s) (hr : (procFork L i).run s = .ok pid s') : AllHigh L s' := by
  rcases procFork_ok own hi hr with ⟨-, -, rfl⟩ | ⟨-, c, tf, r, free', forked⟩
  · exact high
  have slot := forked.slot
  have child : (s'.proc c).pgtbl = r ∧ (s'.proc c).tf = tf := by
    rw [forked.child]
    exact ⟨rfl, rfl⟩
  intro j hj
  by_cases hjc : j = c
  · -- the child: what `proc_alloc` has mapped survives the copy of the parent's pages
    subst hjc
    unfold procFork at hr
    obtain ⟨o, s₁, halloc, rest⟩ := (Comp.bind_ok_iff _ _ _ _ _).mp hr
    rcases procAlloc_ok own.list own.free_nodup halloc with
      ⟨hnone, -, -⟩ | ⟨d, tf₁, r₁, free₁, hd, rfl, fresh, -, proc₁⟩
    · cases hnone.symm.trans slot
    cases hd.symm.trans slot
    have made := procAlloc_high own.list own.free_nodup halloc
    obtain ⟨apart, -, tree, nodesOut, dataOut⟩ := fresh.copyReady own hi
    have hij : i ≠ j := fun h => hi (h ▸ firstUnused_state slot)
    have old : s₁.proc i = s.proc i := by rw [proc₁, Function.update_of_ne hij]
    have root : (s₁.proc j).pgtbl = r₁ := by rw [proc₁, Function.update_self]
    rw [Comp.bind_gets_run, Comp.bind_gets_run, old, root] at rest
    obtain ⟨_, s₂, hcopy, rest⟩ := (Comp.bind_ok_iff _ _ _ _ _).mp rest
    obtain ⟨pm₂, hcopy, hs₂⟩ := onMem_ok hcopy
    obtain ⟨free₂, -, -, -, kept, -⟩ := uvmCopyPgtbl_ok fresh.space apart tree nodesOut dataOut
      (own.heapTop i) hcopy
    rw [setProc, Comp.bind_modify_run, Comp.run_bind_of_ok (show (onMem _).run _ = .ok () _ from rfl),
      Comp.run_bind_of_ok (show (onMem _).run _ = .ok () _ from rfl), setProc, Comp.bind_modify_run,
      setProc, Comp.bind_modify_run, setProc, Comp.bind_modify_run] at rest
    simp only [Comp.run_pure, Outcome.ok.injEq] at rest
    obtain ⟨-, hs'⟩ := rest
    have same : (s'.proc j).pgtbl = (s₁.proc j).pgtbl ∧ (s'.proc j).tf = (s₁.proc j).tf := by
      rw [← hs', hs₂]
      simp only [Kernel.setProc, Function.update_idem, Function.update_self]
      exact ⟨rfl, rfl⟩
    have other : ∀ q, q ≠ (s'.proc j).tf → s'.pm.mem q = pm₂.mem q := by
      intro q hq
      rw [same.2] at hq
      rw [← hs', hs₂]
      simp only [Kernel.setProc, Function.update_self]
      exact (setPage_mem_of_ne hq).trans (setPage_mem_of_ne hq)
    rw [child.2] at other
    have leaf : tf ∈ tableLeaves L s'.pm.mem r := by
      rw [← forked.trapframe]
      exact forked.space.tree.mem_leaves (forked.trapframe ▸ forked.tfRange)
    have apart' : ((free' : Multiset ℕ) + tablePages L s'.pm.mem r).Nodup := by
      rw [forked.pages]
      exact Multiset.coe_nodup.mpr own.free_nodup
    have out := (Space.leaf_apart apart' leaf).2
    have ptes : ∀ va, pteAt L pm₂.mem r va = pteAt L s'.pm.mem r va := fun va =>
      pteAt_of_same fun b hb => (other b (ne_of_mem_of_not_mem hb out)).symm
    have table : r = r₁ := by rw [← child.1, same.1, root]
    subst table
    apply made.of_kept same.1 same.2
    intro va hva
    rw [root] at hva ⊢
    rw [← ptes, kept va hva]
  · have used : (s.proc j).state ≠ .unused := by
      rw [forked.proc, Function.update_of_ne hjc] at hj
      exact hj
    rw [forked.proc, Function.update_of_ne hjc]
    exact (high j used).of_same rfl rfl fun b hb =>
      forked.frame b (own.notFree (own.mem_slotPages_of_node used hb))

/-- Where no slot gets another table and no table is written. -/
theorem AllHigh.of_space (high : AllHigh L s) (all : ∀ j, SameSpace (s.proc j) (s'.proc j))
    (same : ∀ j, (s.proc j).state ≠ .unused → ∀ b ∈ tableNodes L s.pm.mem (s.proc j).pgtbl,
      s'.pm.mem b = s.pm.mem b) : AllHigh L s' := by
  intro j hj
  have used : (s.proc j).state ≠ .unused := fun h => hj ((all j).state.mpr h)
  exact (high j used).of_same (all j).pgtbl (all j).tf (same j used)

theorem sysBrk_high {a ret : ℕ} (own : Owned L s free kernel) (hi : (s.proc i).state ≠ .unused)
    (high : AllHigh L s) (hr : (sysBrk L i a).run s = .ok ret s') : AllHigh L s' := by
  have here := high i hi
  have apart := own.apart i
  rw [own.slotPages_eq hi] at apart
  have htf : pteAt L s.pm.mem (s.proc i).pgtbl TRAPFRAME ≠ 0 := by
    rw [here.trapframe]
    exact leafPte_ne_zero _ _
  have finish : ∀ (pm : Pmem) (free' : List ℕ) (top : ℕ), Keeps L (s.proc i).pgtbl s.pm free pm free' →
      HighPages L pm.mem (s.proc i) →
      s' = ({ s with pm := pm } : Kernel).setProc i { s.proc i with heapTop := top } →
      AllHigh L s' := by
    rintro pm free' top keeps h rfl j hj
    by_cases hji : j = i
    · subst hji
      rw [Kernel.setProc_proc_self]
      exact ⟨h.trapframe, h.trampoline⟩
    · rw [Kernel.setProc_proc_of_ne _ hji] at hj ⊢
      refine (high j hj).of_same rfl rfl fun b hb => ?_
      have inSlot := own.mem_slotPages_of_node hj hb
      apply keeps.frame b (own.notFree inSlot)
      rw [← own.slotPages_eq hi]
      exact own.disjoint hji inSlot
  unfold sysBrk at hr
  rw [Comp.bind_gets_run, Comp.run_ite] at hr
  split at hr
  · cases hr
    exact high
  obtain ⟨h, s₁, hmem, rest⟩ := (Comp.bind_ok_iff _ _ _ _ _).mp hr
  obtain ⟨pm, hmem, hs₁⟩ := onMem_ok hmem
  rw [setProc, Comp.bind_modify_run, Comp.run_pure, Outcome.ok.injEq] at rest
  have hs' := rest.2.symm
  rw [hs₁] at hs'
  rw [Comp.run_ite] at hmem
  split at hmem
  next hlt =>
    obtain ⟨free', keeps, -, kept⟩ := uvmHeapGrow_ok (own.space hi) apart (own.heapTop i) htf hmem
    exact finish pm free' h.heapTop keeps (here.of_kept rfl rfl kept) hs'
  next hge =>
    have hlen : ((s.proc i).heapTop - a) % 2 ^ 32 ≤ (s.proc i).heapTop :=
      Nat.le_trans (Nat.mod_le _ _) (Nat.sub_le _ _)
    obtain ⟨free', keeps, -, kept⟩ := uvmHeapUngrow_ok (own.space hi) apart (own.heapTop i)
      hlen (Nat.mod_lt _ (by decide)) hmem
    exact finish pm free' h.heapTop keeps (here.of_entries rfl rfl (kept _ (Nat.le_refl _) (by decide))
      (kept _ (by decide) (by decide))) hs'

theorem procWait_high {addr : ℕ} {o : Option ℤ} (own : Owned L s free kernel)
    (run : (s.proc i).state = .running) (high : AllHigh L s)
    (hr : (procWait L i addr).run s = .ok o s') : AllHigh L s' := by
  have hi := not_unused_of_running run
  cases hc : firstZombie s.proc i with
  | none =>
    unfold procWait at hr
    rw [Comp.bind_get_run, hc] at hr
    dsimp only at hr
    rw [Comp.run_ite] at hr
    split at hr
    · cases hr
      exact high
    · rw [setProc, Comp.bind_modify_run, Comp.run_pure, Outcome.ok.injEq] at hr
      obtain ⟨-, rfl⟩ := hr
      refine high.of_space ?_ fun _ _ _ _ => rfl
      apply SameSpace.update
      exact ⟨rfl, rfl, rfl, by simp [run], fun h => absurd h (by simp [Gone])⟩
  | some c =>
    obtain ⟨-, -, proc, -, b, pm, hcopy, frame⟩ := procWait_reaps own hi hc hr
    have written := (copyout_written own hi hcopy).2.2
    intro j hj
    have hjc : j ≠ c := by
      rintro rfl
      rw [proc, Function.update_self] at hj
      exact hj rfl
    rw [proc, Function.update_of_ne hjc] at hj ⊢
    refine (high j hj).of_same rfl rfl fun q hq => ?_
    have inSlot := own.mem_slotPages_of_node hj hq
    rw [frame q (own.notFree inSlot) (own.disjoint hjc inSlot)]
    exact written q fun user => (own.user_apart hi user).2 j hj hq

theorem AllHigh.step {l : Label} (high : AllHigh L s) (own : Owned L s free kernel)
    (h : Step L kernel s l s') : AllHigh L s' := by
  cases h with
  | fork run h => exact procFork_high own (not_unused_of_running run) high h
  | exit run h =>
    obtain ⟨pm, -, same⟩ := procExit_ok (not_unused_of_running run) h
    exact high.of_space same fun _ _ _ _ => by rw [pm]
  | wait run h => exact procWait_high own run high h
  | brk run h => exact sysBrk_high own (not_unused_of_running run) high h
  | kill h =>
    rcases procKill_run h with ⟨p, -, -, rfl⟩ | ⟨-, -, rfl⟩
    · exact high.of_space (fun j => SameSpace.update (kill_sameSpace _) j) fun _ _ _ _ => rfl
    · exact high
  | @other _ i run h =>
    have hi : (s.proc i).state ≠ .unused := fun hu => run.not_gone (Or.inl hu)
    refine high.of_space h.sameSpace fun j hj b hb => ?_
    have inSlot := own.mem_slotPages_of_node hj hb
    apply h.mem b
    · exact fun user => (own.user_apart hi user).2 j hj hb
    · rintro rfl
      exact (own.leaf_apart hi (own.tf_leaf hi)).2 j hj hb
    · exact fun hk => (own.kernel_apart hk).2 j inSlot

end Calls

section Boot

variable {code : ℕ → UInt8} {taken : List Page} {pages : List ℕ}

theorem procMakeFirst_high (own : Owned L s free kernel) (none : ∀ i, (s.proc i).state = .unused)
    (hr : (procMakeFirst L code).run s = .ok () s') : AllHigh L s' := by
  obtain ⟨c, tf, r, free', slot, moves, -, proc, -⟩ := procMakeFirst_ok own hr
  intro j hj
  by_cases hjc : j = c
  · subst hjc
    unfold procMakeFirst at hr
    obtain ⟨o, s₁, halloc, rest⟩ := (Comp.bind_ok_iff _ _ _ _ _).mp hr
    rcases procAlloc_ok own.list own.free_nodup halloc with
      ⟨hnone, -, -⟩ | ⟨d, tf₁, r₁, free₁, hd, rfl, fresh, -, proc₁⟩
    · cases hnone.symm.trans slot
    cases hd.symm.trans slot
    have made := procAlloc_high own.list own.free_nodup halloc
    have apart₁ : ((free₁ : Multiset ℕ) + tablePages L s₁.pm.mem r₁).Nodup := by
      rw [fresh.pages]
      exact Multiset.coe_nodup.mpr own.free_nodup
    have frame₁ : (s₁.proc j).tf = tf₁ := by rw [proc₁, Function.update_self]
    have root₁ : (s₁.proc j).pgtbl = r₁ := by rw [proc₁, Function.update_self]
    dsimp only at rest
    rw [setProc, Comp.bind_modify_run, Comp.bind_gets_run, Kernel.setProc_proc_self] at rest
    obtain ⟨_, s₂, hmem, rest⟩ := (Comp.bind_ok_iff _ _ _ _ _).mp rest
    obtain ⟨pm₂, hmem, hs₂⟩ := onMem_ok hmem
    rw [Kernel.setProc_pm] at hmem
    dsimp only at hmem
    rw [root₁, frame₁] at hmem
    obtain ⟨stack, pm₃, hstack, hmem⟩ := (Comp.bind_ok_iff _ _ _ _ _).mp hmem
    obtain ⟨_, pm₄, hmap, hmem⟩ := (Comp.bind_ok_iff _ _ _ _ _).mp hmem
    rw [← setPage_id pm₃ stack] at hmap
    obtain ⟨free₄, new₄⟩ := mapNew fresh.space hstack (by decide) (by decide) (by decide) hmap
    obtain ⟨_, pm₅, hloop, hmem⟩ := (Comp.bind_ok_iff _ _ _ _ _).mp hmem
    obtain ⟨free₅, keeps₅, leaves₅, kept₅, -, -⟩ := mapCode_ok tf₁ new₄.keeps.space
      (new₄.keeps.apart apart₁) (by decide) hloop
    have leaf : tf₁ ∈ tableLeaves L pm₅.mem r₁ := by
      apply leaves₅
      rw [new₄.leaves, ← fresh.trapframe]
      exact Multiset.mem_cons_of_mem (fresh.space.tree.mem_leaves (fresh.trapframe ▸ fresh.tfRange))
    have out := (Space.leaf_apart ((new₄.keeps.trans keeps₅).apart apart₁) leaf).2
    rw [setReg, Comp.bind_modify_run, setReg, Comp.run_modify, Outcome.ok.injEq] at hmem
    obtain ⟨-, rfl⟩ := hmem
    rw [setProc, Comp.run_modify, Outcome.ok.injEq] at rest
    obtain ⟨-, rfl⟩ := rest
    apply made.of_kept
    · rw [Kernel.setProc_proc_self, hs₂]
      simp only [Kernel.setProc, Function.update_self]
    · rw [Kernel.setProc_proc_self, hs₂]
      simp only [Kernel.setProc, Function.update_self]
    · intro va hva
      rw [root₁] at hva ⊢
      have h₄ := new₄.kept hva
      rw [← h₄, ← kept₅ va (by rw [h₄]; exact hva), hs₂]
      refine pteAt_of_same fun b hb => ?_
      have hb : b ≠ tf₁ := ne_of_mem_of_not_mem hb out
      rw [Kernel.setProc_pm]
      dsimp only
      rw [setPage_mem_of_ne hb, setPage_mem_of_ne hb]
  · rw [proc, Function.update_of_ne hjc] at hj
    exact absurd (none j) hj

theorem boot_high {m : ℕ → Page} (hr : (boot L taken code).run (powerOn m) = .ok pages s') :
    AllHigh L s' := by
  unfold boot at hr
  obtain ⟨_, s₁, hinit, rest⟩ := (Comp.bind_ok_iff _ _ _ _ _).mp hr
  obtain ⟨pm₁, hinit, hs₁⟩ := onMem_ok hinit
  obtain ⟨pm₁', free₁, hinit', list₁, all⟩ := pmemInit_returns L (powerOn m).pm
  rw [hinit'] at hinit
  cases hinit
  obtain ⟨pages', s₂, htakes, rest⟩ := (Comp.bind_ok_iff _ _ _ _ _).mp rest
  obtain ⟨pm₂, htakes, hs₂⟩ := onMem_ok htakes
  rw [hs₁] at htakes
  have nodup : free₁.Nodup := by
    rw [← Multiset.coe_nodup, all]
    exact nodup_allPages L
  obtain ⟨free₂, list₂, rfl⟩ := kernelTakes_ok list₁ nodup htakes
  have hs : s₂ = ⟨pm₂, fun _ => .zero, 1⟩ := by
    rw [hs₂, hs₁]
    rfl
  rw [hs, Comp.bind_modify_run] at rest
  obtain ⟨_, s₃, hfirst, rest⟩ := (Comp.bind_ok_iff _ _ _ _ _).mp rest
  cases rest
  exact procMakeFirst_high (initial_owned (n := 1) list₂ all) (fun _ => rfl) hfirst

end Boot

section Runs

/-- What holds of the memory of the processes in every state after boot. -/
structure Spaces (L : Layout) (kernel : Multiset ℕ) (s : Kernel) : Prop where
  owned : ∃ free, Owned L s free kernel
  high : AllHigh L s

theorem Spaces.step {l : Label} (h : Spaces L kernel s) (st : Step L kernel s l s') :
    Spaces L kernel s' := by
  obtain ⟨free, own⟩ := h.owned
  obtain ⟨free', moves⟩ := own.step st
  exact ⟨⟨free', moves.owned⟩, h.high.step own st⟩

theorem boot_spaces {m : ℕ → Page} {taken : List Page} {code : ℕ → UInt8} {pages : List ℕ}
    (hr : (boot L taken code).run (powerOn m) = .ok pages s') : Spaces L pages s' := by
  obtain ⟨free, own, -⟩ := boot_ok hr
  exact ⟨⟨free, own⟩, boot_high hr⟩

/-- The trapframe of a process is no page that it can reach in user mode. -/
theorem Spaces.trapframe_private (h : Spaces L kernel s) (hi : (s.proc i).state ≠ .unused) :
    ¬ UserPage L s.pm.mem (s.proc i).pgtbl (s.proc i).tf := by
  obtain ⟨free, own⟩ := h.owned
  rintro ⟨va, user, heq⟩
  have ok := own.used i hi
  have same : SameEntry TRAPFRAME va := by
    apply ok.tree.leaf_inj (own.leaves_nodup hi)
    · rw [ok.trapframe]
      exact ok.tf
    · rw [heq, ok.trapframe]
  rw [← same.pteAt_eq, (h.high i hi).trapframe, isUser_leafPte (by decide)] at user
  cases user

end Runs

end EasyXv6.Proc
