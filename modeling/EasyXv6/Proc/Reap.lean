import EasyXv6.Proc.Fork

set_option autoImplicit false

/-!
# Ownership through proc_fork, proc_exit, proc_wait and sys_brk
-/
namespace EasyXv6.Proc
open Lib Mem Radix

variable {L : Layout} {s s' : Kernel} {free free' : List ℕ} {kernel : Multiset ℕ}
  {i c : Fin NPROC}

section Table

theorem SameSpace.refl (p : ProcT) : SameSpace p p :=
  ⟨rfl, rfl, rfl, Iff.rfl, fun h => Or.inr ⟨h, rfl⟩⟩

theorem SameSpace.trans {p q r : ProcT} (h : SameSpace p q) (h' : SameSpace q r) :
    SameSpace p r where
  pgtbl := h'.pgtbl.trans h.pgtbl
  tf := h'.tf.trans h.tf
  heapTop := h'.heapTop.trans h.heapTop
  state := h'.state.trans h.state
  closed hg := by
    rcases h'.closed hg with none | ⟨hq, same⟩
    · exact Or.inl none
    rcases h.closed hq with none | ⟨hp, same'⟩
    · exact Or.inl fun fd => same ▸ none fd
    · exact Or.inr ⟨hp, same.trans same'⟩

/-- One slot of the table is replaced. -/
theorem SameSpace.update {t : Table} {p : ProcT} (h : SameSpace (t i) p) (j : Fin NPROC) :
    SameSpace (t j) (Function.update t i p j) := by
  by_cases hj : j = i
  · subst hj
    rw [Function.update_self]
    exact h
  · rw [Function.update_of_ne hj]
    exact .refl _

/-- What `proc_reparent` and `proc_wakeup_one` do to a slot. -/
structure Woken (p q : ProcT) : Prop where
  same : q = { p with state := q.state, parent := q.parent }
  state : q.state = p.state ∨ p.state = .sleeping ∧ q.state = .runnable

theorem Woken.refl (p : ProcT) : Woken p p := ⟨rfl, Or.inl rfl⟩

theorem Woken.trans {p q r : ProcT} (h : Woken p q) (h' : Woken q r) : Woken p r where
  same := by
    have := h'.same
    rw [h.same] at this
    exact this
  state := by
    rcases h'.state with h' | ⟨hs, hr⟩
    · rw [h']
      exact h.state
    · rcases h.state with h | ⟨-, h⟩
      · exact Or.inr ⟨h ▸ hs, hr⟩
      · rw [h] at hs
        cases hs

theorem Woken.sameSpace {p q : ProcT} (h : Woken p q) : SameSpace p q := by
  have gone : Gone q → Gone p := by
    rintro (hq | hq)
    · rcases h.state with hs | ⟨-, hs⟩
      · exact Or.inl (hs ▸ hq)
      · rw [hs] at hq
        cases hq
    · rcases h.state with hs | ⟨-, hs⟩
      · exact Or.inr (hs ▸ hq)
      · rw [hs] at hq
        cases hq
  refine ⟨?_, ?_, ?_, ?_, ?_⟩
  · rw [h.same]
  · rw [h.same]
  · rw [h.same]
  · rcases h.state with hs | ⟨hp, hq⟩
    · rw [hs]
    · simp [hp, hq]
  · intro hg
    refine Or.inr ⟨gone hg, ?_⟩
    rw [h.same]

theorem woken_wakeupOne (t : Table) (p j : Fin NPROC) : Woken (t j) (Machine.wakeupOne t p j) := by
  unfold Machine.wakeupOne
  split
  next h =>
    by_cases hj : j = p
    · subst hj
      rw [Function.update_self]
      exact ⟨rfl, Or.inr ⟨h.1, rfl⟩⟩
    · rw [Function.update_of_ne hj]
      exact .refl _
  · exact .refl _

theorem woken_reparent (t : Table) (parent j : Fin NPROC) :
    Woken (t j) (Machine.reparent t parent j) := by
  unfold Machine.reparent
  induction List.finRange NPROC generalizing t with
  | nil => exact .refl _
  | cons pp rest ih =>
    refine Woken.trans ?_ (ih _)
    unfold Machine.reparentOne
    split
    · refine Woken.trans ?_ (woken_wakeupOne ..)
      by_cases hj : j = pp
      · subst hj
        rw [Function.update_self]
        exact ⟨rfl, Or.inl rfl⟩
      · rw [Function.update_of_ne hj]
        exact .refl _
    · exact .refl _

/-- The table when `proc_exit` has closed the files, given the children away and woken the
    parent. -/
def exiting (t : Table) (i parent : Fin NPROC) : Table :=
  Machine.wakeupOne (Machine.reparent
    (Function.update t i { t i with ofile := fun _ => none }) i) parent

theorem woken_exiting (t : Table) (i parent j : Fin NPROC) :
    Woken (Function.update t i { t i with ofile := fun _ => none } j) (exiting t i parent j) :=
  (woken_reparent _ i j).trans (woken_wakeupOne _ parent j)

/-- The table when `proc_exit` calls `proc_sched`. -/
def exited (t : Table) (i parent : Fin NPROC) (st : ℤ) : Table :=
  Function.update (exiting t i parent) i
    { exiting t i parent i with xstate := st, state := .zombie }

theorem procExit_run {st : ℤ} (hr : (procExit i st).run s = .ok () s') : i ≠ proczero ∧ ∃ parent,
    s' = { s with proc := exited s.proc i parent st } := by
  unfold procExit at hr
  rw [Comp.run_ite] at hr
  split at hr
  · cases hr
  next hne =>
  rw [setProc, Comp.bind_modify_run, Comp.bind_modify_run, Comp.bind_gets_run] at hr
  split at hr
  · cases hr
  next parent _ =>
  rw [Comp.bind_modify_run, setProc, Comp.run_modify, Outcome.ok.injEq] at hr
  refine ⟨hne, parent, hr.2.symm.trans ?_⟩
  simp only [exited, exiting, Kernel.setProc]

/-- A process that exits keeps its pages until it is reaped. -/
theorem procExit_ok {st : ℤ} (hi : (s.proc i).state ≠ .unused)
    (hr : (procExit i st).run s = .ok () s') :
    s'.pm = s.pm ∧ s'.nextpid = s.nextpid ∧ ∀ j, SameSpace (s.proc j) (s'.proc j) := by
  obtain ⟨-, parent, rfl⟩ := procExit_run hr
  refine ⟨rfl, rfl, ?_⟩
  intro j
  have woken := woken_exiting s.proc i parent j
  dsimp only [exited]
  by_cases hj : j = i
  · subst hj
    rw [Function.update_self] at woken ⊢
    generalize exiting s.proc j parent j = q at woken
    have same := woken.same
    refine ⟨?_, ?_, ?_, ?_, fun _ => Or.inl ?_⟩
    · rw [same]
    · rw [same]
    · rw [same]
    · simp [hi]
    · rw [same]
      exact fun _ => rfl
  · rw [Function.update_of_ne hj] at woken ⊢
    exact woken.sameSpace

end Table

section Free

/-- A call that moves pages between the free list and the slot `o`, if any. -/
structure Moves (L : Layout) (kernel : Multiset ℕ) (o : Option (Fin NPROC)) (s : Kernel)
    (free : List ℕ) (s' : Kernel) (free' : List ℕ) : Prop where
  owned : Owned L s' free' kernel
  pages : ∀ c, o = some c →
    (free' : Multiset ℕ) + slotPages L s' c = free + slotPages L s c
  still : o = none → free' = free
  others : ∀ j, o ≠ some j → slotPages L s' j = slotPages L s j

theorem Moves.refl (own : Owned L s free kernel) : Moves L kernel none s free s free :=
  ⟨own, by simp, fun _ => rfl, fun _ _ => rfl⟩

theorem Owned.moves_table (own : Owned L s free kernel) (pm : s'.pm = s.pm)
    (all : ∀ j, SameSpace (s.proc j) (s'.proc j)) : Moves L kernel none s free s' free := by
  refine ⟨own.table pm all, by simp, fun _ => rfl, ?_⟩
  intro j _
  exact slotPages_of_same own (all j) fun _ _ _ => by rw [pm]

theorem Owned.moves_write (own : Owned L s free kernel)
    (all : ∀ j, SameSpace (s.proc j) (s'.proc j)) (list : FreeList L s'.pm free)
    (same : ∀ j, ∀ b ∈ slotPages L s j, b ∈ tableNodes L s.pm.mem (s.proc j).pgtbl →
      s'.pm.mem b = s.pm.mem b) : Moves L kernel none s free s' free :=
  ⟨own.write all list same, by simp, fun _ => rfl,
    fun j _ => slotPages_of_same own (all j) (same j)⟩

theorem Owned.moves_exchange (own : Owned L s free kernel)
    (others : ∀ j ≠ c, SameSpace (s.proc j) (s'.proc j)) (list : FreeList L s'.pm free')
    (pages : (free' : Multiset ℕ) + slotPages L s' c = free + slotPages L s c)
    (frame : ∀ q, q ∉ free → q ∉ slotPages L s c → s'.pm.mem q = s.pm.mem q)
    (used : (s'.proc c).state ≠ .unused → SlotOk L s'.pm.mem (s'.proc c))
    (unused : (s'.proc c).state = .unused → SlotEmpty (s'.proc c))
    (heapTop : (s'.proc c).heapTop ≤ TRAPFRAME)
    (closed : Gone (s'.proc c) → ∀ fd, (s'.proc c).ofile fd = none) :
    Moves L kernel (some c) s free s' free' := by
  refine ⟨own.exchange others list pages frame used unused heapTop closed, ?_, by simp, ?_⟩
  · intro d hd
    cases hd
    exact pages
  · intro j hj
    exact own.others_same others frame fun h => hj (h ▸ rfl)

/-- `proc_free` gives back every page of the slot. -/
theorem procFree_ok (own : Owned L s free kernel) (hz : (s.proc c).state = .zombie)
    (hr : (procFree L c).run s = .ok () s') :
    ∃ free', Moves L kernel (some c) s free s' free' ∧ slotPages L s' c = 0 ∧
      s'.proc = Function.update s.proc c (s.proc c).freed ∧ s'.nextpid = s.nextpid ∧
      ∀ q, q ∉ free → q ∉ slotPages L s c → s'.pm.mem q = s.pm.mem q := by
  have hc : (s.proc c).state ≠ .unused := by
    rw [hz]
    simp
  have ok := own.used c hc
  unfold procFree at hr
  rw [Comp.bind_gets_run, if_pos (Nat.ne_of_gt ok.tf.pos), if_pos ok.root] at hr
  obtain ⟨_, s₁, htf, rest⟩ := (Comp.bind_ok_iff _ _ _ _ _).mp hr
  obtain ⟨pm₁, htf, hs₁⟩ := onMem_ok htf
  obtain ⟨_, s₂, hdestroy, rest⟩ := (Comp.bind_ok_iff _ _ _ _ _).mp rest
  obtain ⟨pm₂, hdestroy, hs₂⟩ := onMem_ok hdestroy
  rw [hs₁] at hdestroy
  have pages := own.slotPages_eq hc
  have apart := own.apart c
  rw [pages] at apart
  obtain ⟨free', list, sum, frame⟩ := free_destroy_ok (own.space hc) apart ok.root ok.trapframe
    (by rw [ok.trampoline]; exact trampoline_not_inRange L)
    ((Comp.run_bind_of_ok htf).trans hdestroy)
  rw [setProc] at rest
  cases rest
  subst hs₂ hs₁
  have gone : ∀ t : Kernel, t.proc = Function.update s.proc c (s.proc c).freed →
      slotPages L t c = 0 := by
    intro t ht
    rw [slotPages, if_pos]
    rw [ht, Function.update_self]
    rfl
  refine ⟨free', ?_, gone _ rfl, rfl, rfl, fun q hf hq => frame q hf (pages ▸ hq)⟩
  refine own.moves_exchange ?_ list ?_ (fun q hf hq => frame q hf (pages ▸ hq)) ?_ ?_ ?_ ?_
  · intro j hj
    rw [Kernel.setProc_proc_of_ne _ hj]
    exact .refl _
  · rw [gone _ rfl, add_zero, pages]
    exact sum
  · intro h
    rw [Kernel.setProc_proc_self] at h
    exact absurd rfl h
  · intro _
    rw [Kernel.setProc_proc_self]
    exact ⟨rfl, rfl⟩
  · rw [Kernel.setProc_proc_self]
    exact own.heapTop c
  · intro _
    rw [Kernel.setProc_proc_self]
    exact own.closed c (Or.inr hz)

end Free

section Calls

theorem firstUnused_state {t : Table} (h : firstUnused t = some c) : (t c).state = .unused := by
  have := List.find?_some h
  simpa using this

theorem Forked.moves {tf r : ℕ} (own : Owned L s free kernel)
    (f : Forked L s free i c tf r s' free') : Moves L kernel (some c) s free s' free' := by
  have unused := firstUnused_state f.slot
  have child : s'.proc c = (s.proc c).child (s.proc i) i s.nextpid tf r := by
    rw [f.proc, Function.update_self]
  have pages : slotPages L s' c = tablePages L s'.pm.mem r := by
    rw [slotPages, child]
    exact if_neg (Nat.ne_of_gt f.rootRange.pos)
  refine own.moves_exchange ?_ f.space.list ?_ (fun q hf _ => f.frame q hf) ?_ ?_ ?_ ?_
  · intro j hj
    rw [f.proc, Function.update_of_ne hj]
    exact .refl _
  · rw [pages, f.pages, own.slotPages_unused unused, add_zero]
  · intro _
    rw [child]
    exact ⟨Nat.ne_of_gt f.rootRange.pos, f.space.tree, f.tfRange, f.trapframe, f.trampoline,
      f.backed, f.framed⟩
  · intro h
    rw [child] at h
    cases h
  · rw [child]
    exact own.heapTop c
  · intro h
    rw [child] at h
    rcases h with h | h <;> cases h

theorem sysBrk_ok {a ret : ℕ} (own : Owned L s free kernel) (hi : (s.proc i).state ≠ .unused)
    (hgone : ¬ Gone (s.proc i)) (hr : (sysBrk L i a).run s = .ok ret s') :
    (∃ free', Moves L kernel (some i) s free s' free') ∧ s'.nextpid = s.nextpid ∧
      ∃ top, s'.proc = Function.update s.proc i { s.proc i with heapTop := top } := by
  have ok := own.used i hi
  have pages := own.slotPages_eq hi
  have apart := own.apart i
  rw [pages] at apart
  have htf : pteAt L s.pm.mem (s.proc i).pgtbl TRAPFRAME ≠ 0 :=
    pteAt_ne_zero (ok.trapframe.symm ▸ ok.tf.pos)
  have htr : pteAt L s.pm.mem (s.proc i).pgtbl TRAMPOLINE ≠ 0 :=
    pteAt_ne_zero (ok.trampoline.symm ▸ L.trampoline_pos)
  -- whatever the heap does, it keeps the trapframe, the trampoline and the pages
  have finish : ∀ (pm : Pmem) (free' : List ℕ) (top : ℕ),
      Keeps L (s.proc i).pgtbl s.pm free pm free' → top ≤ TRAPFRAME →
      pteAt L pm.mem (s.proc i).pgtbl TRAPFRAME = pteAt L s.pm.mem (s.proc i).pgtbl TRAPFRAME →
      pteAt L pm.mem (s.proc i).pgtbl TRAMPOLINE = pteAt L s.pm.mem (s.proc i).pgtbl TRAMPOLINE →
      s' = ({ s with pm := pm } : Kernel).setProc i { s.proc i with heapTop := top } →
      Moves L kernel (some i) s free s' free' := by
    rintro pm free' top keeps htop hf ht rfl
    refine own.moves_exchange ?_ keeps.space.list ?_
      (fun q hf hq => keeps.frame q hf (pages ▸ hq)) ?_ ?_ ?_ ?_
    · intro j hj
      rw [Kernel.setProc_proc_of_ne _ hj]
      exact .refl _
    · rw [pages, ← keeps.pages, slotPages, Kernel.setProc_proc_self, if_neg ok.root]
      rfl
    · intro _
      rw [Kernel.setProc_proc_self]
      refine ⟨ok.root, keeps.space.tree, ok.tf, ?_, ?_, ok.backed.of_keeps keeps fun _ => rfl, ?_⟩
      · change PTE2PA (pteAt L pm.mem (s.proc i).pgtbl TRAPFRAME) = _
        rw [hf]
        exact ok.trapframe
      · change PTE2PA (pteAt L pm.mem (s.proc i).pgtbl TRAMPOLINE) = _
        rw [ht]
        exact ok.trampoline
      · change Framed L pm.mem (s.proc i).pgtbl
        rw [Framed, hf, ht]
        exact ok.framed
    · intro h
      rw [Kernel.setProc_proc_self] at h
      exact absurd h hi
    · rw [Kernel.setProc_proc_self]
      exact htop
    · intro h
      rw [Kernel.setProc_proc_self] at h
      exact absurd h hgone
  unfold sysBrk at hr
  rw [Comp.bind_gets_run, Comp.run_ite] at hr
  split at hr
  · cases hr
    refine ⟨⟨free, own, ?_, fun _ => rfl, fun _ _ => rfl⟩, rfl, (s.proc i).heapTop, ?_⟩
    · intro _ _
      rfl
    · exact (Function.update_eq_self i s.proc).symm
  obtain ⟨h, s₁, hmem, rest⟩ := (Comp.bind_ok_iff _ _ _ _ _).mp hr
  obtain ⟨pm, hmem, hs₁⟩ := onMem_ok hmem
  rw [setProc, Comp.bind_modify_run, Comp.run_pure, Outcome.ok.injEq] at rest
  have hs' := rest.2.symm
  rw [hs₁] at hs'
  refine ⟨?_, by rw [hs']; rfl, h.heapTop, by rw [hs']; rfl⟩
  rw [Comp.run_ite] at hmem
  split at hmem
  next hlt =>
    obtain ⟨free', keeps, htop, kept⟩ :=
      uvmHeapGrow_ok (own.space hi) apart (own.heapTop i) htf hmem
    exact ⟨free', finish pm free' h.heapTop keeps htop (kept _ htf) (kept _ htr) hs'⟩
  next hge =>
    have hlen : ((s.proc i).heapTop - a) % 2 ^ 32 ≤ (s.proc i).heapTop :=
      Nat.le_trans (Nat.mod_le _ _) (Nat.sub_le _ _)
    obtain ⟨free', keeps, htop, kept⟩ := uvmHeapUngrow_ok (own.space hi) apart (own.heapTop i)
      hlen (Nat.mod_lt _ (by decide)) hmem
    exact ⟨free', finish pm free' h.heapTop keeps htop (kept _ (Nat.le_refl _) (by decide))
      (kept _ (by decide) (by decide)) hs'⟩

theorem FreeList.of_same {pm pm' : Pmem} (h : FreeList L pm free) (next : pm'.next = pm.next)
    (allocable : pm'.allocable = pm.allocable) (same : ∀ q ∈ free, pm'.mem q = pm.mem q) :
    FreeList L pm' free where
  linked := by
    rw [next]
    exact h.linked.congr same
  allocable := allocable.trans h.allocable
  range := h.range

/-- A page that a process can write is not free and no node of any table. -/
theorem Owned.user_apart {q : ℕ} (own : Owned L s free kernel) (hi : (s.proc i).state ≠ .unused)
    (user : UserPage L s.pm.mem (s.proc i).pgtbl q) :
    q ∉ free ∧ ∀ j, (s.proc j).state ≠ .unused → q ∉ tableNodes L s.pm.mem (s.proc j).pgtbl := by
  obtain ⟨va, -, rfl⟩ := user
  refine ⟨own.data_notFree hi va, ?_⟩
  intro j hj hnode
  have inSlot := own.mem_slotPages_of_node hj hnode
  have leaf := (own.used i hi).tree.mem_leaves (own.inRange inSlot)
  by_cases hij : i = j
  · subst hij
    have apart := own.apart i
    rw [own.slotPages_eq hi, tablePages] at apart
    exact Multiset.disjoint_left.mp
      (Multiset.nodup_add.mp (Multiset.nodup_add.mp apart).2.1).2.2 hnode leaf
  · refine own.disjoint hij ?_ inSlot
    rw [own.slotPages_eq hi]
    exact mem_tablePages_of_leaf leaf

/-- A write to pages that a process can reach in user mode. -/
theorem Owned.moves_user {pm : Pmem} (own : Owned L s free kernel)
    (hi : (s.proc i).state ≠ .unused) (next : pm.next = s.pm.next)
    (allocable : pm.allocable = s.pm.allocable)
    (same : ∀ q, ¬ UserPage L s.pm.mem (s.proc i).pgtbl q → pm.mem q = s.pm.mem q) :
    Moves L kernel none s free { s with pm := pm } free := by
  refine own.moves_write (fun _ => .refl _) ?_ ?_
  · exact FreeList.of_same own.list next allocable fun q hq =>
      same q fun user => (own.user_apart hi user).1 hq
  · intro j b hb hnode
    refine same b fun user => ?_
    by_cases hj : (s.proc j).state = .unused
    · rw [own.slotPages_unused hj] at hb
      exact absurd hb (Multiset.notMem_zero b)
    · exact (own.user_apart hi user).2 j hj hnode

theorem firstZombie_spec {t : Table} (h : firstZombie t i = some c) :
    (t c).parent = some i ∧ (t c).state = .zombie := by
  have := List.find?_some h
  simpa using this

/-- `proc_wait` copies the exit status to pages of the caller, if anywhere. -/
theorem copyout_written {addr len : ℕ} {src : ℕ → UInt8} {b : Bool} {pm : Pmem}
    (own : Owned L s free kernel) (hi : (s.proc i).state ≠ .unused)
    (hr : (if addr ≠ 0 then uvmCopyout (s.proc i).pgtbl addr src len else pure true).run s.pm =
      .ok b pm) : pm.next = s.pm.next ∧ pm.allocable = s.pm.allocable ∧
      ∀ q, ¬ UserPage L s.pm.mem (s.proc i).pgtbl q → pm.mem q = s.pm.mem q := by
  rw [Comp.run_ite] at hr
  split at hr
  · exact uvmCopyoutLoop_ok (own.used i hi).tree (fun q user => (own.user_apart hi user).2 i hi) hr
  · cases hr
    exact ⟨rfl, rfl, fun _ _ => rfl⟩

/-- `proc_wait` with a zombie child: what it copies out, and the slot it frees. -/
theorem procWait_reaps {addr : ℕ} {o : Option ℤ} (own : Owned L s free kernel)
    (hi : (s.proc i).state ≠ .unused) (hc : firstZombie s.proc i = some c)
    (hr : (procWait L i addr).run s = .ok o s') :
    o = some (s.proc c).pid ∧
      (∃ free', Moves L kernel (some c) s free s' free' ∧ slotPages L s' c = 0) ∧
      s'.proc = Function.update s.proc c (s.proc c).freed ∧ s'.nextpid = s.nextpid ∧
      ∃ b pm, (if addr ≠ 0 then uvmCopyout (s.proc i).pgtbl addr
          (leByte ((s.proc c).xstate % 2 ^ 32).toNat) 4 else pure true).run s.pm = .ok b pm ∧
        ∀ q, q ∉ free → q ∉ slotPages L s c → s'.pm.mem q = pm.mem q := by
  unfold procWait at hr
  rw [Comp.bind_get_run, hc] at hr
  obtain ⟨b, s₁, hcopy, rest⟩ := (Comp.bind_ok_iff _ _ _ _ _).mp hr
  obtain ⟨pm₁, hcopy, hs₁⟩ := onMem_ok hcopy
  obtain ⟨_, s₂, hfree, rest⟩ := (Comp.bind_ok_iff _ _ _ _ _).mp rest
  cases rest
  have written := copyout_written own hi hcopy
  have moves₁ := own.moves_user hi written.1 written.2.1 written.2.2
  rw [← hs₁] at moves₁
  have proc₁ : s₁.proc = s.proc := by rw [hs₁]
  have hz := (firstZombie_spec hc).2
  rw [← proc₁] at hz
  obtain ⟨free', moves, gone, hproc, hnext, frame⟩ := procFree_ok moves₁.owned hz hfree
  refine ⟨rfl, ⟨free', ⟨moves.owned, ?_, by simp, ?_⟩, gone⟩, ?_, ?_, b, pm₁, hcopy, ?_⟩
  · intro d hd
    rw [moves.pages d hd, moves₁.others d (by simp)]
  · intro j hj
    rw [moves.others j hj, moves₁.others j (by simp)]
  · rw [hproc, proc₁]
  · rw [hnext, hs₁]
  · intro q hf hq
    rw [frame q hf (by rwa [moves₁.others c (by simp)]), hs₁]

theorem procWait_none {addr : ℕ} {o : Option ℤ} (own : Owned L s free kernel)
    (hi : ¬ Gone (s.proc i)) (hc : firstZombie s.proc i = none)
    (hr : (procWait L i addr).run s = .ok o s') :
    Moves L kernel none s free s' free ∧ s'.pm = s.pm ∧ s'.nextpid = s.nextpid := by
  unfold procWait at hr
  rw [Comp.bind_get_run, hc] at hr
  dsimp only at hr
  rw [Comp.run_ite] at hr
  split at hr
  · cases hr
    exact ⟨.refl own, rfl, rfl⟩
  · rw [setProc, Comp.bind_modify_run, Comp.run_pure, Outcome.ok.injEq] at hr
    obtain ⟨-, rfl⟩ := hr
    refine ⟨own.moves_table rfl ?_, rfl, rfl⟩
    apply SameSpace.update
    refine ⟨rfl, rfl, rfl, ?_, ?_⟩
    · simp only [reduceCtorEq, false_iff]
      exact fun h => hi (Or.inl h)
    · rintro (h | h) <;> cases h

end Calls

end EasyXv6.Proc
