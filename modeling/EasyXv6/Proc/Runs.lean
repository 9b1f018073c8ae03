import EasyXv6.Lib.Trace
import EasyXv6.Proc.Boot

set_option autoImplicit false

/-!
# Runs of the system

A step is a system call of the process on the CPU, or what happens between two of them.
-/
namespace EasyXv6.Proc
open Lib Mem Radix

inductive Label
  | fork (i : Fin NPROC) (ret : ℤ)
  | exit (i : Fin NPROC) (exitState : ℤ)
  | wait (i : Fin NPROC) (addr : ℕ) (ret : Option ℤ)
  | brk (i : Fin NPROC) (newHeapTop ret : ℕ)
  | kill (pid ret : ℤ)
  | other (i : Fin NPROC)

def Live (p : ProcT) : Prop := p.state = .runnable ∨ p.state = .running ∨ p.state = .sleeping

/-- What the scheduler, traps and the other system calls do to a slot. -/
structure Served (p q : ProcT) : Prop where
  same : q = { p with
    state := q.state, sleepSpace := q.sleepSpace, killed := q.killed, ofile := q.ofile
    priority := q.priority, priorityBoost := q.priorityBoost }
  live : Live p
  live' : Live q

/-- What happens when the process `i` is dispatched and makes none of the calls below: it writes to
    its own pages, the kernel to those that it keeps and to the trapframe. -/
structure Between (L : Layout) (kernel : Multiset ℕ) (i : Fin NPROC) (s s' : Kernel) : Prop where
  next : s'.pm.next = s.pm.next
  allocable : s'.pm.allocable = s.pm.allocable
  nextpid : s'.nextpid = s.nextpid
  proc : ∀ j, s'.proc j = s.proc j ∨ Served (s.proc j) (s'.proc j)
  mem : ∀ q, ¬ UserPage L s.pm.mem (s.proc i).pgtbl q → q ≠ (s.proc i).tf → q ∉ kernel →
    s'.pm.mem q = s.pm.mem q

inductive Step (L : Layout) (kernel : Multiset ℕ) : Kernel → Label → Kernel → Prop
  | fork {s s' : Kernel} {i : Fin NPROC} {ret : ℤ} (run : (s.proc i).state = .running)
      (h : (procFork L i).run s = .ok ret s') : Step L kernel s (.fork i ret) s'
  | exit {s s' : Kernel} {i : Fin NPROC} {st : ℤ} (run : (s.proc i).state = .running)
      (h : (procExit i st).run s = .ok () s') : Step L kernel s (.exit i st) s'
  | wait {s s' : Kernel} {i : Fin NPROC} {addr : ℕ} {ret : Option ℤ}
      (run : (s.proc i).state = .running) (h : (procWait L i addr).run s = .ok ret s') :
      Step L kernel s (.wait i addr ret) s'
  | brk {s s' : Kernel} {i : Fin NPROC} {a ret : ℕ} (run : (s.proc i).state = .running)
      (h : (sysBrk L i a).run s = .ok ret s') : Step L kernel s (.brk i a ret) s'
  | kill {s s' : Kernel} {pid ret : ℤ} (h : (procKill pid).run s = .ok ret s') :
      Step L kernel s (.kill pid ret) s'
  | other {s s' : Kernel} {i : Fin NPROC} (run : Live (s.proc i))
      (h : Between L kernel i s s') : Step L kernel s (.other i) s'

variable {L : Layout} {s s' : Kernel} {free free' : List ℕ} {kernel : Multiset ℕ}
  {i c : Fin NPROC}

theorem not_gone_of_running (h : (s.proc i).state = .running) : ¬ Gone (s.proc i) := by
  rintro (h' | h') <;> rw [h] at h' <;> cases h'

theorem not_unused_of_running (h : (s.proc i).state = .running) : (s.proc i).state ≠ .unused := by
  rw [h]
  simp

theorem Live.not_gone {p : ProcT} (h : Live p) : ¬ Gone p := by
  rintro (g | g) <;> rcases h with h | h | h <;> rw [h] at g <;> cases g

theorem Served.sameSpace {p q : ProcT} (h : Served p q) : SameSpace p q := by
  refine ⟨?_, ?_, ?_, ?_, fun hg => absurd hg h.live'.not_gone⟩
  · rw [h.same]
  · rw [h.same]
  · rw [h.same]
  · exact iff_of_false (fun hq => h.live'.not_gone (Or.inl hq)) fun hp => h.live.not_gone (Or.inl hp)

theorem Between.sameSpace (h : Between L kernel i s s') (j : Fin NPROC) :
    SameSpace (s.proc j) (s'.proc j) := by
  rcases h.proc j with same | served
  · rw [same]
    exact .refl _
  · exact served.sameSpace

/-- The process `i` gets the CPU, and the one that had it is RUNNABLE again. -/
def Kernel.dispatch (s : Kernel) (i : Fin NPROC) : Kernel :=
  { s with proc := fun j =>
      if j = i then { s.proc j with state := .running }
      else if (s.proc j).state = .running then { s.proc j with state := .runnable }
      else s.proc j }

theorem dispatch_self (s : Kernel) (i : Fin NPROC) :
    (s.dispatch i).proc i = { s.proc i with state := .running } := if_pos rfl

theorem dispatch_other {j : Fin NPROC} (hj : j ≠ i) (h : (s.proc j).state ≠ .running) :
    (s.dispatch i).proc j = s.proc j := by
  unfold Kernel.dispatch
  dsimp only
  rw [if_neg hj, if_neg h]

theorem step_dispatch (h : Live (s.proc i)) : Step L kernel s (.other i) (s.dispatch i) := by
  refine .other h ⟨rfl, rfl, rfl, ?_, fun _ _ _ _ => rfl⟩
  intro j
  unfold Kernel.dispatch
  dsimp only
  split
  next hj =>
    subst hj
    exact Or.inr ⟨rfl, h, Or.inr (Or.inl rfl)⟩
  next =>
    split
    next hrun => exact Or.inr ⟨rfl, Or.inr (Or.inl hrun), Or.inl rfl⟩
    next => exact Or.inl rfl

section Kill

theorem procKill_run {pid ret : ℤ} (hr : (procKill pid).run s = .ok ret s') :
    (∃ p, firstPid s.proc pid = some p ∧ ret = 0 ∧
      s' = s.setProc p { s.proc p with
        killed := true
        state := if (s.proc p).state = .sleeping then .runnable else (s.proc p).state }) ∨
      (firstPid s.proc pid = none ∧ ret = -1 ∧ s' = s) := by
  unfold procKill at hr
  rw [Comp.bind_get_run] at hr
  split at hr
  next p hp =>
    rw [setProc, Comp.bind_modify_run, Comp.run_pure, Outcome.ok.injEq] at hr
    exact Or.inl ⟨p, hp, hr.1.symm, hr.2.symm⟩
  next hnone =>
    cases hr
    exact Or.inr ⟨hnone, rfl, rfl⟩

theorem kill_sameSpace (p : ProcT) : SameSpace p { p with
    killed := true, state := if p.state = .sleeping then .runnable else p.state } := by
  by_cases hs : p.state = .sleeping
  · rw [if_pos hs]
    refine ⟨rfl, rfl, rfl, by simp [hs], ?_⟩
    rintro (h | h) <;> cases h
  · rw [if_neg hs]
    exact ⟨rfl, rfl, rfl, Iff.rfl, fun h => Or.inr ⟨h, rfl⟩⟩

end Kill

section Owner

/-- The slot on whose behalf a step takes or gives back pages. -/
def Label.behalf (s : Kernel) : Label → Option (Fin NPROC)
  | .fork _ _ => firstUnused s.proc
  | .wait i _ _ => firstZombie s.proc i
  | .brk i _ _ => some i
  | _ => none

/-- The trapframe of a process is a leaf of its table. -/
theorem Owned.tf_leaf (own : Owned L s free kernel) (hi : (s.proc i).state ≠ .unused) :
    (s.proc i).tf ∈ tableLeaves L s.pm.mem (s.proc i).pgtbl := by
  have ok := own.used i hi
  have leaf : PTE2PA (pteAt L s.pm.mem (s.proc i).pgtbl TRAPFRAME) ∈ _ :=
    ok.tree.mem_leaves (by rw [ok.trapframe]; exact ok.tf)
  rwa [ok.trapframe] at leaf

theorem Owned.tf_mem (own : Owned L s free kernel) (hi : (s.proc i).state ≠ .unused) :
    (s.proc i).tf ∈ slotPages L s i := by
  rw [own.slotPages_eq hi]
  exact mem_tablePages_of_leaf (own.tf_leaf hi)

/-- What is a leaf of some table is a node of none. -/
theorem Owned.leaf_apart {q : ℕ} (own : Owned L s free kernel) (hi : (s.proc i).state ≠ .unused)
    (leaf : q ∈ tableLeaves L s.pm.mem (s.proc i).pgtbl) :
    q ∉ free ∧ ∀ j, (s.proc j).state ≠ .unused → q ∉ tableNodes L s.pm.mem (s.proc j).pgtbl := by
  have inSlot : q ∈ slotPages L s i := by
    rw [own.slotPages_eq hi]
    exact mem_tablePages_of_leaf leaf
  refine ⟨own.notFree inSlot, ?_⟩
  intro j hj hnode
  by_cases hij : i = j
  · subst hij
    have apart := own.apart i
    rw [own.slotPages_eq hi] at apart
    exact (Space.leaf_apart apart leaf).2 hnode
  · exact own.disjoint hij inSlot (own.mem_slotPages_of_node hj hnode)

theorem Owned.kernel_apart {q : ℕ} (own : Owned L s free kernel) (hq : q ∈ kernel) :
    q ∉ free ∧ ∀ j, q ∉ slotPages L s j := by
  have nodup := own.nodup
  refine ⟨?_, ?_⟩
  · intro hf
    exact Multiset.disjoint_left.mp (Multiset.nodup_add.mp (Multiset.nodup_add.mp nodup).1).2.2
      (Multiset.mem_coe.mpr hf) hq
  · intro j hj
    exact Multiset.disjoint_left.mp (Multiset.nodup_add.mp nodup).2.2
      (Multiset.mem_add.mpr (Or.inr hq)) (Multiset.mem_of_le (slotPages_le L s j) hj)

theorem Owned.moves_between (own : Owned L s free kernel) (run : Live (s.proc i))
    (h : Between L kernel i s s') : Moves L kernel none s free s' free := by
  have hi : (s.proc i).state ≠ .unused := fun hu => run.not_gone (Or.inl hu)
  refine own.moves_write h.sameSpace ?_ ?_
  · refine FreeList.of_same own.list h.next h.allocable fun q hq => h.mem q ?_ ?_ ?_
    · exact fun user => (own.user_apart hi user).1 hq
    · rintro rfl
      exact own.notFree (own.tf_mem hi) hq
    · exact fun hk => (own.kernel_apart hk).1 hq
  · intro j b hb hnode
    have hj : (s.proc j).state ≠ .unused := by
      intro hu
      rw [own.slotPages_unused hu] at hb
      exact Multiset.notMem_zero b hb
    refine h.mem b ?_ ?_ ?_
    · exact fun user => (own.user_apart hi user).2 j hj hnode
    · rintro rfl
      exact (own.leaf_apart hi (own.tf_leaf hi)).2 j hj hnode
    · exact fun hk => (own.kernel_apart hk).2 j hb

/-- Every step moves pages between the free list and the slot on whose behalf it is made. -/
theorem Owned.step {l : Label} (own : Owned L s free kernel) (h : Step L kernel s l s') :
    ∃ free', Moves L kernel (l.behalf s) s free s' free' := by
  cases h with
  | fork run h =>
    rcases procFork_ok own (not_unused_of_running run) h with
      ⟨hnone, -, rfl⟩ | ⟨-, c, tf, r, free', forked⟩
    · rw [Label.behalf, hnone]
      exact ⟨free, .refl own⟩
    · rw [Label.behalf, forked.slot]
      exact ⟨free', forked.moves own⟩
  | exit run h =>
    obtain ⟨pm, -, same⟩ := procExit_ok (not_unused_of_running run) h
    exact ⟨free, own.moves_table pm same⟩
  | @wait _ i addr ret run h =>
    cases hc : firstZombie s.proc i with
    | none =>
      rw [Label.behalf, hc]
      exact ⟨free, (procWait_none own (not_gone_of_running run) hc h).1⟩
    | some c =>
      obtain ⟨-, ⟨free', moves, -⟩, -⟩ := procWait_reaps own (not_unused_of_running run) hc h
      rw [Label.behalf, hc]
      exact ⟨free', moves⟩
  | brk run h =>
    exact (sysBrk_ok own (not_unused_of_running run) (not_gone_of_running run) h).1
  | kill h =>
    rcases procKill_run h with ⟨p, -, -, rfl⟩ | ⟨-, -, rfl⟩
    · exact ⟨free, own.moves_table rfl fun j => SameSpace.update (kill_sameSpace _) j⟩
    · exact ⟨free, .refl own⟩
  | other run h => exact ⟨free, own.moves_between run h⟩

theorem Owned.run {tr : List (Label × Kernel)} (own : Owned L s free kernel)
    (h : Along (Step L kernel) s tr) : ∃ free', Owned L (final s tr) free' kernel :=
  h.invariant (I := fun s => ∃ free, Owned L s free kernel)
    (fun _ _ _ ⟨_, own⟩ step => by
      obtain ⟨free', moves⟩ := own.step step
      exact ⟨free', moves.owned⟩) ⟨free, own⟩

end Owner

end EasyXv6.Proc
