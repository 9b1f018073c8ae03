import EasyXv6.Proc.HighPages
import EasyXv6.Proc.Slots

set_option autoImplicit false

/-!
# The pages of the others

What a step of one process leaves alone: all pages of the other processes, and every trapframe.
-/
namespace EasyXv6.Proc
open Lib Mem Radix

/-- The process that a step is of. -/
def Label.actor : Label → Option (Fin NPROC)
  | .fork i _ | .exit i _ | .wait i _ _ | .brk i _ _ | .other i => some i
  | .kill _ _ => none

variable {L : Layout} {s s' : Kernel} {free : List ℕ} {kernel : Multiset ℕ} {i j : Fin NPROC}
  {l : Label} {q va : ℕ}

/-- What a process can reach in user mode is its own. -/
theorem Spaces.userPage_mem (h : Spaces L kernel s) (hi : (s.proc i).state ≠ .unused)
    (user : UserPage L s.pm.mem (s.proc i).pgtbl q) : q ∈ slotPages L s i := by
  obtain ⟨free, own⟩ := h.owned
  obtain ⟨va, user, rfl⟩ := user
  have ok := own.used i hi
  have ne : pteAt L s.pm.mem (s.proc i).pgtbl va ≠ 0 := by
    intro zero
    rw [zero] at user
    cases user
  rcases ok.backed va ne with code | range
  · rw [← code.pteAt_eq, (h.high i hi).trampoline, isUser_leafPte (by decide)] at user
    cases user
  · rw [own.slotPages_eq hi]
    exact mem_tablePages_of_leaf (ok.tree.mem_leaves range)

theorem Spaces.userPage_apart (h : Spaces L kernel s) (hi : (s.proc i).state ≠ .unused)
    (hj : j ≠ i) (mem : q ∈ slotPages L s j) : ¬ UserPage L s.pm.mem (s.proc i).pgtbl q := by
  intro user
  obtain ⟨free, own⟩ := h.owned
  exact own.disjoint hj mem (h.userPage_mem hi user)

section Others

/-- What `sys_brk` leaves alone. -/
theorem sysBrk_frame {a ret : ℕ} (own : Owned L s free kernel) (hi : (s.proc i).state ≠ .unused)
    (hr : (sysBrk L i a).run s = .ok ret s') :
    (∀ q, q ∉ free → q ∉ slotPages L s i → s'.pm.mem q = s.pm.mem q) ∧
      s'.pm.mem (s.proc i).tf = s.pm.mem (s.proc i).tf := by
  have pages := own.slotPages_eq hi
  have leaf := own.tf_leaf hi
  have tf := (own.used i hi).trapframe
  by_cases h0 : a = 0
  · unfold sysBrk at hr
    rw [Comp.bind_gets_run, if_pos h0] at hr
    cases hr
    exact ⟨fun _ _ _ => rfl, rfl⟩
  by_cases hlt : (s.proc i).heapTop < a
  · obtain ⟨h, pm, hmem, -, rfl⟩ := (sysBrk_grows h0 hlt).mp hr
    have hmod : (a - (s.proc i).heapTop) % 2 ^ 32 < 2 ^ 32 := Nat.mod_lt _ (by decide)
    obtain ⟨-, -, free', grown⟩ := uvmHeapGrow_grown (own.space hi) (own.apartTable hi)
      (own.heapTop i) (own.trapframe_mapped hi) hmod hmem
    rw [afterBrk_pm, pages]
    exact ⟨grown.keeps.frame, grown.content _ leaf⟩
  · obtain ⟨h, pm, hmem, -, rfl⟩ := (sysBrk_shrinks h0 (Nat.not_lt.mp hlt)).mp hr
    have hlen : ((s.proc i).heapTop - a) % 2 ^ 32 ≤ (s.proc i).heapTop :=
      Nat.le_trans (Nat.mod_le _ _) (Nat.sub_le _ _)
    obtain ⟨-, -, -, kept⟩ := uvmHeapUngrow_ok (own.space hi) (own.apartTable hi) (own.heapTop i)
      hlen (Nat.mod_lt _ (by decide)) hmem
    obtain ⟨-, -, -, free', shrunk⟩ := uvmHeapUngrow_shrunk (own.space hi) (own.apartTable hi)
      (own.heapTop i) hlen hmem
    rw [afterBrk_pm, pages]
    refine ⟨shrunk.keeps.frame, shrunk.content _ ?_⟩
    -- the trapframe is still mapped
    rw [← tf, ← kept TRAPFRAME (Nat.le_refl _) (by decide)]
    apply shrunk.keeps.space.tree.mem_leaves
    rw [kept TRAPFRAME (Nat.le_refl _) (by decide), tf]
    exact (own.used i hi).tf

theorem Between.pages_kept (b : Between L kernel i s s') (h : Spaces L kernel s)
    (hi : (s.proc i).state ≠ .unused) (hj : j ≠ i) (mem : q ∈ slotPages L s j) :
    s'.pm.mem q = s.pm.mem q := by
  obtain ⟨free, own⟩ := h.owned
  apply b.mem q (h.userPage_apart hi hj mem)
  · rintro rfl
    exact own.disjoint hj mem (own.tf_mem hi)
  · exact fun hk => (own.kernel_apart hk).2 j mem

/-- A step of one process changes no page of another that stays. -/
theorem Spaces.pages_kept (h : Spaces L kernel s) (st : Step L kernel s l s')
    (other : l.actor ≠ some j) (stays : (s'.proc j).state ≠ .unused) (mem : q ∈ slotPages L s j) :
    s'.pm.mem q = s.pm.mem q := by
  obtain ⟨free, own⟩ := h.owned
  have hq := own.notFree mem
  cases st with
  | fork run hr =>
    rcases procFork_ok own (not_unused_of_running run) hr with ⟨-, -, rfl⟩ | ⟨-, c, tf, r, free', forked⟩
    · rfl
    · exact forked.frame q hq
  | exit run hr =>
    obtain ⟨pm, -, -⟩ := procExit_ok (not_unused_of_running run) hr
    rw [pm]
  | @wait _ i _ _ run hr =>
    have hi := not_unused_of_running run
    cases hc : firstZombie s.proc i with
    | none => rw [(procWait_none own (not_gone_of_running run) hc hr).2.1]
    | some c =>
      obtain ⟨-, -, proc, -, b, pm, hcopy, frame⟩ := procWait_reaps own hi hc hr
      have hjc : j ≠ c := by
        rintro rfl
        rw [proc, Function.update_self] at stays
        exact stays rfl
      have hji : j ≠ i := fun hji => other (congrArg some hji.symm)
      rw [frame q hq (own.disjoint hjc mem)]
      exact (copyout_written own hi hcopy).2.2 q (h.userPage_apart hi hji mem)
  | @brk _ i _ _ run hr =>
    have hji : j ≠ i := fun hji => other (congrArg some hji.symm)
    exact (sysBrk_frame own (not_unused_of_running run) hr).1 q hq (own.disjoint hji mem)
  | kill hr =>
    rcases procKill_run hr with ⟨p, -, -, rfl⟩ | ⟨-, -, rfl⟩
    · rfl
    · rfl
  | @other _ i run hb =>
    have hji : j ≠ i := fun hji => other (congrArg some hji.symm)
    exact hb.pages_kept h (fun hu => run.not_gone (Or.inl hu)) hji mem

theorem killed_update {t : Table} {p : ProcT} (same : p.killed = (t i).killed) (j : Fin NPROC) :
    (Function.update t i p j).killed = (t j).killed := by
  by_cases hj : j = i
  · rw [hj, Function.update_self, same]
  · rw [Function.update_of_ne hj]

/-- A wait changes at most the slot of the child that it frees, and sleeps. -/
theorem procWait_fields {addr : ℕ} {o : Option ℤ} (own : Owned L s free kernel)
    (run : (s.proc i).state = .running) (hr : (procWait L i addr).run s = .ok o s') :
    (∀ j, SameSpace (s.proc j) (s'.proc j) ∧ (s'.proc j).killed = (s.proc j).killed) ∨
      ∃ c, s'.proc = Function.update s.proc c (s.proc c).freed := by
  cases hc : firstZombie s.proc i with
  | none =>
    unfold procWait at hr
    rw [Comp.bind_get_run, hc] at hr
    dsimp only at hr
    rw [Comp.run_ite] at hr
    split at hr
    · cases hr
      exact Or.inl fun _ => ⟨.refl _, rfl⟩
    · rw [setProc, Comp.bind_modify_run, Comp.run_pure, Outcome.ok.injEq] at hr
      obtain ⟨-, rfl⟩ := hr
      refine Or.inl fun j => ⟨?_, ?_⟩
      · apply SameSpace.update
        exact ⟨rfl, rfl, rfl, by simp [run], fun h => absurd h (by simp [Gone])⟩
      · exact killed_update (by rfl) j
  | some c =>
    obtain ⟨-, -, proc, -⟩ := procWait_reaps own (not_unused_of_running run) hc hr
    exact Or.inr ⟨c, proc⟩

theorem procExit_killed {st : ℤ} (hr : (procExit i st).run s = .ok () s') (j : Fin NPROC) :
    (s'.proc j).killed = (s.proc j).killed := by
  obtain ⟨-, parent, rfl⟩ := procExit_run hr
  have woken := woken_exiting s.proc i parent j
  dsimp only [exited]
  by_cases hj : j = i
  · subst hj
    rw [Function.update_self] at woken ⊢
    generalize exiting s.proc j parent j = q at woken ⊢
    have same : q.killed = (s.proc j).killed := by rw [woken.same]
    exact same
  · rw [Function.update_of_ne hj] at woken ⊢
    rw [woken.same]

/-- Only a fork fills a slot. -/
theorem Spaces.used_before (h : Spaces L kernel s) (st : Step L kernel s l s')
    (hl : ∀ i ret, l ≠ .fork i ret) (used : (s'.proc j).state ≠ .unused) :
    (s.proc j).state ≠ .unused := by
  obtain ⟨free, own⟩ := h.owned
  exact fun unused => used (((own.change st j).still hl).2 unused)

/-- A process keeps its table and its trapframe for as long as it has its slot. -/
theorem Spaces.fields_kept (h : Spaces L kernel s) (st : Step L kernel s l s')
    (used : (s.proc j).state ≠ .unused) (stays : (s'.proc j).state ≠ .unused) :
    (s'.proc j).tf = (s.proc j).tf ∧ (s'.proc j).pgtbl = (s.proc j).pgtbl := by
  obtain ⟨free, own⟩ := h.owned
  cases st with
  | fork run hr =>
    rcases procFork_ok own (not_unused_of_running run) hr with ⟨-, -, rfl⟩ | ⟨-, c, tf, r, free', forked⟩
    · exact ⟨rfl, rfl⟩
    · have hjc : j ≠ c := by
        rintro rfl
        exact used (firstUnused_state forked.slot)
      rw [forked.proc, Function.update_of_ne hjc]
      exact ⟨rfl, rfl⟩
  | exit run hr =>
    obtain ⟨-, -, same⟩ := procExit_ok (not_unused_of_running run) hr
    exact ⟨(same j).tf, (same j).pgtbl⟩
  | wait run hr =>
    rcases procWait_fields own run hr with same | ⟨c, proc⟩
    · exact ⟨(same j).1.tf, (same j).1.pgtbl⟩
    · have hjc : j ≠ c := by
        rintro rfl
        rw [proc, Function.update_self] at stays
        exact stays rfl
      rw [proc, Function.update_of_ne hjc]
      exact ⟨rfl, rfl⟩
  | @brk _ i _ _ run hr =>
    obtain ⟨-, -, top, proc⟩ := sysBrk_ok own (not_unused_of_running run) (not_gone_of_running run) hr
    rw [proc]
    by_cases hji : j = i
    · rw [hji, Function.update_self]
      exact ⟨rfl, rfl⟩
    · rw [Function.update_of_ne hji]
      exact ⟨rfl, rfl⟩
  | kill hr =>
    rcases procKill_run hr with ⟨p, -, -, rfl⟩ | ⟨-, -, rfl⟩
    · have same : ∀ q, SameSpace (s.proc q) (Function.update s.proc p { s.proc p with
          killed := true
          state := if (s.proc p).state = .sleeping then .runnable else (s.proc p).state } q) :=
        SameSpace.update (kill_sameSpace _)
      exact ⟨(same j).tf, (same j).pgtbl⟩
    · exact ⟨rfl, rfl⟩
  | other run hb => exact ⟨(hb.sameSpace j).tf, (hb.sameSpace j).pgtbl⟩

/-- A process that has been killed stays so for as long as it has its slot. -/
theorem Spaces.killed_kept (h : Spaces L kernel s) (st : Step L kernel s l s')
    (call : ∀ i, l ≠ .other i) (used : (s.proc j).state ≠ .unused)
    (stays : (s'.proc j).state ≠ .unused) (killed : (s.proc j).killed = true) :
    (s'.proc j).killed = true := by
  obtain ⟨free, own⟩ := h.owned
  cases st with
  | fork run hr =>
    rcases procFork_ok own (not_unused_of_running run) hr with ⟨-, -, rfl⟩ | ⟨-, c, tf, r, free', forked⟩
    · exact killed
    · have hjc : j ≠ c := by
        rintro rfl
        exact used (firstUnused_state forked.slot)
      rw [forked.proc, Function.update_of_ne hjc]
      exact killed
  | exit run hr => rw [procExit_killed hr, killed]
  | wait run hr =>
    rcases procWait_fields own run hr with same | ⟨c, proc⟩
    · rw [(same j).2, killed]
    · have hjc : j ≠ c := by
        rintro rfl
        rw [proc, Function.update_self] at stays
        exact stays rfl
      rw [proc, Function.update_of_ne hjc]
      exact killed
  | @brk _ i _ _ run hr =>
    obtain ⟨-, -, top, proc⟩ := sysBrk_ok own (not_unused_of_running run) (not_gone_of_running run) hr
    rw [proc, killed_update (by rfl), killed]
  | kill hr =>
    rcases procKill_run hr with ⟨p, -, -, rfl⟩ | ⟨-, -, rfl⟩
    · by_cases hj : j = p
      · simp [hj, Kernel.setProc]
      · exact (congrArg ProcT.killed (Function.update_of_ne hj ..)).trans killed
    · exact killed
  | other run hb => exact absurd rfl (call _)

/-- The calls write to no trapframe but that of a child. -/
theorem Spaces.frame_kept (h : Spaces L kernel s) (st : Step L kernel s l s')
    (call : ∀ i, l ≠ .other i) (used : (s.proc j).state ≠ .unused)
    (stays : (s'.proc j).state ≠ .unused) :
    s'.pm.mem (s.proc j).tf = s.pm.mem (s.proc j).tf := by
  obtain ⟨free, own⟩ := h.owned
  have mem := own.tf_mem used
  by_cases other : l.actor ≠ some j
  · exact h.pages_kept st other stays mem
  rw [not_not] at other
  cases st with
  | fork run hr =>
    rcases procFork_ok own (not_unused_of_running run) hr with ⟨-, -, rfl⟩ | ⟨-, c, tf, r, free', forked⟩
    · rfl
    · exact forked.frame _ (own.notFree mem)
  | exit run hr => rw [(procExit_ok (not_unused_of_running run) hr).1]
  | @wait _ i _ _ run hr =>
    obtain rfl : i = j := Option.some.inj other
    cases hc : firstZombie s.proc i with
    | none => rw [(procWait_none own (not_gone_of_running run) hc hr).2.1]
    | some c =>
      obtain ⟨-, -, proc, -, b, pm, hcopy, frame⟩ := procWait_reaps own used hc hr
      have hic : i ≠ c := by
        rintro rfl
        rw [proc, Function.update_self] at stays
        exact stays rfl
      rw [frame _ (own.notFree mem) (own.disjoint hic mem)]
      exact (copyout_written own used hcopy).2.2 _ (h.trapframe_private used)
  | @brk _ i _ _ run hr =>
    obtain rfl : i = j := Option.some.inj other
    exact (sysBrk_frame own used hr).2
  | kill hr => cases other
  | other run hb => exact absurd rfl (call _)

end Others

end EasyXv6.Proc
