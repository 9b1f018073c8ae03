import EasyXv6.Mem.UserCopy
import EasyXv6.Proc.Slots
import EasyXv6.Proc.Start

set_option autoImplicit false

/-!
# The exit status and who gets it

`proc_wait` ignores the result of `uvm_copyout`: the child is reaped whether or not its status could
be stored.
-/
namespace EasyXv6.Proc
open Lib Mem Radix

/-- The statuses of the last exits from each slot. -/
def exitStatus (o : Fin NPROC → Option ℤ) : List (Label × Kernel) → Fin NPROC → Option ℤ
  | [] => o
  | (.exit i st, _) :: rest => exitStatus (Function.update o i (some st)) rest
  | _ :: rest => exitStatus o rest

/-- Every byte of the status has a page. -/
def Fits (L : Layout) (s : Kernel) (i : Fin NPROC) (addr : ℕ) : Prop :=
  ∀ k < 4, paOf L s.pm.mem (s.proc i).pgtbl (addr + k) ≠ 0

def Child (s : Kernel) (i c : Fin NPROC) : Prop :=
  (s.proc c).parent = some i ∧ (s.proc c).state = .zombie

/-- A wait of `i` from `s` to `t` in a run: the steps before it start at boot. -/
structure DeliveredAt (L : Layout) (before : List (Label × Kernel)) (s : Kernel) (i : Fin NPROC)
    (addr : ℕ) (ret : Option ℤ) (t : Kernel) (after : List (Label × Kernel)) : Prop where
  child : ∀ pid, ret = some pid → pid ≠ -1 → ∃ c, Child s i c ∧ (s.proc c).pid = pid ∧
    (addr ≠ 0 → ∃ st, exitStatus (fun _ => none) before c = some st ∧ Fits L t i addr ∧
      ∀ k < 4, userByte L t.pm.mem (t.proc i).pgtbl (addr + k) = leByte (st % 2 ^ 32).toNat k)
  once : ∀ pid, ret = some pid → pid ≠ -1 → ∀ j addr' u, (.wait j addr' (some pid), u) ∉ after
  refused : addr ≠ 0 → ¬ Fits L s i addr → ∀ c, Child s i c →
    ret = some (-1) ∧ (t.proc c).state = .zombie

/-- Every wait of the run. -/
def Delivered (L : Layout) (s₀ : Kernel) (tr : List (Label × Kernel)) : Prop :=
  ∀ before i addr ret t after, tr = before ++ (.wait i addr ret, t) :: after →
    DeliveredAt L before (final s₀ before) i addr ret t after

/-- A wait that finds a zombie child has an address at which the status can be stored. -/
def Storable (L : Layout) (s : Kernel) : Label → Kernel → Prop
  | .wait i addr _, _ => (∃ c, Child s i c) → addr ≠ 0 → Fits L s i addr
  | _, _ => True

variable {L : Layout} {s s' : Kernel} {free free' : List ℕ} {kernel : Multiset ℕ}
  {i j c : Fin NPROC} {l : Label}

theorem firstZombie_child (h : firstZombie s.proc i = some c) : Child s i c := firstZombie_spec h

theorem firstZombie_none (h : firstZombie s.proc i = none) (c : Fin NPROC) : ¬ Child s i c := by
  have := List.find?_eq_none.mp h c (List.mem_finRange c)
  simpa [Child] using this

section Memory

/-- A page that a process reaches in user mode is no page of another slot. -/
theorem Owned.data_apart (own : Owned L s free kernel) (hi : (s.proc i).state ≠ .unused)
    (hic : i ≠ c) (va : ℕ) : PTE2PA (pteAt L s.pm.mem (s.proc i).pgtbl va) ∉ slotPages L s c := by
  intro hc
  have leaf := (own.used i hi).tree.mem_leaves (own.inRange hc)
  refine own.disjoint hic ?_ hc
  rw [own.slotPages_eq hi]
  exact mem_tablePages_of_leaf leaf

theorem Owned.pagesApart (own : Owned L s free kernel) (hi : (s.proc i).state ≠ .unused) :
    PagesApart L s.pm.mem (s.proc i).pgtbl := by
  intro va va' hva heq
  obtain ⟨lt, -, pa⟩ := paOf_user hva
  obtain ⟨lt', -, pa'⟩ := paOf_user (heq ▸ hva)
  have ok := own.used i hi
  have lower : va < 2 ^ 39 := Nat.lt_trans lt (by decide)
  have lower' : va' < 2 ^ 39 := Nat.lt_trans lt' (by decide)
  rw [← sameEntry_iff lower lower']
  have eq : PTE2PA (pteAt L s.pm.mem (s.proc i).pgtbl va') =
      PTE2PA (pteAt L s.pm.mem (s.proc i).pgtbl va) := by
    rw [← pa, ← pa', heq]
  have mapped : ∀ {v}, paOf L s.pm.mem (s.proc i).pgtbl v ≠ 0 →
      pteAt L s.pm.mem (s.proc i).pgtbl v ≠ 0 := by
    intro v hv
    obtain ⟨-, -, pav⟩ := paOf_user hv
    exact pteAt_ne_zero (pav ▸ Nat.pos_of_ne_zero hv)
  by_cases range : InRange L (PTE2PA (pteAt L s.pm.mem (s.proc i).pgtbl va))
  · have apart := own.apart i
    rw [own.slotPages_eq hi, tablePages] at apart
    exact ok.tree.leaf_inj (Multiset.nodup_add.mp (Multiset.nodup_add.mp apart).2.1).2.1 range eq
  · rcases ok.backed va (mapped hva) with h | h
    · rcases ok.backed va' (mapped (heq ▸ hva)) with h' | h'
      · exact ⟨h.1.symm.trans h'.1, h.2.symm.trans h'.2⟩
      · exact absurd (eq ▸ h') range
    · exact absurd h range

/-- The exact copies hold for the table of every process. -/
theorem Owned.userTable (own : Owned L s free kernel) (hi : (s.proc i).state ≠ .unused) :
    UserTable L s.pm.mem (s.proc i).pgtbl where
  tree := (own.used i hi).tree
  memory := by
    intro va user
    have ne : pteAt L s.pm.mem (s.proc i).pgtbl va ≠ 0 := by
      intro zero
      rw [zero] at user
      cases user
    rcases (own.used i hi).backed va ne with same | range
    · rw [← same.pteAt_eq, (own.used i hi).trampoline]
      exact Nat.ne_of_gt L.trampoline_pos
    · exact Nat.ne_of_gt range.pos
  apart q user := (own.user_apart hi user).2 i hi
  own := own.pagesApart hi

/-- The status of a reaped child is in the caller's memory if it fits. -/
theorem Owned.stored {addr : ℕ} {ret : Option ℤ} (own : Owned L s free kernel)
    (run : (s.proc i).state = .running) (hc : firstZombie s.proc i = some c)
    (hr : (procWait L i addr).run s = .ok ret s') (haddr : addr ≠ 0) (fits : Fits L s i addr) :
    Fits L s' i addr ∧ ∀ k < 4, userByte L s'.pm.mem (s'.proc i).pgtbl (addr + k) =
      leByte ((s.proc c).xstate % 2 ^ 32).toNat k := by
  have hi := not_unused_of_running run
  have hic : i ≠ c := by
    rintro rfl
    rw [(firstZombie_spec hc).2] at run
    cases run
  obtain ⟨-, -, proc, -, b, pm, copy, frame⟩ := procWait_reaps own hi hc hr
  rw [if_pos haddr, uvmCopyout] at copy
  have user := own.userTable hi
  obtain ⟨n, copied⟩ := uvmCopyoutLoop_copied user.tree user.apart user.own (Nat.le_refl 4) copy
  have four := copied.whole (copied.all.mpr fits)
  have written := uvmCopyoutLoop_ok user.tree user.apart copy
  have same : ∀ q ∈ tableNodes L s.pm.mem (s.proc i).pgtbl, s'.pm.mem q = s.pm.mem q := by
    intro q hq
    have inSlot := own.mem_slotPages_of_node hi hq
    rw [frame q (own.notFree inSlot) (own.disjoint hic inSlot), written.2.2 q]
    exact fun reached => user.apart q reached hq
  have table : s'.proc i = s.proc i := by rw [proc, Function.update_of_ne hic]
  rw [Fits, table]
  have pas' : ∀ va, paOf L s'.pm.mem (s.proc i).pgtbl va = paOf L s.pm.mem (s.proc i).pgtbl va :=
    fun va => paOf_of_same same
  refine ⟨fun k hk => ?_, fun k hk => ?_⟩
  · rw [pas']
    exact fits k hk
  have pa := (paOf_user (fits k hk)).2.2
  rw [← copied.bytes k (four ▸ hk), userByte, userByte, pas', copied.pas, pa,
    frame _ (own.data_notFree hi _) (own.data_apart hi hic _)]

end Memory

section History

/-- What a wait returns. -/
theorem Owned.wait_cases {addr : ℕ} {ret : Option ℤ} (own : Owned L s free kernel)
    (h : Step L kernel s (.wait i addr ret) s') :
    (∃ c, firstZombie s.proc i = some c ∧ ret = some (s.proc c).pid ∧
        s'.proc = Function.update s.proc c (s.proc c).freed ∧ s'.nextpid = s.nextpid ∧
        (addr ≠ 0 → Fits L s i addr → Fits L s' i addr ∧
          ∀ k < 4, userByte L s'.pm.mem (s'.proc i).pgtbl (addr + k) =
            leByte ((s.proc c).xstate % 2 ^ 32).toNat k)) ∨
      firstZombie s.proc i = none ∧ (ret = none ∨ ret = some (-1)) := by
  cases h with
  | wait run hr =>
    cases hc : firstZombie s.proc i with
    | some c =>
      obtain ⟨heq, -, proc, next, -⟩ := procWait_reaps own (not_unused_of_running run) hc hr
      exact Or.inl ⟨c, rfl, heq, proc, next, own.stored run hc hr⟩
    | none =>
      refine Or.inr ⟨rfl, ?_⟩
      unfold procWait at hr
      rw [Comp.bind_get_run, hc] at hr
      dsimp only at hr
      rw [Comp.run_ite] at hr
      split at hr
      · rw [Comp.run_pure, Outcome.ok.injEq] at hr
        exact Or.inr hr.1.symm
      · rw [setProc, Comp.bind_modify_run, Comp.run_pure, Outcome.ok.injEq] at hr
        exact Or.inl hr.1.symm

variable {o : Fin NPROC → Option ℤ} {tr : List (Label × Kernel)}

/-- A zombie has the status of the last exit from its slot. -/
def Recorded (o : Fin NPROC → Option ℤ) (s : Kernel) : Prop :=
  ∀ c, (s.proc c).state = .zombie → o c = some (s.proc c).xstate

theorem exitStatus_cons (step : Label × Kernel) :
    exitStatus o (step :: tr) = exitStatus (exitStatus o [step]) tr := by
  obtain ⟨l, t⟩ := step
  cases l <;> rfl

theorem Change.recorded {q : ProcT} (h : Change s c l q) (hl : ∀ st, l ≠ .exit c st)
    (hq : q.state = .zombie) : (s.proc c).state = .zombie ∧ q.xstate = (s.proc c).xstate := by
  cases h with
  | kept same => exact ⟨same.zombie.mp hq, same.xstate⟩
  | born slot => cases hq
  | exited _ _ _ _ _ => exact absurd rfl (hl _)
  | reaped first => cases hq
  | hit first =>
    dsimp only at hq
    split at hq
    · cases hq
    · exact ⟨hq, rfl⟩

theorem Recorded.step (rec : Recorded o s) (own : Owned L s free kernel)
    (h : Step L kernel s l s') : Recorded (exitStatus o [(l, s')]) s' := by
  intro c hz
  have change := own.change h c
  by_cases hl : ∃ st, l = .exit c st
  · obtain ⟨st, rfl⟩ := hl
    cases h with
    | exit run hr =>
      obtain ⟨-, parent, rfl⟩ := procExit_run hr
      change Function.update o c (some st) c = some (exited s.proc c parent st c).xstate
      rw [exited, Function.update_self, Function.update_self]
  · obtain ⟨hz', same⟩ := change.recorded (fun st h => hl ⟨st, h⟩) hz
    rw [same, ← rec c hz']
    cases l with
    | exit i st =>
      have hi : c ≠ i := fun h => hl ⟨st, by rw [h]⟩
      exact Function.update_of_ne hi _ _
    | _ => rfl

theorem Recorded.run (rec : Recorded o s) (own : Owned L s free kernel)
    (h : Along (Step L kernel) s tr) : Recorded (exitStatus o tr) (final s tr) := by
  induction tr generalizing s o free with
  | nil => exact rec
  | cons step rest ih =>
    obtain ⟨_, moves⟩ := own.step h.1
    rw [exitStatus_cons]
    exact ih (rec.step own h.1) moves.owned h.2

/-- A pid that was drawn before and that no process in use has. -/
def Spent (pid : ℤ) (s : Kernel) : Prop :=
  pid < s.nextpid ∧ ∀ j, (s.proc j).pid = pid → (s.proc j).state = .unused

theorem Spent.step {pid : ℤ} (spent : Spent pid s) (own : Owned L s free kernel)
    (h : Step L kernel s l s') : Spent pid s' := by
  rcases own.pids h with ⟨next, still⟩ | ⟨c, slot, next, new, others⟩
  · refine ⟨?_, ?_⟩
    · rw [next]
      exact spent.1
    · intro j hj
      rw [(still j).1] at hj
      exact (still j).2 (spent.2 j hj)
  · have below := spent.1
    refine ⟨by omega, ?_⟩
    intro j hj
    by_cases hjc : j = c
    · rw [hjc, new] at hj
      omega
    · rw [others j hjc] at hj ⊢
      exact spent.2 j hj

theorem Spent.not_returned {pid : ℤ} {addr : ℕ} (spent : Spent pid s) (own : Owned L s free kernel)
    (hpid : pid ≠ -1) : ¬ Step L kernel s (.wait j addr (some pid)) s' := by
  intro h
  rcases own.wait_cases h with ⟨c, hc, heq, -⟩ | ⟨-, none | failed⟩
  · have unused := spent.2 c (Option.some.inj heq).symm
    rw [(firstZombie_spec hc).2] at unused
    cases unused
  · cases none
  · exact hpid (Option.some.inj failed)

/-- No later wait returns a spent pid. -/
theorem Spent.run {pid : ℤ} (spent : Spent pid s) (own : Owned L s free kernel) (hpid : pid ≠ -1)
    (h : Along (Step L kernel) s tr) (addr : ℕ) (u : Kernel) :
    (.wait j addr (some pid), u) ∉ tr := by
  induction tr generalizing s free with
  | nil => exact List.not_mem_nil
  | cons step rest ih =>
    obtain ⟨_, moves⟩ := own.step h.1
    rw [List.mem_cons, not_or]
    refine ⟨?_, ih (spent.step own h.1) moves.owned h.2⟩
    rintro rfl
    exact spent.not_returned own hpid h.1

/-- After a child has been reaped its pid is spent. -/
theorem PidsOk.spent (ok : PidsOk s) (hc : firstZombie s.proc i = some c)
    (proc : s'.proc = Function.update s.proc c (s.proc c).freed) (next : s'.nextpid = s.nextpid) :
    Spent (s.proc c).pid s' := by
  have zombie := (firstZombie_spec hc).2
  have notInit : c ≠ proczero := by
    rintro rfl
    exact ok.live (Or.inr zombie)
  have nonzero := ok.used c notInit (by rw [zombie]; simp)
  refine ⟨?_, ?_⟩
  · rw [next]
    exact ok.below c
  · intro j hj
    by_cases hjc : j = c
    · rw [hjc, proc, Function.update_self]
      rfl
    · rw [proc, Function.update_of_ne hjc] at hj
      exact absurd (ok.apart c j hj.symm nonzero).symm hjc

end History

section Delivery

variable {before after : List (Label × Kernel)} {addr : ℕ} {ret : Option ℤ}

theorem refused_fits (ok : PidsOk s) (own : Owned L s free kernel)
    (step : Step L kernel s (.wait i addr ret) s')
    (refused : addr ≠ 0 → ¬ Fits L s i addr → ∀ c, Child s i c →
      ret = some (-1) ∧ (s'.proc c).state = .zombie) : Storable L s (.wait i addr ret) s' := by
  rintro ⟨c, hc⟩ haddr
  by_contra nf
  have hret := (refused haddr nf c hc).1
  rcases own.wait_cases step with ⟨d, -, heq, -⟩ | ⟨hnone, -⟩
  · rw [hret] at heq
    have pid : -1 = (s.proc d).pid := Option.some.inj heq
    have := ok.nonneg d
    omega
  · exact firstZombie_none hnone c hc

theorem storable_delivered (ok : PidsOk s) (own : Owned L s free kernel)
    (rec : Recorded (exitStatus (fun _ => none) before) s)
    (step : Step L kernel s (.wait i addr ret) s') (rest : Along (Step L kernel) s' after)
    (storable : Storable L s (.wait i addr ret) s') :
    DeliveredAt L before s i addr ret s' after := by
  have refused : addr ≠ 0 → ¬ Fits L s i addr → ∀ c, Child s i c →
      ret = some (-1) ∧ (s'.proc c).state = .zombie :=
    fun haddr nf c hc => absurd (storable ⟨c, hc⟩ haddr) nf
  obtain ⟨free', moves⟩ := own.step step
  rcases own.wait_cases step with ⟨c, hc, heq, proc, next, stored⟩ | ⟨-, failed⟩
  · have child := firstZombie_child hc
    refine ⟨?_, ?_, refused⟩
    · rintro pid rfl -
      refine ⟨c, child, (Option.some.inj heq).symm, ?_⟩
      intro haddr
      obtain ⟨fits, bytes⟩ := stored haddr (storable ⟨c, child⟩ haddr)
      exact ⟨(s.proc c).xstate, rec c child.2, fits, bytes⟩
    · rintro pid rfl hpid j addr' u
      have spent := ok.spent hc proc next
      rw [← Option.some.inj heq] at spent
      exact spent.run moves.owned hpid rest addr' u
  · have never : ∀ pid, ret = some pid → pid ≠ -1 → False := by
      rintro pid rfl hpid
      rcases failed with none | minus
      · cases none
      · exact hpid (Option.some.inj minus)
    exact ⟨fun pid h hpid => (never pid h hpid).elim, fun pid h hpid => (never pid h hpid).elim,
      refused⟩

/-- The statuses are delivered in a run exactly when every wait that finds a zombie has an address
    at which the four bytes can be stored, or 0. -/
theorem delivered_iff {m : ℕ → Page} {taken : List Page} {code : ℕ → UInt8} {k : List ℕ}
    {s₀ : Kernel} {tr : List (Label × Kernel)}
    (hboot : (boot L taken code).run (powerOn m) = .ok k s₀) (hrun : Along (Step L k) s₀ tr) :
    Delivered L s₀ tr ↔ Along (Storable L) s₀ tr := by
  obtain ⟨free₀, own₀, -⟩ := boot_ok hboot
  obtain ⟨ok₀, others⟩ := boot_pidsOk hboot
  have rec₀ : Recorded (fun _ => none) s₀ := by
    intro c hz
    by_cases hc : c = proczero
    · rw [hc] at hz
      exact absurd (Or.inr hz) ok₀.live
    · rw [others c hc] at hz
      cases hz
  have reach : ∀ before l t after, tr = before ++ (l, t) :: after →
      (∃ free, Owned L (final s₀ before) free k) ∧ PidsOk (final s₀ before) ∧
        Recorded (exitStatus (fun _ => none) before) (final s₀ before) ∧
        Step L k (final s₀ before) l t ∧ Along (Step L k) t after := by
    rintro before l t after rfl
    obtain ⟨first, step, rest⟩ := Along.append.mp hrun
    have inv := first.invariant (I := fun s => (∃ free, Owned L s free k) ∧ PidsOk s)
      (fun s l t ⟨⟨free, own⟩, ok⟩ step =>
        ⟨⟨_, (own.step step).choose_spec.owned⟩, ok.step own step⟩) ⟨⟨free₀, own₀⟩, ok₀⟩
    exact ⟨inv.1, inv.2, rec₀.run own₀ first, step, rest⟩
  rw [Along.iff_split]
  constructor
  · intro h before l t after htr
    obtain ⟨⟨free, own⟩, ok, -, step, -⟩ := reach before l t after htr
    cases l with
    | wait i addr ret => exact refused_fits ok own step (h before i addr ret t after htr).refused
    | _ => trivial
  · intro h before i addr ret t after htr
    obtain ⟨⟨free, own⟩, ok, rec, step, rest⟩ := reach before _ t after htr
    exact storable_delivered ok own rec step rest (h before _ t after htr)

/-- A wait whose address has no page. -/
theorem lost_status_boot : ∃ kernel s₀ s₁ s₂ s₃,
    (boot exampleLayout [] fun _ => 0).run (powerOn fun _ => Bytes.zero) = .ok kernel s₀ ∧
      Along (Step exampleLayout kernel) s₀ [(.other proczero, s₀.dispatch proczero),
        (.fork proczero 2, s₁), (.other 1, s₁.dispatch 1), (.exit 1 7, s₂),
        (.other proczero, s₂.dispatch proczero), (.wait proczero MAXVA (some 2), s₃)] ∧
      (s₃.proc 1).state = .unused ∧
      ¬ Delivered exampleLayout s₀ [(.other proczero, s₀.dispatch proczero),
        (.fork proczero 2, s₁), (.other 1, s₁.dispatch 1), (.exit 1 7, s₂),
        (.other proczero, s₂.dispatch proczero), (.wait proczero MAXVA (some 2), s₃)] := by
  obtain ⟨kernel, s₀, s₁, s₂, s₃, hboot, run, first, unused, -, -⟩ :=
    reap_after_boot exampleLayout (fun _ => Bytes.zero) (fun _ => 0) 7 MAXVA (by decide)
  refine ⟨kernel, s₀, s₁, s₂, s₃, hboot, run, unused, ?_⟩
  intro delivered
  have last := delivered [(.other proczero, s₀.dispatch proczero), (.fork proczero 2, s₁),
    (.other 1, s₁.dispatch 1), (.exit 1 7, s₂), (.other proczero, s₂.dispatch proczero)]
    proczero MAXVA (some 2) s₃ [] rfl
  have nf : ¬ Fits exampleLayout (s₂.dispatch proczero) proczero MAXVA := by
    intro fits
    exact fits 0 (by decide) (if_pos (Nat.le_refl _))
  have bad := (last.refused (by decide) nf 1 (firstZombie_child first)).1
  cases bad

theorem delivered_iff_reaped : ∃ kernel s₀ s₁ s₂ s₃,
    (boot exampleLayout [] fun _ => 0).run (powerOn fun _ => Bytes.zero) = .ok kernel s₀ ∧
      (Delivered exampleLayout s₀ [(.other proczero, s₀.dispatch proczero), (.fork proczero 2, s₁),
          (.other 1, s₁.dispatch 1), (.exit 1 7, s₂), (.other proczero, s₂.dispatch proczero),
          (.wait proczero 0 (some 2), s₃)] ↔
        Along (Storable exampleLayout) s₀ [(.other proczero, s₀.dispatch proczero),
          (.fork proczero 2, s₁), (.other 1, s₁.dispatch 1), (.exit 1 7, s₂),
          (.other proczero, s₂.dispatch proczero), (.wait proczero 0 (some 2), s₃)]) := by
  obtain ⟨kernel, s₀, s₁, s₂, s₃, hboot, run, -⟩ :=
    reap_after_boot exampleLayout (fun _ => Bytes.zero) (fun _ => 0) 7 0 (by decide)
  exact ⟨kernel, s₀, s₁, s₂, s₃, hboot, delivered_iff hboot run⟩

end Delivery

end EasyXv6.Proc
