import EasyXv6.Proc.Machine

set_option autoImplicit false

/-!
# When fork publishes a complete child

`proc_fork` gives up `np->lk` while the child is RUNNABLE and has no parent yet, and at its end
sets the child RUNNABLE once more. What goes wrong does so in these two windows.
-/
namespace EasyXv6.Proc
namespace Machine

/-- The state changes that the comment in `proc.h` lists. -/
def Listed : ProcState → ProcState → Prop
  | .unused, .runnable => True
  | .runnable, .running => True
  | .running, .runnable => True
  | .running, .sleeping => True
  | .sleeping, .runnable => True
  | .running, .zombie => True
  | .runnable, .zombie => True
  | .zombie, .unused => True
  | _, _ => False

/-- Every state change of a step is a listed one, and a process other than `proczero` that it
    dispatches has a parent and the priority due to it. -/
structure StepSafe (s s' : Machine) : Prop where
  listed : ∀ i, (s'.proc i).state = (s.proc i).state ∨
    Listed (s.proc i).state (s'.proc i).state
  dispatched : ∀ i, s'.cpu = .run i → s.cpu ≠ .run i → i ≠ proczero →
    (s'.proc i).parent ≠ none ∧ (s'.proc i).priority = s'.due i

/-- The scheduler does not pick a child that its parent has yet to link, and no child is a zombie
    when its parent sets it RUNNABLE at the end of `proc_fork`. -/
def OutsideWindows (s : Machine) : Act → Prop
  | .scan => ∀ k c i, s.cpu = .scan k c → ¬ k < NPROC → c.chosen = some i →
      ∀ q pid, s.loc q ≠ .link i pid
  | .publish => ∀ i np pid, s.cpu = .run i → s.loc i = .publish np pid →
      (s.proc np).state ≠ .zombie
  | _ => True

/-- Every step of a run is safe. -/
def Safe : Machine → List Act → Prop
  | _, [] => True
  | s, a :: as => ∀ t, s.step a = some t → StepSafe s t ∧ Safe t as

/-- Every step of a run keeps out of the windows. -/
def KeepsOut : Machine → List Act → Prop
  | _, [] => True
  | s, a :: as => ∀ t, s.step a = some t → OutsideWindows s a ∧ KeepsOut t as

/-- Where a process in some state can be. -/
def LocOk : ProcState → Loc → Prop
  | .unused, l => l = .other ∨ l = .dead
  | .runnable, l => l ≠ .dead
  | .running, l => l ≠ .dead ∧ l ≠ .asleep
  | .sleeping, l => l = .asleep
  | .zombie, l => l = .dead

structure Good (s : Machine) : Prop where
  running : ∀ i, (s.proc i).state = .running ↔ s.cpu = .run i
  chosen : ∀ k c j, s.cpu = .scan k c → c.chosen = some j → (s.proc j).state = .runnable
  zero : (s.proc proczero).state ≠ .unused ∧ (s.proc proczero).state ≠ .zombie
  orphan : ∀ i, (s.proc i).state = .unused → (s.proc i).parent = none
  locOk : ∀ i, LocOk (s.proc i).state (s.loc i)
  link : ∀ q np pid, s.loc q = .link np pid → np ≠ proczero ∧ (s.proc np).state = .runnable ∧
    (s.proc np).parent = none ∧ s.loc np = .other ∧ s.due np = (s.proc q).priority
  one : ∀ q q' np pid pid', s.loc q = .link np pid → s.loc q' = .link np pid' → q = q'
  publish : ∀ q np pid, s.loc q = .publish np pid →
    np ≠ q ∧ (s.proc np).parent = some q ∧ (s.proc np).state ≠ .unused
  complete : ∀ i, i ≠ proczero → (s.proc i).state ≠ .unused →
    (∃ q pid, s.loc q = .link i pid) ∨
      ((s.proc i).parent ≠ none ∧ (s.proc i).priority = s.due i)

section Invariant

variable {s s' : Machine} {i j : Fin NPROC}

theorem init_good : Good init := by
  have proc : ∀ i, i ≠ proczero → (init.proc i).state = .unused ∧ (init.proc i).parent = none := by
    intro i hi
    simp [init, Function.update_of_ne hi, procInit, ProcT.zero]
  have zero : (init.proc proczero).state = .runnable := by simp [init]
  refine ⟨?_, ?_, ?_, ?_, ?_, ?_, ?_, ?_, ?_⟩
  · intro i
    by_cases hi : i = proczero
    · subst hi
      simp [zero]
      simp [init]
    · simp [proc i hi]
      simp [init]
  · intro k c j hk hc
    cases hk
    cases hc
  · simp [zero]
  · intro i hu
    by_cases hi : i = proczero
    · subst hi
      rw [zero] at hu
      cases hu
    · exact (proc i hi).2
  · intro i
    by_cases hi : i = proczero
    · subst hi
      rw [zero]
      simp [LocOk, init]
    · rw [(proc i hi).1]
      exact Or.inl rfl
  · intro q np pid h
    cases h
  · intro q q' np pid pid' h
    cases h
  · intro q np pid h
    cases h
  · intro i hi hu
    exact absurd (proc i hi).1 hu

theorem Good.onCpu (h : Good s) (hc : s.cpu = .run i) :
    (s.proc i).state = .running ∧ s.loc i ≠ .dead ∧ s.loc i ≠ .asleep := by
  have hr := (h.running i).mpr hc
  have hl := h.locOk i
  rw [hr] at hl
  exact ⟨hr, hl⟩

/-- A process in the middle of `proc_fork` does not link or publish the process on the CPU. -/
theorem Good.child_ne (h : Good s) (hc : s.cpu = .run i) {q np : Fin NPROC} {pid : ℤ}
    (hq : s.loc q = .link np pid) : np ≠ i := by
  rintro rfl
  have := (h.link q np pid hq).2.1
  rw [(h.onCpu hc).1] at this
  cases this

/-- Steps that change no parent, no priority, no slot in use and no window of a fork. -/
theorem Good.frame (h : Good s)
    (running : ∀ i, (s'.proc i).state = .running ↔ s'.cpu = .run i)
    (chosen : ∀ k c j, s'.cpu = .scan k c → c.chosen = some j → (s'.proc j).state = .runnable)
    (locOk : ∀ i, LocOk (s'.proc i).state (s'.loc i))
    (data : ∀ i, (s'.proc i).parent = (s.proc i).parent ∧
      (s'.proc i).priority = (s.proc i).priority ∧ s'.due i = s.due i)
    (unused : ∀ i, (s'.proc i).state = .unused ↔ (s.proc i).state = .unused)
    (zero : (s'.proc proczero).state ≠ .zombie)
    (link : ∀ q np pid, s'.loc q = .link np pid ↔ s.loc q = .link np pid)
    (publish : ∀ q np pid, s'.loc q = .publish np pid → s.loc q = .publish np pid)
    (window : ∀ q np pid, s.loc q = .link np pid →
      (s'.proc np).state = .runnable ∧ s'.loc np = .other) : Good s' where
  running := running
  chosen := chosen
  zero := ⟨fun hu => h.zero.1 ((unused _).mp hu), zero⟩
  orphan := fun i hu => (data i).1.trans (h.orphan i ((unused i).mp hu))
  locOk := locOk
  link := by
    intro q np pid hq
    have hq := (link q np pid).mp hq
    obtain ⟨h0, _, hp, _, hd⟩ := h.link q np pid hq
    obtain ⟨hs, hl⟩ := window q np pid hq
    exact ⟨h0, hs, (data np).1.trans hp, hl, by rw [(data np).2.2, (data q).2.1, hd]⟩
  one := fun q q' np pid pid' h1 h2 =>
    h.one q q' np pid pid' ((link _ _ _).mp h1) ((link _ _ _).mp h2)
  publish := by
    intro q np pid hq
    obtain ⟨hne, hp, hu⟩ := h.publish q np pid (publish q np pid hq)
    exact ⟨hne, (data np).1.trans hp, fun e => hu ((unused np).mp e)⟩
  complete := by
    intro i hi hu
    rcases h.complete i hi (fun e => hu ((unused i).mpr e)) with ⟨q, pid, hq⟩ | ⟨hp, hd⟩
    · exact Or.inl ⟨q, pid, (link q i pid).mpr hq⟩
    · exact Or.inr ⟨by rw [(data i).1]; exact hp, by rw [(data i).2.1, (data i).2.2, hd]⟩

/-- Steps that change one process, and not its parent or its priority. -/
theorem Good.frame_one (h : Good s) (j : Fin NPROC) (p : ProcT)
    (proc : s'.proc = Function.update s.proc j p) (due : s'.due = s.due)
    (parent : p.parent = (s.proc j).parent) (priority : p.priority = (s.proc j).priority)
    (running : ∀ i, (s'.proc i).state = .running ↔ s'.cpu = .run i)
    (chosen : ∀ k c j, s'.cpu = .scan k c → c.chosen = some j → (s'.proc j).state = .runnable)
    (unused : p.state = .unused ↔ (s.proc j).state = .unused)
    (zero : j = proczero → p.state ≠ .zombie)
    (loc : ∀ k, k ≠ j → s'.loc k = s.loc k) (locOk : LocOk p.state (s'.loc j))
    (link : ∀ np pid, s'.loc j = .link np pid ↔ s.loc j = .link np pid)
    (publish : ∀ np pid, s'.loc j = .publish np pid → s.loc j = .publish np pid)
    (window : ∀ q pid, s.loc q = .link j pid → p.state = .runnable ∧ s'.loc j = .other) :
    Good s' := by
  have self : s'.proc j = p := by rw [proc, Function.update_self]
  have rest : ∀ k, k ≠ j → s'.proc k = s.proc k := by
    intro k hk
    rw [proc, Function.update_of_ne hk]
  refine h.frame running chosen ?_ ?_ ?_ ?_ ?_ ?_ ?_
  · intro k
    by_cases hk : k = j
    · subst hk
      rwa [self]
    · rw [rest k hk, loc k hk]
      exact h.locOk k
  · intro k
    by_cases hk : k = j
    · subst hk
      exact ⟨by rw [self, parent], by rw [self, priority], by rw [due]⟩
    · rw [rest k hk, due]
      exact ⟨rfl, rfl, rfl⟩
  · intro k
    by_cases hk : k = j
    · subst hk
      rwa [self]
    · rw [rest k hk]
  · by_cases hk : proczero = j
    · rw [hk, self]
      exact zero hk.symm
    · rw [rest _ hk]
      exact h.zero.2
  · intro q np pid
    by_cases hq : q = j
    · subst hq
      exact link np pid
    · rw [loc q hq]
  · intro q np pid
    by_cases hq : q = j
    · subst hq
      exact publish np pid
    · rw [loc q hq]
      exact id
  · intro q np pid hq
    by_cases hn : np = j
    · subst hn
      rw [self]
      exact window q pid hq
    · rw [rest np hn, loc np hn]
      exact ⟨(h.link q np pid hq).2.1, (h.link q np pid hq).2.2.2.1⟩

/-- A step that dispatches nobody and changes the state of one process at most. -/
theorem StepSafe.of_one (j : Fin NPROC) (rest : ∀ k, k ≠ j → (s'.proc k).state = (s.proc k).state)
    (self : (s'.proc j).state = (s.proc j).state ∨ Listed (s.proc j).state (s'.proc j).state)
    (cpu : ∀ i, s'.cpu = .run i → s.cpu = .run i) : StepSafe s s' := by
  refine ⟨?_, fun i h1 h2 => absurd (cpu i h1) h2⟩
  intro k
  by_cases hk : k = j
  · exact hk ▸ self
  · exact Or.inl (rest k hk)

/-- Steps of the scheduler that touch no process. -/
theorem Good.frame_cpu (h : Good s) (cpu : Cpu) (old : ∀ i, s.cpu ≠ .run i)
    (new : ∀ i, cpu ≠ .run i)
    (chosen : ∀ k c j, cpu = .scan k c → c.chosen = some j → (s.proc j).state = .runnable) :
    Good { s with cpu := cpu } := by
  refine h.frame_one proczero (s.proc proczero) (by simp) rfl rfl rfl ?_ chosen Iff.rfl
    (fun _ => h.zero.2) (fun _ _ => rfl) (h.locOk _) (fun _ _ => Iff.rfl) (fun _ _ => id) ?_
  · intro i
    rw [h.running i]
    exact iff_of_false (old i) (new i)
  · intro q pid hq
    exact absurd rfl (h.link q _ pid hq).1

theorem consider_runnable {t : Table} {c : Choice} (i : Fin NPROC)
    (h : ∀ j, c.chosen = some j → (t j).state = .runnable) (hj : (consider t c i).chosen = some j) :
    (t j).state = .runnable := by
  unfold consider at hj
  split at hj
  · exact h j hj
  next hr =>
  simp only [ne_eq, Decidable.not_not] at hr
  dsimp only at hj
  split at hj
  · cases hj
    exact hr
  · split at hj
    · cases hj
      exact hr
    · exact h j hj

theorem Good.dispatchTo (h : Good s) {k : ℕ} {c : Choice} (hc : s.cpu = .scan k c)
    (hi : c.chosen = some i) :
    (StepSafe s (s.dispatchTo i) ↔ ∀ q pid, s.loc q ≠ .link i pid) ∧
      ((∀ q pid, s.loc q ≠ .link i pid) → Good (s.dispatchTo i)) := by
  have hr := h.chosen k c i hc hi
  have hl := h.locOk i
  rw [hr] at hl
  have cpu : (s.dispatchTo i).cpu = .run i := by
    unfold Machine.dispatchTo
    dsimp only
    split <;> rfl
  have due : (s.dispatchTo i).due = s.due := by
    unfold Machine.dispatchTo
    dsimp only
    split <;> rfl
  obtain ⟨p, proc, hst, hpar, hpri⟩ : ∃ p, (s.dispatchTo i).proc = Function.update s.proc i p ∧
      p.state = .running ∧ p.parent = (s.proc i).parent ∧ p.priority = (s.proc i).priority := by
    unfold Machine.dispatchTo
    dsimp only
    split
    · refine ⟨{ s.proc i with state := .running, priorityBoost := 0, sleepSpace := none },
        ?_, rfl, rfl, rfl⟩
      simp [setProc, setLoc, dispatch]
    · exact ⟨_, rfl, rfl, rfl, rfl⟩
  have loc : ∀ q, q ≠ i → (s.dispatchTo i).loc q = s.loc q := by
    intro q hq
    unfold Machine.dispatchTo
    dsimp only
    split
    · exact setLoc_loc_of_ne _ hq _
    · rfl
  have loci : (s.loc i = .asleep ∧ (s.dispatchTo i).loc i = .other) ∨
      (s.loc i ≠ .asleep ∧ (s.dispatchTo i).loc i = s.loc i) := by
    unfold Machine.dispatchTo
    dsimp only
    split
    next ha => exact Or.inl ⟨ha, setLoc_loc_self ..⟩
    next ha => exact Or.inr ⟨ha, rfl⟩
  have self : (s.dispatchTo i).proc i = p := by rw [proc, Function.update_self]
  have rest : ∀ q, q ≠ i → (s.dispatchTo i).proc q = s.proc q := by
    intro q hq
    rw [proc, Function.update_of_ne hq]
  refine ⟨⟨?_, ?_⟩, ?_⟩
  · intro safe q pid hq
    obtain ⟨h0, _, hp, _⟩ := h.link q i pid hq
    have := (safe.dispatched i cpu (by rw [hc]; simp) h0).1
    rw [self, hpar] at this
    exact this hp
  · intro out
    refine ⟨?_, ?_⟩
    · intro q
      by_cases hq : q = i
      · subst hq
        rw [self, hst, hr]
        exact Or.inr trivial
      · exact Or.inl (by rw [rest q hq])
    · intro j hj _ h0
      rw [cpu] at hj
      cases hj
      rw [self, hpar, hpri, due]
      rcases h.complete i h0 (by rw [hr]; simp) with ⟨q, pid, hq⟩ | hd
      · exact absurd hq (out q pid)
      · exact hd
  · intro out
    refine h.frame_one i p proc due hpar hpri ?_ ?_ ?_ (fun _ => by rw [hst]; simp) loc ?_ ?_ ?_ ?_
    · intro q
      rw [cpu]
      by_cases hq : q = i
      · subst hq
        rw [self, hst]
        simp
      · rw [rest q hq, h.running q, hc]
        simp [Ne.symm hq]
    · intro k' c' j hc'
      rw [cpu] at hc'
      cases hc'
    · rw [hst, hr]
      simp
    · rw [hst]
      rcases loci with ⟨_, e⟩ | ⟨ha, e⟩
      · rw [e]
        simp [LocOk]
      · rw [e]
        exact ⟨hl, ha⟩
    · intro np pid
      rcases loci with ⟨ha, e⟩ | ⟨_, e⟩ <;> simp [*]
    · intro np pid
      rcases loci with ⟨ha, e⟩ | ⟨_, e⟩ <;> simp [*]
    · intro q pid hq
      exact absurd hq (out q pid)

theorem Good.scanStep (h : Good s) (hs : s.scanStep = some s') :
    (StepSafe s s' ↔ OutsideWindows s .scan) ∧ (OutsideWindows s .scan → Good s') := by
  unfold Machine.scanStep at hs
  split at hs
  next k c hc =>
    have free : ∀ i, s.cpu ≠ .run i := by
      rw [hc]
      simp
    split at hs
    next hk =>
      cases hs
      have out : OutsideWindows s .scan := by
        intro k' c' i hc' hk'
        rw [hc] at hc'
        cases hc'
        exact absurd hk hk'
      refine ⟨iff_of_true (.of_one proczero (fun _ _ => rfl) (Or.inl rfl) (by simp)) out,
        fun _ => h.frame_cpu _ free (by simp) ?_⟩
      intro k' c' j hc' hj
      cases hc'
      exact consider_runnable _ (fun j hj => h.chosen k c j hc hj) hj
    next hk =>
      split at hs
      next hn =>
        cases hs
        have out : OutsideWindows s .scan := by
          intro k' c' i hc' _ hi
          rw [hc] at hc'
          cases hc'
          rw [hn] at hi
          cases hi
        refine ⟨iff_of_true (.of_one proczero (fun _ _ => rfl) (Or.inl rfl) (by simp)) out,
          fun _ => h.frame_cpu _ free (by simp) ?_⟩
        intro k' c' j hc' hj
        cases hc'
        cases hj
      next i hi =>
        cases hs
        have out : OutsideWindows s .scan ↔ ∀ q pid, s.loc q ≠ .link i pid := by
          constructor
          · intro ho
            exact ho k c i hc hk hi
          · intro ho k' c' i' hc' _ hi'
            rw [hc] at hc'
            cases hc'
            rw [hi] at hi'
            cases hi'
            exact ho
        rw [out]
        exact h.dispatchTo hc hi
  · cases hs

theorem boostOne_fields (l k : Fin NPROC) (p : ProcT) : (boostOne l k p).state = p.state ∧
    (boostOne l k p).parent = p.parent ∧ (boostOne l k p).priority = p.priority := by
  unfold boostOne
  split
  · exact ⟨rfl, rfl, rfl⟩
  split
  · exact ⟨rfl, rfl, rfl⟩
  dsimp only
  split <;> exact ⟨rfl, rfl, rfl⟩

theorem Good.ageStep (h : Good s) (hs : s.ageStep = some s') : StepSafe s s' ∧ Good s' := by
  unfold Machine.ageStep at hs
  split at hs
  next k l hc =>
    have free : ∀ i, s.cpu ≠ .run i := by
      rw [hc]
      simp
    split at hs
    next hk =>
      cases hs
      obtain ⟨hst, hpar, hpri⟩ := boostOne_fields l ⟨k, hk⟩ (s.proc ⟨k, hk⟩)
      have state : ∀ q, (Function.update s.proc ⟨k, hk⟩
          (boostOne l ⟨k, hk⟩ (s.proc ⟨k, hk⟩)) q).state = (s.proc q).state := by
        intro q
        by_cases hq : q = ⟨k, hk⟩
        · subst hq
          rw [Function.update_self, hst]
        · rw [Function.update_of_ne hq]
      refine ⟨.of_one ⟨k, hk⟩ (fun q _ => state q) (Or.inl (state _)) (by simp), ?_⟩
      refine h.frame_one ⟨k, hk⟩ _ rfl rfl hpar hpri ?_ (by simp) (by rw [hst])
        (fun e => by rw [hst, e]; exact h.zero.2) (fun _ _ => rfl) (by rw [hst]; exact h.locOk _)
        (fun _ _ => Iff.rfl) (fun _ _ => id) ?_
      · intro q
        change (Function.update s.proc _ _ q).state = _ ↔ _
        rw [state q, h.running q]
        exact iff_of_false (free q) (by simp)
      · intro q pid hq
        obtain ⟨_, hr, _, hl, _⟩ := h.link q _ pid hq
        exact ⟨hst.trans hr, hl⟩
    next hk =>
      cases hs
      exact ⟨.of_one proczero (fun _ _ => rfl) (Or.inl rfl) (by simp),
        h.frame_cpu _ free (by simp) (fun k c j hc hj => by cases hc; cases hj)⟩
  · cases hs

/-- A sleeping process that wakes up, for `proc_wakeup`, `proc_wakeup_one` and `proc_kill`. -/
theorem Good.wake (h : Good s) (hj : (s.proc j).state = .sleeping) (killed : Bool) :
    Good (s.setProc j { s.proc j with killed := killed, state := .runnable }) := by
  have hl := h.locOk j
  rw [hj] at hl
  refine h.frame_one j _ rfl rfl rfl rfl ?_ ?_ (by simp [hj]) (by simp) (fun _ _ => rfl) ?_
    (fun _ _ => Iff.rfl) (fun _ _ => id) ?_
  · intro q
    by_cases hq : q = j
    · subst hq
      rw [setProc_proc_self, setProc_cpu, ← h.running q, hj]
      simp
    · rw [setProc_proc_of_ne _ hq]
      exact h.running q
  · intro k c q hc hq
    by_cases hqj : q = j
    · rw [hqj, setProc_proc_self]
    · rw [setProc_proc_of_ne _ hqj]
      exact h.chosen k c q hc hq
  · change LocOk .runnable (s.loc j)
    rw [hl]
    simp [LocOk]
  · intro q pid hq
    have := (h.link q j pid hq).2.1
    rw [hj] at this
    cases this

theorem Good.wakeupStep (h : Good s) (space : Chan) :
    StepSafe s (s.wakeupStep j space) ∧ Good (s.wakeupStep j space) := by
  unfold Machine.wakeupStep
  split
  next hj =>
    refine ⟨.of_one j (fun q hq => by rw [setProc_proc_of_ne _ hq]) ?_ (fun _ => id),
      h.wake hj.1 _⟩
    rw [setProc_proc_self, hj.1]
    exact Or.inr trivial
  · exact ⟨.of_one j (fun _ _ => rfl) (Or.inl rfl) (fun _ => id), h⟩

theorem Good.killStep (h : Good s) : StepSafe s (s.killStep j) ∧ Good (s.killStep j) := by
  unfold Machine.killStep
  by_cases hj : (s.proc j).state = .sleeping
  · rw [if_pos hj]
    refine ⟨.of_one j (fun q hq => by rw [setProc_proc_of_ne _ hq]) ?_ (fun _ => id),
      h.wake hj _⟩
    rw [setProc_proc_self, hj]
    exact Or.inr trivial
  · rw [if_neg hj]
    have state : ∀ q, ((s.setProc j { s.proc j with killed := true }).proc q).state =
        (s.proc q).state := by
      intro q
      by_cases hq : q = j
      · rw [hq, setProc_proc_self]
      · rw [setProc_proc_of_ne _ hq]
    refine ⟨.of_one j (fun q _ => state q) (Or.inl (state j)) (fun _ => id), ?_⟩
    refine h.frame_one j _ rfl rfl rfl rfl ?_ ?_ Iff.rfl ?_ (fun _ _ => rfl) (h.locOk j)
      (fun _ _ => Iff.rfl) (fun _ _ => id) ?_
    · intro q
      rw [state q]
      exact h.running q
    · intro k c q hc hq
      rw [state q]
      exact h.chosen k c q hc hq
    · rintro rfl
      exact h.zero.2
    · intro q pid hq
      exact ⟨(h.link q j pid hq).2.1, (h.link q j pid hq).2.2.2.1⟩

/-- The process on the CPU gives it up. -/
theorem Good.leave (h : Good s) (hc : s.cpu = .run i) (p : ProcT) (l : Loc)
    (parent : p.parent = (s.proc i).parent) (priority : p.priority = (s.proc i).priority)
    (hp : (p.state = .runnable ∧ l = s.loc i) ∨ (p.state = .sleeping ∧ l = .asleep ∧
      s.loc i = .other)) :
    StepSafe s (((s.setProc i p).setLoc i l).switchOut i) ∧
      Good (((s.setProc i p).setLoc i l).switchOut i) := by
  obtain ⟨hr, hd, _⟩ := h.onCpu hc
  have other : ∀ q, q ≠ i → (s.proc q).state ≠ .running := by
    intro q hq e
    have := (h.running q).mp e
    rw [hc] at this
    cases this
    exact hq rfl
  have notRun : p.state ≠ .running := by
    rcases hp with ⟨e, _⟩ | ⟨e, _⟩ <;> simp [e]
  refine ⟨.of_one i (fun q hq => ?_) ?_ (by simp), ?_⟩
  · simp [setProc_proc_of_ne _ hq]
  · simp only [switchOut_proc, setLoc_proc, setProc_proc_self]
    rcases hp with ⟨e, _⟩ | ⟨e, _⟩ <;> rw [e, hr] <;> exact Or.inr trivial
  refine h.frame_one i p rfl rfl parent priority ?_ (by simp) ?_ ?_
    (fun q hq => setLoc_loc_of_ne _ hq _) ?_ ?_ ?_ ?_
  · intro q
    apply iff_of_false _ (by simp)
    by_cases hq : q = i
    · simpa [hq] using notRun
    · simpa [setProc_proc_of_ne _ hq] using other q hq
  · rw [hr]
    rcases hp with ⟨e, _⟩ | ⟨e, _⟩ <;> simp [e]
  · intro _
    rcases hp with ⟨e, _⟩ | ⟨e, _⟩ <;> simp [e]
  · simp only [switchOut_loc, setLoc_loc_self]
    rcases hp with ⟨e, e'⟩ | ⟨e, e', _⟩ <;> rw [e, e']
    · exact hd
    · rfl
  · intro np pid
    simp only [switchOut_loc, setLoc_loc_self]
    rcases hp with ⟨_, e⟩ | ⟨_, e, e'⟩ <;> simp [*]
  · intro np pid
    simp only [switchOut_loc, setLoc_loc_self]
    rcases hp with ⟨_, e⟩ | ⟨_, e, e'⟩ <;> simp [*]
  · intro q pid hq
    exact absurd rfl (h.child_ne hc hq)

theorem setLoc_self (s : Machine) (i : Fin NPROC) : s.setLoc i (s.loc i) = s := by
  unfold setLoc
  rw [Function.update_eq_self]

theorem Good.yieldStep (h : Good s) (hc : s.cpu = .run i) :
    StepSafe s (s.yieldStep i) ∧ Good (s.yieldStep i) := by
  have := h.leave hc { s.proc i with state := .runnable } (s.loc i) rfl rfl (Or.inl ⟨rfl, rfl⟩)
  have same : (s.setProc i { s.proc i with state := .runnable }).setLoc i (s.loc i) =
      s.setProc i { s.proc i with state := .runnable } :=
    setLoc_self (s.setProc i { s.proc i with state := .runnable }) i
  rwa [same] at this

theorem Good.sleepStep (h : Good s) (hc : s.cpu = .run i) (hl : s.loc i = .other) (space : Chan) :
    StepSafe s (s.sleepStep i space) ∧ Good (s.sleepStep i space) :=
  h.leave hc _ _ rfl rfl (Or.inr ⟨rfl, rfl, hl⟩)

/-- The process on the CPU moves on, outside the windows of a fork. -/
theorem Good.move (h : Good s) (hc : s.cpu = .run i) (l : Loc)
    (old : (∀ np pid, s.loc i ≠ .link np pid)) (new : l = .other ∨ ∃ k, l = .alloc k) :
    StepSafe s (s.setLoc i l) ∧ Good (s.setLoc i l) := by
  obtain ⟨hr, _⟩ := h.onCpu hc
  refine ⟨.of_one i (fun _ _ => rfl) (Or.inl rfl) (fun _ => id), ?_⟩
  refine h.frame_one i (s.proc i) (by simp) rfl rfl rfl h.running h.chosen Iff.rfl
    (fun _ => by simp [hr]) (fun q hq => setLoc_loc_of_ne _ hq _) ?_ ?_ ?_ ?_
  · rw [setLoc_loc_self, hr]
    rcases new with rfl | ⟨k, rfl⟩ <;> simp [LocOk]
  · intro np pid
    rw [setLoc_loc_self]
    apply iff_of_false _ (old np pid)
    rcases new with rfl | ⟨k, rfl⟩ <;> simp
  · intro np pid
    rw [setLoc_loc_self]
    rcases new with rfl | ⟨k, rfl⟩ <;> simp
  · intro q pid hq
    exact absurd rfl (h.child_ne hc hq)

theorem Good.setPriorityStep (h : Good s) (hc : s.cpu = .run i) (hl : s.loc i = .other)
    (priority : ℤ) :
    StepSafe s (s.setPriorityStep i priority) ∧ Good (s.setPriorityStep i priority) := by
  unfold Machine.setPriorityStep
  split
  · exact ⟨.of_one i (fun _ _ => rfl) (Or.inl rfl) (fun _ => id), h⟩
  let s1 : Machine := { s.setProc i { s.proc i with priority := priority, priorityBoost := 0 } with
    due := Function.update s.due i priority }
  have rest : ∀ q, q ≠ i → s1.proc q = s.proc q ∧ s1.due q = s.due q := fun q hq =>
    ⟨Function.update_of_ne hq .., Function.update_of_ne hq ..⟩
  have self : s1.proc i = { s.proc i with priority := priority, priorityBoost := 0 } ∧
      s1.due i = priority := ⟨Function.update_self .., Function.update_self ..⟩
  have same : ∀ q, (s1.proc q).state = (s.proc q).state ∧
      (s1.proc q).parent = (s.proc q).parent := by
    intro q
    by_cases hq : q = i
    · rw [hq, self.1]
      exact ⟨rfl, rfl⟩
    · rw [(rest q hq).1]
      exact ⟨rfl, rfl⟩
  refine ⟨.of_one i (fun q _ => (same q).1) (Or.inl (same i).1) (fun _ => id), ?_⟩
  change Good s1
  refine ⟨?_, ?_, ?_, ?_, ?_, ?_, h.one, ?_, ?_⟩
  · intro q
    rw [(same q).1]
    exact h.running q
  · intro k c q hk hq
    rw [(same q).1]
    exact h.chosen k c q hk hq
  · rw [(same _).1]
    exact h.zero
  · intro q hq
    rw [(same q).1] at hq
    rw [(same q).2]
    exact h.orphan q hq
  · intro q
    rw [(same q).1]
    exact h.locOk q
  · intro q np pid hq
    obtain ⟨h0, hs, hp, hlo, hd⟩ := h.link q np pid hq
    have hqi : q ≠ i := by
      rintro rfl
      cases hl.symm.trans hq
    rw [(same np).1, (same np).2, (rest np (h.child_ne hc hq)).2, (rest q hqi).1]
    exact ⟨h0, hs, hp, hlo, hd⟩
  · intro q np pid hq
    rw [(same np).1, (same np).2]
    exact h.publish q np pid hq
  · intro q h0 hu
    rw [(same q).1] at hu
    rcases h.complete q h0 hu with hlink | ⟨hp, hd⟩
    · exact Or.inl hlink
    · rw [(same q).2]
      by_cases hq : q = i
      · subst hq
        exact Or.inr ⟨hp, by rw [self.1, self.2]⟩
      · rw [(rest q hq).1, (rest q hq).2]
        exact Or.inr ⟨hp, hd⟩

/-- What `proc_reparent` and `proc_wakeup_one` may change in the exit of `i`. -/
def Adopted (i : Fin NPROC) (t t' : Table) : Prop :=
  ∀ j, (t' j).priority = (t j).priority ∧
    ((t' j).state = (t j).state ∨ ((t j).state = .sleeping ∧ (t' j).state = .runnable)) ∧
    ((t' j).parent = (t j).parent ∨ ((t j).parent = some i ∧ (t' j).parent = some proczero))

theorem Adopted.refl (i : Fin NPROC) (t : Table) : Adopted i t t :=
  fun _ => ⟨rfl, Or.inl rfl, Or.inl rfl⟩

theorem Adopted.trans {t t' t'' : Table} (h : Adopted i t t') (h' : Adopted i t' t'') :
    Adopted i t t'' := by
  intro j
  obtain ⟨p1, s1, q1⟩ := h j
  obtain ⟨p2, s2, q2⟩ := h' j
  refine ⟨p2.trans p1, ?_, ?_⟩
  · rcases s1 with s1 | ⟨s1, e1⟩ <;> rcases s2 with s2 | ⟨s2, e2⟩
    · exact Or.inl (s2.trans s1)
    · exact Or.inr ⟨s1 ▸ s2, e2⟩
    · exact Or.inr ⟨s1, s2.trans e1⟩
    · rw [e1] at s2
      cases s2
  · rcases q1 with q1 | ⟨q1, e1⟩ <;> rcases q2 with q2 | ⟨q2, e2⟩
    · exact Or.inl (q2.trans q1)
    · exact Or.inr ⟨q1 ▸ q2, e2⟩
    · exact Or.inr ⟨q1, q2.trans e1⟩
    · exact Or.inr ⟨q1, e2⟩

theorem wakeupOne_adopted (i : Fin NPROC) (t : Table) (p : Fin NPROC) :
    Adopted i t (wakeupOne t p) := by
  intro j
  unfold wakeupOne
  split
  next hs =>
    by_cases hj : j = p
    · subst hj
      rw [Function.update_self]
      exact ⟨rfl, Or.inr ⟨hs.1, rfl⟩, Or.inl rfl⟩
    · rw [Function.update_of_ne hj]
      exact ⟨rfl, Or.inl rfl, Or.inl rfl⟩
  · exact ⟨rfl, Or.inl rfl, Or.inl rfl⟩

theorem reparent_adopted (i : Fin NPROC) (t : Table) : Adopted i t (reparent t i) := by
  unfold reparent
  generalize List.finRange NPROC = slots
  induction slots generalizing t with
  | nil => exact .refl i t
  | cons pp slots ih =>
    refine Adopted.trans ?_ (ih _)
    unfold reparentOne
    split
    next hp =>
      refine Adopted.trans ?_ (wakeupOne_adopted i _ _)
      intro j
      by_cases hj : j = pp
      · subst hj
        rw [Function.update_self]
        exact ⟨rfl, Or.inl rfl, Or.inr ⟨hp, rfl⟩⟩
      · rw [Function.update_of_ne hj]
        exact ⟨rfl, Or.inl rfl, Or.inl rfl⟩
    · exact .refl i t

theorem Adopted.state {t t' : Table} (h : Adopted i t t') {st : ProcState} (hs : st ≠ .sleeping)
    (hr : st ≠ .runnable) : (t' j).state = st ↔ (t j).state = st := by
  rcases (h j).2.1 with e | ⟨e, e'⟩
  · rw [e]
  · rw [e, e']
    exact iff_of_false hr.symm hs.symm

theorem Good.exitStep (h : Good s) (hc : s.cpu = .run i) (hl : s.loc i = .other) {state : ℤ}
    (hs : s.exitStep i state = some s') : StepSafe s s' ∧ Good s' := by
  obtain ⟨hr, _⟩ := h.onCpu hc
  unfold Machine.exitStep at hs
  split at hs
  · cases hs
  next h0 =>
  dsimp only at hs
  split at hs
  · cases hs
  next parent hparent =>
  have adopted : Adopted i s.proc (wakeupOne (reparent s.proc i) parent) :=
    (reparent_adopted i s.proc).trans (wakeupOne_adopted i _ parent)
  generalize wakeupOne (reparent s.proc i) parent = t at hs adopted
  simp only [Option.some.injEq] at hs
  have cpu : s'.cpu = .age 0 i := by rw [← hs]; rfl
  have due : s'.due = s.due := by rw [← hs]; rfl
  have loci : s'.loc i = .dead := by rw [← hs]; exact setLoc_loc_self ..
  have loc : ∀ k, k ≠ i → s'.loc k = s.loc k := by
    intro k hk
    rw [← hs]
    exact setLoc_loc_of_ne _ hk _
  have self : (s'.proc i).state = .zombie := by rw [← hs]; simp
  have rest : ∀ k, k ≠ i → s'.proc k = t k := by
    intro k hk
    rw [← hs]
    exact setProc_proc_of_ne _ hk _
  have fields : ∀ k, (s'.proc k).parent = (t k).parent ∧
      (s'.proc k).priority = (t k).priority := by
    intro k
    by_cases hk : k = i
    · rw [hk, ← hs]
      simp
    · rw [rest k hk]
      exact ⟨rfl, rfl⟩
  have moved : ∀ q, s'.loc q ≠ .dead → q ≠ i ∧ s'.loc q = s.loc q := by
    intro q hq
    have hqi : q ≠ i := by
      rintro rfl
      exact hq loci
    exact ⟨hqi, loc q hqi⟩
  clear hs
  have unused : ∀ k, (s'.proc k).state = .unused ↔ (s.proc k).state = .unused := by
    intro k
    by_cases hk : k = i
    · rw [hk, self, hr]
      simp
    · rw [rest k hk, adopted.state (by simp) (by simp)]
  refine ⟨⟨?_, by simp [cpu]⟩, ?_, by simp [cpu], ⟨fun e => h.zero.1 ((unused _).mp e), ?_⟩,
    ?_, ?_, ?_, ?_, ?_, ?_⟩
  · intro k
    by_cases hk : k = i
    · rw [hk, self, hr]
      exact Or.inr trivial
    · rw [rest k hk]
      rcases (adopted k).2.1 with e | ⟨e, e'⟩
      · exact Or.inl e
      · rw [e, e']
        exact Or.inr trivial
  · intro k
    rw [cpu]
    apply iff_of_false _ (by simp)
    by_cases hk : k = i
    · simp [hk, self]
    · rw [rest k hk, adopted.state (by simp) (by simp), h.running k, hc]
      simp [Ne.symm hk]
  · rw [rest _ (Ne.symm h0), ne_eq, adopted.state (by simp) (by simp)]
    exact h.zero.2
  · intro k hk
    have old := h.orphan k ((unused k).mp hk)
    rw [(fields k).1]
    rcases (adopted k).2.2 with e | ⟨e, _⟩
    · exact e.trans old
    · cases old.symm.trans e
  · intro k
    by_cases hk : k = i
    · rw [hk, self, loci]
      rfl
    · rw [rest k hk, loc k hk]
      have old := h.locOk k
      rcases (adopted k).2.1 with e | ⟨e, e'⟩
      · rwa [e]
      · rw [e] at old
        rw [e', old]
        simp [LocOk]
  · intro q np pid hq
    obtain ⟨_, hloc⟩ := moved q (by rw [hq]; simp)
    rw [hloc] at hq
    obtain ⟨hn, hst, hp, hlo, hd⟩ := h.link q np pid hq
    have hni := h.child_ne hc hq
    obtain ⟨_, sn, pn⟩ := adopted np
    rw [loc np hni, due, (fields np).1, (fields q).2, (adopted q).1]
    refine ⟨hn, ?_, ?_, hlo, hd⟩
    · rw [rest np hni]
      rcases sn with e | ⟨_, e⟩
      · exact e.trans hst
      · exact e
    · rcases pn with e | ⟨e, _⟩
      · exact e.trans hp
      · cases hp.symm.trans e
  · intro q q' np pid pid' h1 h2
    obtain ⟨_, l1⟩ := moved q (by rw [h1]; simp)
    obtain ⟨_, l2⟩ := moved q' (by rw [h2]; simp)
    exact h.one q q' np pid pid' (l1.symm.trans h1) (l2.symm.trans h2)
  · intro q np pid hq
    obtain ⟨hqi, hloc⟩ := moved q (by rw [hq]; simp)
    obtain ⟨hne, hp, hu⟩ := h.publish q np pid (hloc.symm.trans hq)
    refine ⟨hne, ?_, fun e => hu ((unused np).mp e)⟩
    rw [(fields np).1]
    rcases (adopted np).2.2 with e | ⟨e, _⟩
    · exact e.trans hp
    · cases hp.symm.trans e
      exact absurd rfl hqi
  · intro k hk hu
    rcases h.complete k hk (fun e => hu ((unused k).mpr e)) with ⟨q, pid, hq⟩ | ⟨hp, hd⟩
    · refine Or.inl ⟨q, pid, ?_⟩
      rw [loc q, hq]
      rintro rfl
      cases hl.symm.trans hq
    · rw [due, (fields k).1, (fields k).2, (adopted k).1]
      refine Or.inr ⟨?_, hd⟩
      rcases (adopted k).2.2 with e | ⟨_, e⟩
      · rwa [e]
      · rw [e]
        simp

theorem Good.waitStep (h : Good s) (hc : s.cpu = .run i) (hl : s.loc i = .other) :
    StepSafe s (s.waitStep i) ∧ Good (s.waitStep i) := by
  obtain ⟨hr, _⟩ := h.onCpu hc
  unfold Machine.waitStep
  split
  next pp hpp =>
    have hf := List.find?_some hpp
    simp only [Bool.decide_and, Bool.and_eq_true, decide_eq_true_eq] at hf
    obtain ⟨hpar, hz⟩ := hf
    have rest : ∀ q, q ≠ pp → (s.setProc pp (s.proc pp).freed).proc q = s.proc q :=
      fun q hq => setProc_proc_of_ne _ hq _
    have self : (s.setProc pp (s.proc pp).freed).proc pp = (s.proc pp).freed :=
      setProc_proc_self ..
    have pp0 : pp ≠ proczero := by
      rintro rfl
      exact h.zero.2 hz
    have dead : s.loc pp = .dead := by
      have := h.locOk pp
      rwa [hz] at this
    refine ⟨.of_one pp (fun q hq => by rw [rest q hq]) ?_ (fun _ => id), ?_⟩
    · rw [self, hz]
      exact Or.inr trivial
    refine ⟨?_, ?_, ?_, ?_, ?_, ?_, h.one, ?_, ?_⟩
    · intro q
      by_cases hq : q = pp
      · rw [hq, self, setProc_cpu, ← h.running pp, hz]
        simp [ProcT.freed]
      · rw [rest q hq]
        exact h.running q
    · intro k c j hk
      rw [setProc_cpu, hc] at hk
      cases hk
    · rw [rest _ (Ne.symm pp0)]
      exact h.zero
    · intro q hq
      by_cases hqp : q = pp
      · rw [hqp, self]
        rfl
      · rw [rest q hqp] at hq ⊢
        exact h.orphan q hq
    · intro q
      by_cases hq : q = pp
      · rw [hq, self, setProc_loc, dead]
        exact Or.inr rfl
      · rw [rest q hq]
        exact h.locOk q
    · intro q np pid hq
      rw [setProc_loc] at hq
      obtain ⟨hn, hst, rest'⟩ := h.link q np pid hq
      have hnp : np ≠ pp := by
        rintro rfl
        cases hz.symm.trans hst
      have hqp : q ≠ pp := by
        rintro rfl
        cases dead.symm.trans hq
      rw [rest np hnp, rest q hqp]
      exact ⟨hn, hst, rest'⟩
    · intro q np pid hq
      rw [setProc_loc] at hq
      obtain ⟨hne, hp, hu⟩ := h.publish q np pid hq
      have hnp : np ≠ pp := by
        rintro rfl
        cases hp.symm.trans hpar
        cases hl.symm.trans hq
      rw [rest np hnp]
      exact ⟨hne, hp, hu⟩
    · intro k hk hu
      have hkp : k ≠ pp := by
        rintro rfl
        rw [self] at hu
        exact hu rfl
      rw [rest k hkp] at hu ⊢
      exact h.complete k hk hu
  · split
    · exact ⟨.of_one i (fun _ _ => rfl) (Or.inl rfl) (fun _ => id), h⟩
    · exact h.sleepStep hc hl _

theorem Good.allocStep (h : Good s) (hc : s.cpu = .run i) {k : ℕ} (hl : s.loc i = .alloc k)
    (tf pgtbl : ℕ) : StepSafe s (s.allocStep i k tf pgtbl) ∧ Good (s.allocStep i k tf pgtbl) := by
  obtain ⟨hr, _⟩ := h.onCpu hc
  have old : ∀ np pid, s.loc i ≠ .link np pid := by simp [hl]
  unfold Machine.allocStep
  split
  · dsimp only
    split
    next hk hu =>
      generalize (⟨k, hk⟩ : Fin NPROC) = np at hu ⊢
      generalize hs : Machine.mk _ _ _ _ _ = s'
      have hni : np ≠ i := by
        rintro rfl
        cases hu.symm.trans hr
      have cpu : s'.cpu = .run i := by rw [← hs]; exact hc
      have rest : ∀ q, q ≠ np → s'.proc q = s.proc q := by
        intro q hq
        rw [← hs]
        exact setProc_proc_of_ne _ hq _
      obtain ⟨st, par⟩ : (s'.proc np).state = .runnable ∧
          (s'.proc np).parent = (s.proc np).parent := by
        rw [← hs]
        simp [ProcT.dupFiles, ProcT.found]
      have loci : s'.loc i = .link np s.nextpid := by rw [← hs]; exact setLoc_loc_self ..
      have locn : s'.loc np = .other := by
        rw [← hs]
        exact (setLoc_loc_of_ne _ hni _).trans (setLoc_loc_self ..)
      have loc : ∀ q, q ≠ np → q ≠ i → s'.loc q = s.loc q := by
        intro q h1 h2
        rw [← hs]
        exact (setLoc_loc_of_ne _ h2 _).trans (setLoc_loc_of_ne _ h1 _)
      have dueN : s'.due np = (s.proc i).priority := by rw [← hs]; exact Function.update_self ..
      have due : ∀ q, q ≠ np → s'.due q = s.due q := by
        intro q hq
        rw [← hs]
        exact Function.update_of_ne hq ..
      clear hs
      have orphan := h.orphan np hu
      have notIn : ∀ q pid, s.loc q ≠ .link np pid := by
        intro q pid hq
        cases hu.symm.trans (h.link q np pid hq).2.1
      have idle : s.loc np = .other ∨ s.loc np = .dead := by
        have := h.locOk np
        rwa [hu] at this
      have linked : ∀ q np' pid, s'.loc q = .link np' pid → (q = i ∧ np' = np) ∨
          (q ≠ i ∧ q ≠ np ∧ s.loc q = .link np' pid) := by
        intro q np' pid hq
        by_cases hqi : q = i
        · rw [hqi, loci] at hq
          cases hq
          exact Or.inl ⟨hqi, rfl⟩
        · have hqn : q ≠ np := by
            rintro rfl
            cases locn.symm.trans hq
          rw [loc q hqn hqi] at hq
          exact Or.inr ⟨hqi, hqn, hq⟩
      refine ⟨.of_one np (fun q hq => by rw [rest q hq]) ?_ (fun j hj => by rw [← hj, cpu, hc]), ?_⟩
      · rw [st, hu]
        exact Or.inr trivial
      refine ⟨?_, ?_, ?_, ?_, ?_, ?_, ?_, ?_, ?_⟩
      · intro q
        rw [cpu, ← hc]
        by_cases hq : q = np
        · rw [hq, st, ← h.running np, hu]
          simp
        · rw [rest q hq]
          exact h.running q
      · intro k c j hk'
        rw [cpu] at hk'
        cases hk'
      · have : proczero ≠ np := by
          rintro rfl
          exact h.zero.1 hu
        rw [rest _ this]
        exact h.zero
      · intro q hq
        by_cases hqn : q = np
        · rw [hqn, st] at hq
          cases hq
        · rw [rest q hqn] at hq ⊢
          exact h.orphan q hq
      · intro q
        by_cases hq : q = np
        · rw [hq, st, locn]
          simp [LocOk]
        · rw [rest q hq]
          by_cases hqi : q = i
          · rw [hqi, hr, loci]
            simp [LocOk]
          · rw [loc q hq hqi]
            exact h.locOk q
      · intro q np' pid hq
        rcases linked q np' pid hq with ⟨rfl, rfl⟩ | ⟨hqi, hqn, hq⟩
        · refine ⟨?_, st, par.trans orphan, locn, ?_⟩
          · rintro rfl
            exact h.zero.1 hu
          · rw [dueN, rest _ hni.symm]
        · obtain ⟨h0, hst, hp, hlo, hd⟩ := h.link q np' pid hq
          have hne : np' ≠ np := by
            rintro rfl
            exact notIn q pid hq
          rw [rest np' hne, rest q hqn, loc np' hne (h.child_ne hc hq), due np' hne]
          exact ⟨h0, hst, hp, hlo, hd⟩
      · intro q q' np' pid pid' h1 h2
        rcases linked q np' pid h1 with ⟨rfl, rfl⟩ | ⟨_, _, h1⟩ <;>
          rcases linked q' _ pid' h2 with ⟨rfl, h2⟩ | ⟨_, _, h2⟩
        · rfl
        · exact absurd h2 (notIn q' pid')
        · rw [h2] at h1
          exact absurd h1 (notIn q pid)
        · exact h.one q q' _ pid pid' h1 h2
      · intro q np' pid hq
        have hqi : q ≠ i := by
          rintro rfl
          cases loci.symm.trans hq
        have hqn : q ≠ np := by
          rintro rfl
          cases locn.symm.trans hq
        rw [loc q hqn hqi] at hq
        obtain ⟨hnq, hp, hu'⟩ := h.publish q np' pid hq
        have hne : np' ≠ np := by
          rintro rfl
          exact hu' hu
        rw [rest np' hne]
        exact ⟨hnq, hp, hu'⟩
      · intro j hj hju
        by_cases hjn : j = np
        · exact Or.inl ⟨i, s.nextpid, hjn ▸ loci⟩
        · rw [rest j hjn] at hju ⊢
          rw [due j hjn]
          rcases h.complete j hj hju with ⟨q, pid, hq⟩ | hd
          · refine Or.inl ⟨q, pid, ?_⟩
            rw [loc q, hq]
            · rintro rfl
              rcases idle with e | e <;> cases e.symm.trans hq
            · rintro rfl
              cases hl.symm.trans hq
          · exact Or.inr hd
    · exact h.move hc _ old (Or.inr ⟨_, rfl⟩)
  · exact h.move hc _ old (Or.inl rfl)

theorem Good.linkStep (h : Good s) (hc : s.cpu = .run i) {np : Fin NPROC} {pid : ℤ}
    (hl : s.loc i = .link np pid) : StepSafe s (s.linkStep i np pid) ∧ Good (s.linkStep i np pid) := by
  obtain ⟨hr, _⟩ := h.onCpu hc
  obtain ⟨h0, hst, hpar, hlo, hd⟩ := h.link i np pid hl
  have hni := h.child_ne hc hl
  have loci : (s.linkStep i np pid).loc i = .publish np pid := setLoc_loc_self ..
  have loc : ∀ q, q ≠ i → (s.linkStep i np pid).loc q = s.loc q :=
    fun q hq => setLoc_loc_of_ne _ hq _
  have rest : ∀ q, q ≠ np → (s.linkStep i np pid).proc q = s.proc q :=
    fun q hq => setProc_proc_of_ne _ hq _
  have self : (s.linkStep i np pid).proc np = { s.proc np with
      parent := some i, priority := (s.proc i).priority
      priorityBoost := (s.proc i).priorityBoost } := setProc_proc_self ..
  have same : ∀ q, ((s.linkStep i np pid).proc q).state = (s.proc q).state := by
    intro q
    by_cases hq : q = np
    · rw [hq, self]
    · rw [rest q hq]
  have linked : ∀ q np' pid', (s.linkStep i np pid).loc q = .link np' pid' →
      q ≠ i ∧ s.loc q = .link np' pid' := by
    intro q np' pid' hq
    have hqi : q ≠ i := by
      rintro rfl
      cases loci.symm.trans hq
    exact ⟨hqi, (loc q hqi).symm.trans hq⟩
  refine ⟨.of_one np (fun q _ => same q) (Or.inl (same np)) (fun _ => id), ?_⟩
  refine ⟨?_, ?_, ?_, ?_, ?_, ?_, ?_, ?_, ?_⟩
  · intro q
    rw [same q]
    exact h.running q
  · intro k c j hk hj
    rw [same j]
    exact h.chosen k c j hk hj
  · rw [same]
    exact h.zero
  · intro q hq
    rw [same q] at hq
    have hqn : q ≠ np := by
      rintro rfl
      cases hst.symm.trans hq
    rw [rest q hqn]
    exact h.orphan q hq
  · intro q
    rw [same q]
    by_cases hq : q = i
    · rw [hq, hr, loci]
      simp [LocOk]
    · rw [loc q hq]
      exact h.locOk q
  · intro q np' pid' hq
    replace hq := linked q np' pid' hq
    obtain ⟨hqi, hq⟩ := hq
    have hne : np' ≠ np := by
      rintro rfl
      exact hqi (h.one q i np' pid' pid hq hl)
    have hqn : q ≠ np := by
      rintro rfl
      cases hlo.symm.trans hq
    rw [same, rest np' hne, rest q hqn, loc np' (h.child_ne hc hq)]
    exact h.link q np' pid' hq
  · intro q q' np' p1 p2 h1 h2
    exact h.one q q' np' p1 p2 (linked q np' p1 h1).2 (linked q' np' p2 h2).2
  · intro q np' pid' hq
    by_cases hqi : q = i
    · rw [hqi, loci] at hq
      cases hq
      rw [self, hqi]
      exact ⟨hni, rfl, by simp [hst]⟩
    · rw [loc q hqi] at hq
      obtain ⟨hnq, hp, hu⟩ := h.publish q np' pid' hq
      have hne : np' ≠ np := by
        rintro rfl
        cases hpar.symm.trans hp
      rw [rest np' hne]
      exact ⟨hnq, hp, hu⟩
  · intro k hk hu
    by_cases hkn : k = np
    · rw [hkn, self]
      exact Or.inr ⟨by simp, hd.symm⟩
    · rw [rest k hkn] at hu ⊢
      rcases h.complete k hk hu with ⟨q, pid', hq⟩ | hd'
      · refine Or.inl ⟨q, pid', ?_⟩
        rw [loc q, hq]
        rintro rfl
        cases hl.symm.trans hq
        exact hkn rfl
      · exact Or.inr hd'

theorem Good.publishStep (h : Good s) (hc : s.cpu = .run i) {np : Fin NPROC} {pid : ℤ}
    (hl : s.loc i = .publish np pid) :
    (StepSafe s (s.publishStep i np) ↔ (s.proc np).state ≠ .zombie) ∧
      ((s.proc np).state ≠ .zombie → Good (s.publishStep i np)) := by
  obtain ⟨hni, _, hu⟩ := h.publish i np pid hl
  have cases : (s.proc np).state ≠ .zombie →
      (s.proc np).state = .runnable ∨ (s.proc np).state = .sleeping := by
    intro hz
    cases hs : (s.proc np).state with
    | unused => exact absurd hs hu
    | runnable => exact Or.inl rfl
    | sleeping => exact Or.inr rfl
    | zombie => exact absurd hs hz
    | running =>
      have := (h.running np).mp hs
      rw [hc] at this
      cases this
      exact absurd rfl hni
  have self : (s.publishStep i np).proc np = { s.proc np with state := .runnable } :=
    setProc_proc_self ..
  refine ⟨⟨?_, ?_⟩, ?_⟩
  · intro safe hz
    have := safe.listed np
    rw [self, hz] at this
    rcases this with e | e
    · cases e
    · exact e
  · intro hz
    refine .of_one np (fun q hq => ?_) ?_ (fun _ => id)
    · exact congrArg ProcT.state (setProc_proc_of_ne s hq _)
    · rw [self]
      rcases cases hz with e | e <;> rw [e]
      · exact Or.inl rfl
      · exact Or.inr trivial
  · intro hz
    have good : Good (s.setProc np { s.proc np with state := .runnable }) := by
      rcases cases hz with e | e
      · have : s.setProc np { s.proc np with state := .runnable } = s := by
          unfold setProc
          rw [← e, Function.update_eq_self]
        rwa [this]
      · exact h.wake e (s.proc np).killed
    exact (good.move hc _ (by simp [hl]) (Or.inl rfl)).2

theorem Good.step (h : Good s) {a : Act} (hs : s.step a = some s') :
    (StepSafe s s' ↔ OutsideWindows s a) ∧ (OutsideWindows s a → Good s') := by
  have easy : ∀ {a : Act}, (OutsideWindows s a ↔ True) → StepSafe s s' ∧ Good s' →
      (StepSafe s s' ↔ OutsideWindows s a) ∧ (OutsideWindows s a → Good s') :=
    fun ho hg => ⟨iff_of_true hg.1 (ho.mpr trivial), fun _ => hg.2⟩
  cases a with
  | scan => exact h.scanStep hs
  | age => exact easy Iff.rfl (h.ageStep hs)
  | wakeup j space =>
    simp only [Machine.step, procStep] at hs
    split at hs
    · split at hs
      · cases hs
      · cases hs
        exact easy Iff.rfl (h.wakeupStep space)
    · cases hs
      exact easy Iff.rfl (h.wakeupStep space)
  | preempt =>
    simp only [Machine.step, procStep] at hs
    split at hs
    next i hc =>
      split at hs
      · cases hs
        exact easy Iff.rfl (h.yieldStep hc)
      · cases hs
    · cases hs
  | sleep space =>
    simp only [Machine.step, procStep] at hs
    split at hs
    next i hc =>
      split at hs
      next hl =>
        cases hs
        exact easy Iff.rfl (h.sleepStep hc hl space)
      · cases hs
    · cases hs
  | kill j =>
    simp only [Machine.step, procStep] at hs
    split at hs
    · split at hs
      · cases hs
        exact easy Iff.rfl h.killStep
      · cases hs
    · cases hs
  | setPriority priority =>
    simp only [Machine.step, procStep] at hs
    split at hs
    next i hc =>
      split at hs
      next hl =>
        cases hs
        exact easy Iff.rfl (h.setPriorityStep hc hl priority)
      · cases hs
    · cases hs
  | exit state =>
    simp only [Machine.step, procStep] at hs
    split at hs
    next i hc =>
      split at hs
      next hl => exact easy Iff.rfl (h.exitStep hc hl hs)
      · cases hs
    · cases hs
  | wait =>
    simp only [Machine.step, procStep] at hs
    split at hs
    next i hc =>
      split at hs
      next hl =>
        cases hs
        exact easy Iff.rfl (h.waitStep hc hl)
      · cases hs
    · cases hs
  | fork =>
    simp only [Machine.step, procStep] at hs
    split at hs
    next i hc =>
      split at hs
      next hl =>
        cases hs
        exact easy Iff.rfl (h.move hc _ (by simp [hl]) (Or.inr ⟨0, rfl⟩))
      · cases hs
    · cases hs
  | allocSlot tf pgtbl =>
    simp only [Machine.step, procStep] at hs
    split at hs
    next i hc =>
      split at hs
      next k hl =>
        cases hs
        exact easy Iff.rfl (h.allocStep hc hl tf pgtbl)
      · cases hs
    · cases hs
  | link =>
    simp only [Machine.step, procStep] at hs
    split at hs
    next i hc =>
      split at hs
      next np pid hl =>
        cases hs
        exact easy Iff.rfl (h.linkStep hc hl)
      · cases hs
    · cases hs
  | publish =>
    simp only [Machine.step, procStep] at hs
    split at hs
    next i hc =>
      split at hs
      next np pid hl =>
        cases hs
        have out : OutsideWindows s .publish ↔ (s.proc np).state ≠ .zombie := by
          constructor
          · intro ho
            exact ho i np pid hc hl
          · intro hz i' np' pid' hc' hl'
            cases hc.symm.trans hc'
            cases hl.symm.trans hl'
            exact hz
        rw [out]
        exact h.publishStep hc hl
      · cases hs
    · cases hs

theorem Good.safe_iff {as : List Act} (h : Good s) : Safe s as ↔ KeepsOut s as := by
  induction as generalizing s with
  | nil => exact Iff.rfl
  | cons a as ih =>
    apply forall_congr'
    intro t
    apply imp_congr_right
    intro ht
    obtain ⟨safe, good⟩ := h.step ht
    constructor
    · rintro ⟨hs, rest⟩
      exact ⟨safe.mp hs, (ih (good (safe.mp hs))).mp rest⟩
    · rintro ⟨ho, rest⟩
      exact ⟨safe.mpr ho, (ih (good ho)).mpr rest⟩

end Invariant

/-- A run is safe exactly when all its steps keep out of the two windows of `proc_fork`. -/
theorem safe_iff_keepsOut (as : List Act) : Safe init as ↔ KeepsOut init as :=
  init_good.safe_iff

section Early

theorem Safe.append {s t : Machine} {as bs : List Act} (h : Safe s (as ++ bs))
    (ht : s.after as = some t) : Safe t bs := by
  induction as generalizing s with
  | nil =>
    cases ht
    exact h
  | cons a as ih =>
    obtain ⟨u, hu, ht⟩ := Option.bind_eq_some_iff.mp ht
    exact ih (h u hu).2 ht

/-- `proczero` forks and is preempted as soon as `proc_fork` has released `np->lk`; the child has
    waited and goes first. -/
def early : List Act :=
  List.replicate 65 .scan ++ [.fork, .allocSlot 8192 12288, .allocSlot 8192 12288, .preempt] ++
    List.replicate 65 .age ++ List.replicate 64 .scan

theorem early_dispatch : ((init.after early).bind fun t => (t.step .scan).map fun t' =>
    (t.cpu.current, t'.cpu.current, (t'.proc 1).parent)) = some (none, some 1, none) := by
  decide +kernel

theorem early_not_safe : ¬ Safe init (early ++ [.scan]) := by
  intro safe
  obtain ⟨t, ht, hd⟩ := Option.bind_eq_some_iff.mp early_dispatch
  obtain ⟨t', ht', hd⟩ := Option.map_eq_some_iff.mp hd
  simp only [Prod.mk.injEq] at hd
  have step := ((safe.append ht) t' ht').1
  refine (step.dispatched 1 (Cpu.current_eq_some.mp hd.2.1) ?_ (by decide)).1 hd.2.2
  intro hc
  have := hd.1
  rw [hc] at this
  cases this

end Early

end Machine

end EasyXv6.Proc
