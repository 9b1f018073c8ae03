import EasyXv6.Proc.Machine

set_option autoImplicit false

/-!
# Priorities, boosts and the choice of the scheduler

Only a round of aging raises a boost, and it stops at the cap. Every other step leaves the priority
and the boost of a slot, or sets the boost to 0 with a priority in range.
-/
namespace EasyXv6.Proc
namespace Machine

/-- A legal priority, and a boost that `effective_priority` need not cap. -/
structure InRange (p : ProcT) : Prop where
  low : PRIORITY_MIN ≤ p.priority
  high : p.priority ≤ PRIORITY_MAX
  nonneg : 0 ≤ p.priorityBoost
  capped : p.priorityBoost ≤ PRIORITY_MAX - p.priority
  running : p.state = .running → p.priorityBoost = 0

/-- The channels on which a process begins to sleep in a step. -/
def Begins : Act → Option Chan → Prop
  | .sleep space, c => c = some space
  | .wait, c => ∃ i, c = some (.proc i)
  | _, _ => False

/-- What a step other than a round of aging does to a slot. -/
structure Settles (a : Act) (p q : ProcT) : Prop where
  rank : (q.priority = p.priority ∧ q.priorityBoost = p.priorityBoost ∧
      (q.state = .running → p.state = .running)) ∨
    (PRIORITY_MIN ≤ q.priority ∧ q.priority ≤ PRIORITY_MAX ∧ q.priorityBoost = 0)
  sleep : q.state = .sleeping →
    (p.state = .sleeping ∧ q.sleepSpace = p.sleepSpace) ∨ Begins a q.sleepSpace

structure Ranked (s : Machine) : Prop where
  slot : ∀ i, InRange (s.proc i)
  current : ∀ i, s.cpu = .run i → (s.proc i).priorityBoost = 0
  chosen : ∀ k c j, s.cpu = .scan k c → c.chosen = some j → (s.proc j).state = .runnable

section Slots

variable {p q : ProcT} {t t' : Table} {i : Fin NPROC} {a : Act}

theorem InRange.effectivePriority (h : InRange p) :
    effectivePriority p = p.priority + p.priorityBoost := by
  have := h.capped
  unfold Proc.effectivePriority
  dsimp only
  rw [if_neg (by omega)]

theorem InRange.of_boost (low : PRIORITY_MIN ≤ p.priority) (high : p.priority ≤ PRIORITY_MAX)
    (boost : p.priorityBoost = 0) : InRange p := by
  refine ⟨low, high, ?_, ?_, fun _ => boost⟩ <;> omega

/-- The priority and the boost stay, and the slot does not begin to run or to sleep. -/
theorem Settles.keep (priority : q.priority = p.priority)
    (boost : q.priorityBoost = p.priorityBoost) (running : q.state = .running → p.state = .running)
    (sleep : q.state = .sleeping → p.state = .sleeping ∧ q.sleepSpace = p.sleepSpace) :
    Settles a p q :=
  ⟨Or.inl ⟨priority, boost, running⟩, fun hq => Or.inl (sleep hq)⟩

theorem Settles.begin (priority : q.priority = p.priority)
    (boost : q.priorityBoost = p.priorityBoost) (running : q.state ≠ .running)
    (space : Begins a q.sleepSpace) : Settles a p q :=
  ⟨Or.inl ⟨priority, boost, fun hr => absurd hr running⟩, fun _ => Or.inr space⟩

theorem Settles.reset (low : PRIORITY_MIN ≤ q.priority) (high : q.priority ≤ PRIORITY_MAX)
    (boost : q.priorityBoost = 0)
    (sleep : q.state = .sleeping → p.state = .sleeping ∧ q.sleepSpace = p.sleepSpace) :
    Settles a p q :=
  ⟨Or.inr ⟨low, high, boost⟩, fun hq => Or.inl (sleep hq)⟩

theorem default_low : PRIORITY_MIN ≤ PRIORITY_DEFAULT := by decide
theorem default_high : PRIORITY_DEFAULT ≤ PRIORITY_MAX := by decide

theorem Settles.refl (p : ProcT) : Settles a p p := .keep rfl rfl id fun hs => ⟨hs, rfl⟩

theorem Settles.inRange (h : Settles a p q) (hp : InRange p) : InRange q := by
  rcases h.rank with ⟨priority, boost, running⟩ | ⟨low, high, boost⟩
  · refine ⟨?_, ?_, ?_, ?_, fun hr => boost.trans (hp.running (running hr))⟩
    · exact priority ▸ hp.low
    · exact priority ▸ hp.high
    · exact boost ▸ hp.nonneg
    · rw [boost, priority]
      exact hp.capped
  · exact .of_boost low high boost

theorem Settles.boost (h : Settles a p q) (hp : p.priorityBoost = 0) : q.priorityBoost = 0 := by
  rcases h.rank with ⟨-, boost, -⟩ | ⟨-, -, boost⟩
  · exact boost.trans hp
  · exact boost

theorem Settles.trans {r : ProcT} (h : Settles a p q) (h' : Settles a q r) : Settles a p r := by
  constructor
  · rcases h'.rank with ⟨priority, boost, running⟩ | reset
    · rcases h.rank with ⟨priority', boost', running'⟩ | ⟨low, high, zero⟩
      · exact Or.inl ⟨priority.trans priority', boost.trans boost', fun hr => running' (running hr)⟩
      · exact Or.inr ⟨priority ▸ low, priority ▸ high, boost.trans zero⟩
    · exact Or.inr reset
  · intro hr
    rcases h'.sleep hr with ⟨hq, space⟩ | begins
    · rw [space]
      exact h.sleep hq
    · exact Or.inr begins

theorem Settles.update (h : Settles a (t i) p) (j : Fin NPROC) :
    Settles a (t j) (Function.update t i p j) := by
  by_cases hj : j = i
  · subst hj
    rwa [Function.update_self]
  · rw [Function.update_of_ne hj]
    exact .refl _

theorem wakeupOne_settles (t : Table) (p j : Fin NPROC) : Settles a (t j) (wakeupOne t p j) := by
  unfold wakeupOne
  split
  · exact Settles.update (.keep (by rfl) (by rfl) (by simp) (by simp)) j
  · exact .refl _

theorem reparent_settles (t : Table) (i j : Fin NPROC) : Settles a (t j) (reparent t i j) := by
  unfold reparent
  induction List.finRange NPROC generalizing t with
  | nil => exact .refl _
  | cons pp rest ih =>
    refine Settles.trans ?_ (ih (reparentOne i t pp))
    unfold reparentOne
    split
    · exact (Settles.update (.keep (by rfl) (by rfl) (by exact id)
        (by exact fun hs => ⟨hs, rfl⟩)) j).trans (wakeupOne_settles _ _ j)
    · exact .refl _

/-- A round of aging keeps the boost below the cap, and leaves a process that runs. -/
theorem InRange.boostOne (h : InRange p) (l k : Fin NPROC) : InRange (boostOne l k p) := by
  unfold Proc.boostOne
  split
  · exact h
  split
  · exact h
  next waiting =>
  dsimp only
  split
  · have := h.nonneg
    refine ⟨h.low, h.high, by dsimp only; omega, by dsimp only; omega, fun hr => ?_⟩
    simp only [ne_eq, Decidable.not_not] at waiting
    dsimp only at hr
    rw [waiting] at hr
    cases hr
  · exact h

theorem boostOne_sleep (l k : Fin NPROC) (p : ProcT) : (Proc.boostOne l k p).state = p.state ∧
    (Proc.boostOne l k p).sleepSpace = p.sleepSpace := by
  unfold Proc.boostOne
  split
  · exact ⟨rfl, rfl⟩
  split
  · exact ⟨rfl, rfl⟩
  dsimp only
  split <;> exact ⟨rfl, rfl⟩

end Slots

section Steps

variable {s s' : Machine} {i : Fin NPROC} {a : Act}

theorem init_ranked : Ranked init := by
  have slot : ∀ i, (init.proc i).priority = PRIORITY_DEFAULT ∧ (init.proc i).priorityBoost = 0 := by
    intro i
    by_cases hi : i = proczero
    · subst hi
      simp [init, procInit]
    · simp [init, Function.update_of_ne hi, procInit]
  refine ⟨fun i => .of_boost ?_ ?_ (slot i).2, nofun, ?_⟩
  · rw [(slot i).1]
    exact default_low
  · rw [(slot i).1]
    exact default_high
  · intro k c j hc hj
    cases hc
    cases hj

theorem wakeupStep_cpu (j : Fin NPROC) (space : Chan) : (s.wakeupStep j space).cpu = s.cpu := by
  unfold Machine.wakeupStep
  split <;> rfl

theorem wakeupStep_settles (j k : Fin NPROC) (space : Chan) :
    Settles a (s.proc k) ((s.wakeupStep j space).proc k) := by
  unfold Machine.wakeupStep
  split
  · exact Settles.update (.keep (by rfl) (by rfl) (by simp) (by simp)) k
  · exact .refl _

theorem Ranked.wakeupStep (h : Ranked s) (j : Fin NPROC) (space : Chan) :
    Ranked (s.wakeupStep j space) := by
  have all : ∀ k, Settles .scan (s.proc k) ((s.wakeupStep j space).proc k) :=
    fun k => wakeupStep_settles j k space
  refine ⟨fun k => (all k).inRange (h.slot k), fun k hk => ?_, ?_⟩
  · rw [wakeupStep_cpu] at hk
    exact (all k).boost (h.current k hk)
  · intro k c i hk hi
    rw [wakeupStep_cpu] at hk
    have runnable := h.chosen k c i hk hi
    unfold Machine.wakeupStep
    split
    · by_cases hij : i = j
      · subst hij
        rw [setProc_proc_self]
      · rwa [setProc_proc_of_ne _ hij]
    · exact runnable

theorem dispatchTo_settles (h : Ranked s) (j : Fin NPROC) :
    Settles a (s.proc j) ((s.dispatchTo i).proc j) := by
  have reset : Settles a (s.proc j) (dispatch s.proc i j) := by
    refine Settles.update ?_ j
    exact .reset (h.slot i).low (h.slot i).high rfl nofun
  unfold Machine.dispatchTo
  dsimp only
  split
  · refine reset.trans (Settles.update (.keep (by rfl) (by rfl) (by exact id) ?_) j)
    intro hs
    simp [dispatch] at hs
  · exact reset

theorem dispatchTo_cpu (s : Machine) (i : Fin NPROC) : (s.dispatchTo i).cpu = .run i := by
  unfold Machine.dispatchTo
  cases s.loc i <;> rfl

theorem dispatchTo_boost (s : Machine) (i : Fin NPROC) :
    ((s.dispatchTo i).proc i).priorityBoost = 0 := by
  unfold Machine.dispatchTo
  cases s.loc i <;> simp [dispatch]

theorem chosen_consider {t : Table} {c : Choice} (i : Fin NPROC) {j : Fin NPROC}
    (h : ∀ j, c.chosen = some j → (t j).state = .runnable) (hj : (consider t c i).chosen = some j) :
    (t j).state = .runnable := by
  unfold consider at hj
  split at hj
  · exact h j hj
  next waiting =>
  have hi : (t i).state = .runnable := Decidable.not_not.mp waiting
  dsimp only at hj
  split at hj
  · cases hj
    exact hi
  · split at hj
    · cases hj
      exact hi
    · exact h j hj

theorem scanStep_settles (h : Ranked s) (hs : s.scanStep = some s') (j : Fin NPROC) :
    Settles a (s.proc j) (s'.proc j) := by
  unfold Machine.scanStep at hs
  split at hs
  · split at hs
    · cases hs
      exact .refl _
    · split at hs
      · cases hs
        exact .refl _
      · cases hs
        exact dispatchTo_settles h j
  · cases hs

theorem Ranked.scanStep (h : Ranked s) (hs : s.scanStep = some s') : Ranked s' := by
  have slot : ∀ j, InRange (s'.proc j) :=
    fun j => (scanStep_settles (a := .scan) h hs j).inRange (h.slot j)
  unfold Machine.scanStep at hs
  split at hs
  next k c hk =>
    split at hs
    next hlt =>
      cases hs
      refine ⟨slot, nofun, ?_⟩
      intro k' c' j hk' hj
      cases hk'
      exact chosen_consider ⟨k, hlt⟩ (fun j hj => h.chosen k c j hk hj) hj
    next =>
      split at hs
      · cases hs
        refine ⟨slot, nofun, ?_⟩
        intro k' c' j hk' hj
        cases hk'
        cases hj
      next i hi =>
        cases hs
        refine ⟨slot, ?_, ?_⟩
        · intro j hj
          rw [dispatchTo_cpu] at hj
          cases hj
          exact dispatchTo_boost s i
        · intro k' c' j hk'
          rw [dispatchTo_cpu] at hk'
          cases hk'
  · cases hs

theorem ageStep_slot (hs : s.ageStep = some s') (j : Fin NPROC) :
    s'.proc j = s.proc j ∨ ∃ l, s'.proc j = boostOne l j (s.proc j) := by
  unfold Machine.ageStep at hs
  split at hs
  next k l hk =>
    split at hs
    next hlt =>
      cases hs
      change Function.update s.proc _ _ j = _ ∨ ∃ l, Function.update s.proc _ _ j = _
      by_cases hj : j = ⟨k, hlt⟩
      · rw [hj, Function.update_self]
        exact Or.inr ⟨l, rfl⟩
      · rw [Function.update_of_ne hj]
        exact Or.inl rfl
    next =>
      cases hs
      exact Or.inl rfl
  · cases hs

theorem Ranked.ageStep (h : Ranked s) (hs : s.ageStep = some s') : Ranked s' := by
  have slot : ∀ j, InRange (s'.proc j) := by
    intro j
    rcases ageStep_slot hs j with same | ⟨l, aged⟩
    · rw [same]
      exact h.slot j
    · rw [aged]
      exact (h.slot j).boostOne l j
  unfold Machine.ageStep at hs
  split at hs
  · split at hs
    · cases hs
      exact ⟨slot, nofun, nofun⟩
    · cases hs
      refine ⟨slot, nofun, ?_⟩
      intro k' c' j hk' hj
      cases hk'
      cases hj
  · cases hs

theorem exitStep_settles {state : ℤ} (hs : s.exitStep i state = some s') :
    (∃ k l, s'.cpu = .age k l) ∧ ∀ j, Settles a (s.proc j) (s'.proc j) := by
  unfold Machine.exitStep at hs
  split at hs
  · cases hs
  dsimp only at hs
  split at hs
  · cases hs
  next q hq =>
    cases hs
    refine ⟨⟨0, i, rfl⟩, fun j => ?_⟩
    have woken : Settles a (s.proc j) (wakeupOne (reparent s.proc i) q j) :=
      (reparent_settles s.proc i j).trans (wakeupOne_settles (reparent s.proc i) q j)
    generalize wakeupOne (reparent s.proc i) q = t at woken
    exact woken.trans (Settles.update (.keep (by rfl) (by rfl) (by simp) (by simp)) j)

theorem waitStep_settles (i : Fin NPROC) :
    ((s.waitStep i).cpu = s.cpu ∨ ∃ k l, (s.waitStep i).cpu = .age k l) ∧
      ∀ j, Settles .wait (s.proc j) ((s.waitStep i).proc j) := by
  unfold Machine.waitStep
  split
  · exact ⟨Or.inl rfl, fun j => Settles.update (.reset (by exact default_low)
      (by exact default_high) (by rfl) (by simp [ProcT.freed])) j⟩
  · split
    · exact ⟨Or.inl rfl, fun j => .refl _⟩
    · exact ⟨Or.inr ⟨0, i, rfl⟩, fun j => Settles.update (.begin (by rfl) (by rfl) (by simp)
        (by exact ⟨i, rfl⟩)) j⟩

theorem allocStep_settles (i : Fin NPROC) (k tf pgtbl : ℕ) :
    (s.allocStep i k tf pgtbl).cpu = s.cpu ∧
      ∀ j, Settles a (s.proc j) ((s.allocStep i k tf pgtbl).proc j) := by
  unfold Machine.allocStep
  split
  · dsimp only
    split
    · exact ⟨rfl, fun j => Settles.update (.reset (by exact default_low) (by exact default_high)
        (by rfl) (by simp [ProcT.dupFiles, ProcT.found])) j⟩
    · exact ⟨rfl, fun j => .refl _⟩
  · exact ⟨rfl, fun j => .refl _⟩

/-- The child inherits the boost of a parent that is on the CPU. -/
theorem linkStep_settles (h : Ranked s) (hc : s.cpu = .run i) (np : Fin NPROC) (pid : ℤ) :
    (s.linkStep i np pid).cpu = s.cpu ∧
      ∀ j, Settles a (s.proc j) ((s.linkStep i np pid).proc j) := by
  refine ⟨rfl, fun j => Settles.update ?_ j⟩
  exact .reset (h.slot i).low (h.slot i).high (h.current i hc) fun hs => ⟨hs, rfl⟩

theorem setPriorityStep_settles (i : Fin NPROC) (priority : ℤ) :
    (s.setPriorityStep i priority).cpu = s.cpu ∧
      ∀ j, Settles a (s.proc j) ((s.setPriorityStep i priority).proc j) := by
  unfold Machine.setPriorityStep
  split
  · exact ⟨rfl, fun j => .refl _⟩
  next legal =>
    refine ⟨rfl, fun j => Settles.update (t := s.proc) ?_ j⟩
    exact .reset (by dsimp only; omega) (by dsimp only; omega) rfl fun hs => ⟨hs, rfl⟩

/-- What a step of the process on the CPU does. -/
theorem procStep_settles (h : Ranked s) (hc : s.cpu = .run i) (hs : s.procStep i a = some s') :
    (s'.cpu = s.cpu ∨ ∃ k l, s'.cpu = .age k l) ∧ ∀ j, Settles a (s.proc j) (s'.proc j) := by
  cases a with
  | scan => cases hs
  | age => cases hs
  | wakeup j space =>
    simp only [Machine.procStep] at hs
    split at hs
    · cases hs
    · cases hs
      exact ⟨Or.inl (wakeupStep_cpu j space), fun k => wakeupStep_settles j k space⟩
  | preempt =>
    simp only [Machine.procStep] at hs
    split at hs
    · cases hs
      exact ⟨Or.inr ⟨0, i, rfl⟩,
        fun j => Settles.update (.keep (by rfl) (by rfl) (by simp) (by simp)) j⟩
    · cases hs
  | sleep space =>
    simp only [Machine.procStep] at hs
    split at hs
    · cases hs
      exact ⟨Or.inr ⟨0, i, rfl⟩,
        fun j => Settles.update (.begin (by rfl) (by rfl) (by simp) (by exact rfl)) j⟩
    · cases hs
  | kill j =>
    simp only [Machine.procStep] at hs
    split at hs
    · cases hs
      refine ⟨Or.inl rfl, fun k => Settles.update (.keep (by rfl) (by rfl) ?_ ?_) k⟩
      · intro hr
        dsimp only at hr
        split at hr
        · cases hr
        · exact hr
      · intro hr
        dsimp only at hr
        split at hr
        · cases hr
        · exact ⟨hr, rfl⟩
    · cases hs
  | setPriority priority =>
    simp only [Machine.procStep] at hs
    split at hs
    · cases hs
      exact (setPriorityStep_settles i priority).imp_left Or.inl
    · cases hs
  | exit state =>
    simp only [Machine.procStep] at hs
    split at hs
    · exact (exitStep_settles hs).imp_left Or.inr
    · cases hs
  | wait =>
    simp only [Machine.procStep] at hs
    split at hs
    · cases hs
      exact waitStep_settles i
    · cases hs
  | fork =>
    simp only [Machine.procStep] at hs
    split at hs
    · cases hs
      exact ⟨Or.inl rfl, fun j => .refl _⟩
    · cases hs
  | allocSlot tf pgtbl =>
    simp only [Machine.procStep] at hs
    split at hs
    next k _ =>
      cases hs
      exact (allocStep_settles i k tf pgtbl).imp_left Or.inl
    · cases hs
  | link =>
    simp only [Machine.procStep] at hs
    split at hs
    next np pid _ =>
      cases hs
      exact (linkStep_settles h hc np pid).imp_left Or.inl
    · cases hs
  | publish =>
    simp only [Machine.procStep] at hs
    split at hs
    · cases hs
      exact ⟨Or.inl rfl, fun j => Settles.update (.keep (by rfl) (by rfl) (by simp) (by simp)) j⟩
    · cases hs

theorem Ranked.procStep (h : Ranked s) (hc : s.cpu = .run i) (hs : s.procStep i a = some s') :
    Ranked s' := by
  obtain ⟨cpu, all⟩ := procStep_settles h hc hs
  refine ⟨fun j => (all j).inRange (h.slot j), ?_, ?_⟩
  · intro j hj
    rcases cpu with cpu | ⟨k, l, cpu⟩
    · exact (all j).boost (h.current j (cpu ▸ hj))
    · rw [cpu] at hj
      cases hj
  · intro k c j hk
    rcases cpu with cpu | ⟨k, l, cpu⟩
    · rw [cpu, hc] at hk
      cases hk
    · rw [cpu] at hk
      cases hk

/-- A step is one of the scheduler, of an interrupt in the scheduler, or of the process on the CPU. -/
theorem step_cases (hs : s.step a = some s') :
    (a = .scan ∧ s.scanStep = some s') ∨ (a = .age ∧ s.ageStep = some s') ∨
      (∃ j space, a = .wakeup j space ∧ s' = s.wakeupStep j space) ∨
      ∃ i, s.cpu = .run i ∧ s.procStep i a = some s' := by
  cases a with
  | scan => exact Or.inl ⟨rfl, hs⟩
  | age => exact Or.inr (Or.inl ⟨rfl, hs⟩)
  | wakeup j space =>
    simp only [Machine.step] at hs
    split at hs
    next i hc => exact Or.inr (Or.inr (Or.inr ⟨i, hc, hs⟩))
    · cases hs
      exact Or.inr (Or.inr (Or.inl ⟨j, space, rfl, rfl⟩))
  | preempt | sleep | kill | setPriority | exit | wait | fork | allocSlot | link | publish =>
    simp only [Machine.step] at hs
    split at hs
    next i hc => exact Or.inr (Or.inr (Or.inr ⟨i, hc, hs⟩))
    · cases hs

theorem Ranked.step (h : Ranked s) (hs : s.step a = some s') : Ranked s' := by
  rcases step_cases hs with ⟨-, hs⟩ | ⟨-, hs⟩ | ⟨j, space, -, rfl⟩ | ⟨i, hc, hs⟩
  · exact h.scanStep hs
  · exact h.ageStep hs
  · exact h.wakeupStep j space
  · exact h.procStep hc hs

/-- Who sleeps after a step slept before it on the same channel, or goes to sleep in it. -/
theorem Ranked.sleep (h : Ranked s) (hs : s.step a = some s') {j : Fin NPROC}
    (hj : (s'.proc j).state = .sleeping) :
    ((s.proc j).state = .sleeping ∧ (s'.proc j).sleepSpace = (s.proc j).sleepSpace) ∨
      Begins a (s'.proc j).sleepSpace := by
  rcases step_cases hs with ⟨-, hs⟩ | ⟨-, hs⟩ | ⟨k, space, -, rfl⟩ | ⟨i, hc, hs⟩
  · exact (scanStep_settles h hs j).sleep hj
  · rcases ageStep_slot hs j with same | ⟨l, aged⟩
    · rw [same] at hj ⊢
      exact Or.inl ⟨hj, rfl⟩
    · rw [aged, (boostOne_sleep l j _).1] at hj
      rw [aged, (boostOne_sleep l j _).2]
      exact Or.inl ⟨hj, rfl⟩
  · exact (wakeupStep_settles k j space).sleep hj
  · exact ((procStep_settles h hc hs).2 j).sleep hj

theorem Ranked.after {as : List Act} (h : Ranked s) (hs : s.after as = some s') : Ranked s' := by
  induction as generalizing s with
  | nil =>
    cases hs
    exact h
  | cons a as ih =>
    obtain ⟨t, ht, hs⟩ := Option.bind_eq_some_iff.mp hs
    exact ih (h.step ht) hs

end Steps

section Scan

variable {s u : Machine} {i j : Fin NPROC} {c : Choice} {k : ℕ}

/-- What is chosen after the first `k` slots, of those that were RUNNABLE in the table `t`. -/
def Seen (t : Table) (k : ℕ) (c : Choice) : Prop :=
  match c.chosen with
  | none => ∀ i : Fin NPROC, i < k → (t i).state ≠ .runnable
  | some j => c.bestPriority = effectivePriority (t j) ∧
      ∀ i : Fin NPROC, i < k → (t i).state = .runnable → Before t j i

/-- The table `t'` is `t` after some wakeups. -/
def Woken (t t' : Table) : Prop :=
  ∀ i, effectivePriority (t' i) = effectivePriority (t i) ∧ (t' i).pid = (t i).pid ∧
    ((t i).state = .runnable → (t' i).state = .runnable)

theorem Seen.consider {t t' : Table} (h : Seen t k c) (woken : Woken t t') (hk : k < NPROC) :
    Seen t (k + 1) (consider t' c ⟨k, hk⟩) := by
  obtain ⟨chosen, best⟩ := c
  obtain ⟨effK, pidK, runK⟩ := woken ⟨k, hk⟩
  have split : ∀ i : Fin NPROC, (i : ℕ) < k + 1 → (i : ℕ) < k ∨ i = ⟨k, hk⟩ := by
    intro i hi
    rcases Nat.lt_succ_iff_lt_or_eq.mp hi with lt | rfl
    · exact Or.inl lt
    · exact Or.inr rfl
  unfold Proc.consider
  by_cases hs : (t' ⟨k, hk⟩).state = .runnable
  · simp only [hs, ne_eq, not_true_eq_false, ↓reduceIte]
    cases chosen with
    | none =>
      refine ⟨effK, ?_⟩
      intro i hi hr
      rcases split i hi with lt | rfl
      · exact absurd hr (h i lt)
      · exact Or.inr ⟨rfl, le_refl _⟩
    | some j =>
      obtain ⟨rfl, first⟩ := h
      dsimp only
      rw [effK, pidK, (woken j).2.1]
      split_ifs with better
      · have before : Before t ⟨k, hk⟩ j := by
          unfold Before
          omega
        refine ⟨rfl, ?_⟩
        intro i hi hr
        rcases split i hi with lt | rfl
        · exact before.trans (first i lt hr)
        · exact Or.inr ⟨rfl, le_refl _⟩
      · refine ⟨rfl, ?_⟩
        intro i hi hr
        rcases split i hi with lt | rfl
        · exact first i lt hr
        · unfold Before
          omega
  · simp only [hs, ne_eq, not_false_eq_true, ↓reduceIte]
    cases chosen with
    | none =>
      intro i hi hr
      rcases split i hi with lt | rfl
      · exact h i lt hr
      · exact hs (runK hr)
    | some j =>
      refine ⟨h.1, ?_⟩
      intro i hi hr
      rcases split i hi with lt | rfl
      · exact h.2 i lt hr
      · exact absurd (runK hr) hs

theorem Woken.refl (t : Table) : Woken t t := fun _ => ⟨rfl, rfl, id⟩

theorem Woken.wakeupStep {t : Table} (h : Woken t s.proc) (j : Fin NPROC) (space : Chan) :
    Woken t (s.wakeupStep j space).proc := by
  unfold Machine.wakeupStep
  split
  · intro i
    by_cases hi : i = j
    · subst hi
      rw [setProc_proc_self]
      exact ⟨(h i).1, (h i).2.1, fun _ => rfl⟩
    · rw [setProc_proc_of_ne _ hi]
      exact h i
  · exact h

/-- The steps of the scheduler's loop over `n` slots, with any wakeups by interrupts in between. -/
inductive Interrupted : ℕ → List Act → Prop
  | nil : Interrupted 0 []
  | scan {n : ℕ} {ws : List Act} (h : Interrupted n ws) : Interrupted (n + 1) (.scan :: ws)
  | wakeup {n : ℕ} {ws : List Act} (h : Interrupted n ws) (j : Fin NPROC) (space : Chan) :
      Interrupted n (.wakeup j space :: ws)

theorem Interrupted.seen {t : Table} {n : ℕ} {ws : List Act} (h : Interrupted n ws)
    (hn : k + n ≤ NPROC) (cpu : s.cpu = .scan k c) (seen : Seen t k c) (woken : Woken t s.proc) :
    ∃ u c', s.after ws = some u ∧ u.cpu = .scan (k + n) c' ∧ Seen t (k + n) c' ∧
      Woken t u.proc := by
  induction h generalizing s k c with
  | nil => exact ⟨s, c, rfl, cpu, seen, woken⟩
  | @scan n ws h ih =>
    have hk : k < NPROC := by omega
    have step : s.step .scan = some { s with cpu := .scan (k + 1) (consider s.proc c ⟨k, hk⟩) } := by
      unfold Machine.step scanStep
      simp only [cpu]
      rw [dif_pos hk]
    obtain ⟨u, c', after, hu⟩ := ih (k := k + 1) (by omega)
      (s := { s with cpu := .scan (k + 1) (consider s.proc c ⟨k, hk⟩) }) rfl
      (seen.consider woken hk) woken
    rw [Nat.add_right_comm] at hu
    refine ⟨u, c', ?_, hu⟩
    unfold Machine.after
    rw [step]
    exact after
  | wakeup h j space ih =>
    have step : s.step (.wakeup j space) = some (s.wakeupStep j space) := by
      unfold Machine.step
      simp only [cpu]
    obtain ⟨u, c', after, hu⟩ := ih hn ((wakeupStep_cpu j space).trans cpu) seen
      (woken.wakeupStep j space)
    refine ⟨u, c', ?_, hu⟩
    unfold Machine.after
    rw [step]
    exact after

theorem after_append (s : Machine) (as bs : List Act) :
    s.after (as ++ bs) = (s.after as).bind fun t => t.after bs := by
  induction as generalizing s with
  | nil => rfl
  | cons a as ih =>
    cases ha : s.step a with
    | none => simp [after, ha]
    | some t => simp [after, ha, ih]

theorem after_scans (cpu : s.cpu = .scan 0 .start) (hk : k ≤ NPROC) :
    s.after (List.replicate k .scan) = some
      { s with cpu := .scan k (((List.finRange NPROC).take k).foldl (consider s.proc) .start) } := by
  induction k with
  | zero =>
    rw [List.replicate_zero, List.take_zero, List.foldl_nil, ← cpu]
    rfl
  | succ k ih =>
    have lt : k < (List.finRange NPROC).length := by
      rw [List.length_finRange]
      exact hk
    rw [List.replicate_succ', after_append, ih (by omega), List.take_succ_eq_append_getElem lt,
      List.foldl_append]
    simp only [Option.bind_some, after, Machine.step, scanStep, List.getElem_finRange]
    rw [dif_pos (by omega)]
    rfl

/-- The loop over the table, with no interrupt, dispatches what `choose` gives. -/
theorem after_pass (cpu : s.cpu = .scan 0 .start) :
    s.after (List.replicate (NPROC + 1) .scan) =
      some (match choose s.proc with | some c => s.dispatchTo c | none => s) := by
  have all : (List.finRange NPROC).take NPROC = List.finRange NPROC :=
    List.take_of_length_le (by rw [List.length_finRange])
  rw [List.replicate_succ', after_append, after_scans cpu (le_refl _), all]
  unfold choose
  change Machine.after { s with cpu := _ } [.scan] = _
  unfold Machine.after Machine.step scanStep
  dsimp only
  rw [dif_neg (lt_irrefl _)]
  change _ = some (match ((List.finRange NPROC).foldl (consider s.proc) .start).chosen with
    | some c => s.dispatchTo c | none => s)
  cases ((List.finRange NPROC).foldl (consider s.proc) .start).chosen with
  | none =>
    dsimp only [Option.bind_some, Machine.after]
    rw [← cpu]
  | some c => rfl

end Scan

theorem choose_init : choose init.proc = some proczero := by
  have only : ∀ i, (init.proc i).state = .runnable → i = proczero := by
    intro i hi
    by_contra hne
    simp [init, Function.update_of_ne hne, procInit] at hi
  obtain ⟨c, hc⟩ := exists_choose (t := init.proc) (i := proczero) (by simp [init])
  rw [hc, only c (choose_spec hc).1]

end Machine

end EasyXv6.Proc
