import EasyXv6.Proc.Machine

set_option autoImplicit false

/-!
# No wakeup is lost between exit and wait

`wait_lock` is held only inside a critical section, so it is free between any two steps.
-/
namespace EasyXv6.Proc
namespace Machine

/-- The channel of `sys_sleep` and of the sleeplocks: no slot of the process table. -/
def OtherChan : Act → Prop
  | .sleep space => ∃ a, space = .addr a
  | _ => True

/-- `p` sleeps in `proc_wait`. -/
def Waits (s : Machine) (p : Fin NPROC) : Prop :=
  (s.proc p).state = .sleeping ∧ (s.proc p).sleepSpace = some (.proc p)

structure Woke (s : Machine) : Prop where
  onCpu : ∀ i, s.cpu = .run i → (s.proc i).state ≠ .sleeping
  waits : ∀ p, s.Waits p → ∀ c, (s.proc c).parent = some p → (s.proc c).state ≠ .zombie

section Invariant

variable {s s' : Machine} {i j : Fin NPROC} {p q : ProcT}

/-- The slot does not begin to sleep, to be a zombie or to be a zombie's parent. -/
structure Quiet (p q : ProcT) : Prop where
  sleeping : q.state = .sleeping → p.state = .sleeping ∧ q.sleepSpace = p.sleepSpace
  zombie : q.state = .zombie → p.state = .zombie ∧ q.parent = p.parent

theorem Quiet.refl (p : ProcT) : Quiet p p := ⟨fun h => ⟨h, rfl⟩, fun h => ⟨h, rfl⟩⟩

theorem Quiet.of_state (hs : q.state ≠ .sleeping) (hz : q.state ≠ .zombie) : Quiet p q :=
  ⟨fun h => absurd h hs, fun h => absurd h hz⟩

theorem Quiet.of_same (state : q.state = p.state) (space : q.sleepSpace = p.sleepSpace)
    (parent : q.parent = p.parent) : Quiet p q :=
  ⟨fun h => ⟨state ▸ h, space⟩, fun h => ⟨state ▸ h, parent⟩⟩

theorem Quiet.update {t : Table} (h : Quiet (t i) p) (j : Fin NPROC) :
    Quiet (t j) (Function.update t i p j) := by
  by_cases hj : j = i
  · subst hj
    rw [Function.update_self]
    exact h
  · rw [Function.update_of_ne hj]
    exact .refl _

/-- Steps after which no slot is new in a state that matters. -/
theorem Woke.quiet (h : Woke s) (cpu : ∀ i, s'.cpu = .run i → (s'.proc i).state ≠ .sleeping)
    (all : ∀ j, Quiet (s.proc j) (s'.proc j)) : Woke s' := by
  refine ⟨cpu, ?_⟩
  intro p ⟨hs, hspace⟩ c hparent hz
  obtain ⟨sleeping, space⟩ := (all p).sleeping hs
  obtain ⟨zombie, parent⟩ := (all c).zombie hz
  exact h.waits p ⟨sleeping, space ▸ hspace⟩ c (parent ▸ hparent) zombie

/-- A step of a process that stays on the CPU. -/
theorem Woke.stay (h : Woke s) (cpu : s'.cpu = s.cpu)
    (all : ∀ j, Quiet (s.proc j) (s'.proc j)) : Woke s' := by
  refine h.quiet ?_ all
  intro i hc hs
  exact h.onCpu i (cpu ▸ hc) ((all i).sleeping hs).1

theorem init_woke : Woke init := by
  refine ⟨?_, ?_⟩
  · intro i h
    cases h
  · rintro p ⟨hs, -⟩
    by_cases hp : p = proczero
    · subst hp
      simp [init] at hs
    · simp [init, Function.update_of_ne hp, procInit] at hs

theorem Woke.dispatchTo (h : Woke s) (i : Fin NPROC) : Woke (s.dispatchTo i) := by
  have self : ((s.dispatchTo i).proc i).state = .running := by
    unfold Machine.dispatchTo
    cases s.loc i <;> simp [dispatch]
  have cpu : (s.dispatchTo i).cpu = .run i := by
    unfold Machine.dispatchTo
    cases s.loc i <;> rfl
  have rest : ∀ j, j ≠ i → (s.dispatchTo i).proc j = s.proc j := by
    intro j hj
    unfold Machine.dispatchTo
    cases s.loc i <;> simp [dispatch, setProc, Function.update_of_ne hj]
  refine h.quiet ?_ ?_
  · intro k hc
    rw [cpu] at hc
    cases hc
    rw [self]
    simp
  · intro j
    by_cases hj : j = i
    · subst hj
      exact .of_state (by simp [self]) (by simp [self])
    · rw [rest j hj]
      exact .refl _

theorem Woke.scanStep (h : Woke s) (hs : s.scanStep = some s') : Woke s' := by
  unfold Machine.scanStep at hs
  split at hs
  · split at hs
    · cases hs
      refine h.quiet ?_ fun j => .refl _
      intro i hi
      cases hi
    · split at hs
      · cases hs
        refine h.quiet ?_ fun j => .refl _
        intro i hi
        cases hi
      · cases hs
        exact h.dispatchTo _
  · cases hs

theorem Woke.ageStep (h : Woke s) (hs : s.ageStep = some s') : Woke s' := by
  unfold Machine.ageStep at hs
  split at hs
  next k lastRun hc =>
    split at hs
    · cases hs
      refine h.quiet ?_ ?_
      · intro i hi
        cases hi
      · refine fun j => Quiet.update ?_ j
        unfold boostOne
        split
        · exact .refl _
        · split
          · exact .refl _
          · dsimp only
            split
            · exact .of_same rfl rfl rfl
            · exact .refl _
    · cases hs
      refine h.quiet ?_ fun j => .refl _
      intro i hi
      cases hi
  · cases hs

theorem Woke.wakeupStep (h : Woke s) (space : Chan) : Woke (s.wakeupStep j space) := by
  unfold Machine.wakeupStep
  split
  · exact h.stay rfl fun k => Quiet.update (.of_state (by simp) (by simp)) k
  · exact h

theorem Woke.killStep (h : Woke s) : Woke (s.killStep j) := by
  refine h.stay rfl fun k => Quiet.update ?_ k
  by_cases hs : (s.proc j).state = .sleeping
  · exact .of_state (by simp [hs]) (by simp [hs])
  · exact .of_same (if_neg hs) rfl rfl

theorem Woke.yieldStep (h : Woke s) : Woke (s.yieldStep i) := by
  refine h.quiet ?_ fun k => Quiet.update (.of_state (by simp) (by simp)) k
  intro k hk
  cases hk

theorem Woke.setPriorityStep (h : Woke s) (priority : ℤ) :
    Woke (s.setPriorityStep i priority) := by
  unfold Machine.setPriorityStep
  split
  · exact h
  · refine h.stay rfl fun k => Quiet.update (t := s.proc) (i := i) ?_ k
    exact .of_same rfl rfl rfl

/-- A process that goes to sleep must have no zombie child if it sleeps on itself. -/
theorem Woke.sleepStep (h : Woke s) {space : Chan}
    (childless : space = .proc i → ∀ c, (s.proc c).parent = some i → (s.proc c).state ≠ .zombie) :
    Woke (s.sleepStep i space) := by
  have self : (s.sleepStep i space).proc i =
      { s.proc i with sleepSpace := some space, state := .sleeping } := setProc_proc_self ..
  have rest : ∀ j, j ≠ i → (s.sleepStep i space).proc j = s.proc j :=
    fun j hj => setProc_proc_of_ne s hj _
  refine ⟨?_, ?_⟩
  · intro k hk
    cases hk
  · rintro p ⟨hs, hspace⟩ c hparent hz
    have hc : c ≠ i := by
      rintro rfl
      rw [self] at hz
      cases hz
    rw [rest c hc] at hparent hz
    by_cases hp : p = i
    · subst hp
      rw [self] at hspace
      exact childless (Option.some.inj hspace) c hparent hz
    · rw [rest p hp] at hs hspace
      exact h.waits p ⟨hs, hspace⟩ c hparent hz

theorem Woke.waitStep (h : Woke s) : Woke (s.waitStep i) := by
  unfold Machine.waitStep
  split
  · exact h.stay rfl fun k => Quiet.update (.of_state (by simp [ProcT.freed])
      (by simp [ProcT.freed])) k
  next none =>
  split
  · exact h
  · apply h.sleepStep
    intro _ c hparent hz
    have := List.find?_eq_none.mp none c (List.mem_finRange c)
    simp [hparent, hz] at this

theorem Woke.allocStep (h : Woke s) (k tf pgtbl : ℕ) : Woke (s.allocStep i k tf pgtbl) := by
  unfold Machine.allocStep
  split
  · dsimp only
    split
    · exact h.stay rfl fun k => Quiet.update (.of_state (by simp [ProcT.dupFiles, ProcT.found])
        (by simp [ProcT.dupFiles, ProcT.found])) k
    · exact h.stay rfl fun k => .refl _
  · exact h.stay rfl fun k => .refl _

/-- The new parent is on the CPU, so it does not sleep. -/
theorem Woke.linkStep (h : Woke s) (hc : s.cpu = .run i) (np : Fin NPROC) (pid : ℤ) :
    Woke (s.linkStep i np pid) := by
  have self : (s.linkStep i np pid).proc np = { s.proc np with
    parent := some i, priority := (s.proc i).priority
    priorityBoost := (s.proc i).priorityBoost } := setProc_proc_self ..
  have rest : ∀ j, j ≠ np → (s.linkStep i np pid).proc j = s.proc j :=
    fun j hj => setProc_proc_of_ne s hj _
  have same : ∀ j, ((s.linkStep i np pid).proc j).state = (s.proc j).state ∧
      ((s.linkStep i np pid).proc j).sleepSpace = (s.proc j).sleepSpace := by
    intro j
    by_cases hj : j = np
    · subst hj
      rw [self]
      exact ⟨rfl, rfl⟩
    · rw [rest j hj]
      exact ⟨rfl, rfl⟩
  refine ⟨?_, ?_⟩
  · intro k hk
    rw [(same k).1]
    exact h.onCpu k hk
  · rintro p ⟨hs, hspace⟩ c hparent hz
    rw [(same p).1] at hs
    rw [(same p).2] at hspace
    rw [(same c).1] at hz
    by_cases hcn : c = np
    · subst hcn
      rw [self] at hparent
      cases hparent
      exact h.onCpu i hc hs
    · rw [rest c hcn] at hparent
      exact h.waits p ⟨hs, hspace⟩ c hparent hz

section Exit

/-- A process that waits has no zombie child: the table alone. -/
def Tidy (t : Table) : Prop :=
  ∀ p, (t p).state = .sleeping → (t p).sleepSpace = some (.proc p) →
    ∀ c, (t c).parent = some p → (t c).state ≠ .zombie

theorem wakeupOne_quiet (t : Table) (p j : Fin NPROC) : Quiet (t j) (wakeupOne t p j) := by
  unfold wakeupOne
  split
  · exact Quiet.update (.of_state (by simp) (by simp)) j
  · exact .refl _

/-- After `proc_wakeup_one` the process does not wait. -/
theorem wakeupOne_wakes (t : Table) (p : Fin NPROC) :
    (wakeupOne t p p).state = .sleeping → (wakeupOne t p p).sleepSpace ≠ some (.proc p) := by
  unfold wakeupOne
  split
  next => simp
  next h => exact fun hs hspace => h ⟨hs, hspace⟩

theorem Tidy.quiet {t t' : Table} (h : Tidy t) (all : ∀ j, Quiet (t j) (t' j)) : Tidy t' := by
  intro p hs hspace c hparent hz
  obtain ⟨sleeping, space⟩ := (all p).sleeping hs
  obtain ⟨zombie, parent⟩ := (all c).zombie hz
  exact h p sleeping (space ▸ hspace) c (parent ▸ hparent) zombie

/-- A child passes to `proczero`, which is woken for it. -/
theorem Tidy.reparentOne {t : Table} (h : Tidy t) (parent pp : Fin NPROC) :
    Tidy (reparentOne parent t pp) := by
  unfold Machine.reparentOne
  split
  swap
  · exact h
  generalize hu : Function.update t pp { t pp with parent := some proczero } = u
  have same : ∀ j, (u j).state = (t j).state ∧ (u j).sleepSpace = (t j).sleepSpace := by
    intro j
    rw [← hu]
    by_cases hj : j = pp
    · subst hj
      rw [Function.update_self]
      exact ⟨rfl, rfl⟩
    · rw [Function.update_of_ne hj]
      exact ⟨rfl, rfl⟩
  intro p hs hspace c hparent hz
  by_cases hp : p = proczero
  · subst hp
    exact wakeupOne_wakes u proczero hs hspace
  obtain ⟨sleeping, space⟩ := (wakeupOne_quiet u proczero p).sleeping hs
  obtain ⟨zombie, par⟩ := (wakeupOne_quiet u proczero c).zombie hz
  rw [par] at hparent
  rw [(same p).1] at sleeping
  rw [space, (same p).2] at hspace
  rw [(same c).1] at zombie
  have hc : c ≠ pp := by
    rintro rfl
    rw [← hu, Function.update_self] at hparent
    exact hp (Option.some.inj hparent).symm
  rw [← hu, Function.update_of_ne hc] at hparent
  exact h p sleeping hspace c hparent zombie

theorem Tidy.reparent {t : Table} (h : Tidy t) (parent : Fin NPROC) : Tidy (reparent t parent) := by
  unfold Machine.reparent
  induction List.finRange NPROC generalizing t with
  | nil => exact h
  | cons pp rest ih => exact ih (h.reparentOne parent pp)

/-- The process becomes a zombie after its parent has been woken. -/
theorem Woke.exitStep (h : Woke s) {state : ℤ} (hs : s.exitStep i state = some s') : Woke s' := by
  unfold Machine.exitStep at hs
  split at hs
  · cases hs
  dsimp only at hs
  have tidy : Tidy (reparent s.proc i) :=
    Tidy.reparent (fun p hsl hspace c hparent => h.waits p ⟨hsl, hspace⟩ c hparent) i
  generalize reparent s.proc i = t at hs tidy
  split at hs
  · cases hs
  next q hq =>
  have tidy' : Tidy (wakeupOne t q) := tidy.quiet (wakeupOne_quiet t q)
  have asleep := wakeupOne_wakes t q
  have hparent : (wakeupOne t q i).parent = some q := by
    rw [← hq]
    unfold wakeupOne
    split
    · by_cases hi : i = q
      · subst hi
        rw [Function.update_self]
      · rw [Function.update_of_ne hi]
    · rfl
  generalize wakeupOne t q = u at hs tidy' asleep hparent
  have proc : s'.proc = Function.update u i
      { u i with ofile := fun _ => none, xstate := state, state := .zombie } := by
    cases hs
    rfl
  have cpu : s'.cpu = .age 0 i := by
    cases hs
    rfl
  refine ⟨?_, ?_⟩
  · intro k hk
    rw [cpu] at hk
    cases hk
  · rintro p ⟨hsl, hspace⟩ c hpar hz
    have hp : p ≠ i := by
      rintro rfl
      rw [proc, Function.update_self] at hsl
      cases hsl
    rw [proc, Function.update_of_ne hp] at hsl hspace
    by_cases hc : c = i
    · subst hc
      rw [proc, Function.update_self] at hpar
      change (u c).parent = some p at hpar
      rw [hparent] at hpar
      cases hpar
      exact asleep hsl hspace
    · rw [proc, Function.update_of_ne hc] at hpar hz
      exact tidy' p hsl hspace c hpar hz

end Exit

theorem Woke.step (h : Woke s) {a : Act} (ha : OtherChan a) (hs : s.step a = some s') :
    Woke s' := by
  cases a with
  | scan => exact h.scanStep hs
  | age => exact h.ageStep hs
  | wakeup j space =>
    simp only [Machine.step, procStep] at hs
    split at hs
    · split at hs
      · cases hs
      · cases hs
        exact h.wakeupStep space
    · cases hs
      exact h.wakeupStep space
  | preempt =>
    simp only [Machine.step, procStep] at hs
    split at hs
    · split at hs
      · cases hs
        exact h.yieldStep
      · cases hs
    · cases hs
  | sleep space =>
    simp only [Machine.step, procStep] at hs
    split at hs
    · split at hs
      · cases hs
        obtain ⟨a, rfl⟩ := ha
        apply h.sleepStep
        intro eq
        cases eq
      · cases hs
    · cases hs
  | kill j =>
    simp only [Machine.step, procStep] at hs
    split at hs
    · split at hs
      · cases hs
        exact h.killStep
      · cases hs
    · cases hs
  | setPriority priority =>
    simp only [Machine.step, procStep] at hs
    split at hs
    · split at hs
      · cases hs
        exact h.setPriorityStep priority
      · cases hs
    · cases hs
  | exit state =>
    simp only [Machine.step, procStep] at hs
    split at hs
    · split at hs
      · exact h.exitStep hs
      · cases hs
    · cases hs
  | wait =>
    simp only [Machine.step, procStep] at hs
    split at hs
    · split at hs
      · cases hs
        exact h.waitStep
      · cases hs
    · cases hs
  | fork =>
    simp only [Machine.step, procStep] at hs
    split at hs
    · split at hs
      · cases hs
        exact h.stay rfl fun j => .refl _
      · cases hs
    · cases hs
  | allocSlot tf pgtbl =>
    simp only [Machine.step, procStep] at hs
    split at hs
    · split at hs
      · cases hs
        exact h.allocStep _ tf pgtbl
      · cases hs
    · cases hs
  | link =>
    simp only [Machine.step, procStep] at hs
    split at hs
    next hc =>
      split at hs
      · cases hs
        exact h.linkStep hc _ _
      · cases hs
    · cases hs
  | publish =>
    simp only [Machine.step, procStep] at hs
    split at hs
    · split at hs
      · cases hs
        exact h.stay rfl fun k => Quiet.update (.of_state (by simp) (by simp)) k
      · cases hs
    · cases hs

theorem Woke.after {as : List Act} (h : Woke s) (chans : ∀ a ∈ as, OtherChan a)
    (hs : s.after as = some s') : Woke s' := by
  induction as generalizing s with
  | nil =>
    cases hs
    exact h
  | cons a as ih =>
    obtain ⟨t, ht, hs⟩ := Option.bind_eq_some_iff.mp hs
    exact ih (h.step (chans a List.mem_cons_self) ht)
      (fun b hb => chans b (List.mem_cons_of_mem _ hb)) hs

end Invariant

/-- In every state that is reached, a process that sleeps in `proc_wait` has no zombie child. -/
theorem no_lost_wakeup {as : List Act} {s : Machine} (chans : ∀ a ∈ as, OtherChan a)
    (hs : init.after as = some s) {p c : Fin NPROC} (hp : s.Waits p)
    (hc : (s.proc c).parent = some p) : (s.proc c).state ≠ .zombie :=
  (init_woke.after chans hs).waits p hp c hc

/-- `proczero` forks and waits for its child. -/
def waiting : List Act :=
  List.replicate 65 .scan ++
    [.fork, .allocSlot 8192 12288, .allocSlot 8192 12288, .link, .publish, .wait]

theorem waiting_reached : (init.after waiting).map (fun t =>
    decide ((t.proc 0).state = .sleeping ∧ (t.proc 0).sleepSpace = some (.proc 0) ∧
      (t.proc 1).parent = some 0)) = some true := by
  decide +kernel

theorem no_lost_wakeup_waiting : ∃ s, init.after waiting = some s ∧ s.Waits 0 ∧
    (s.proc 1).parent = some 0 ∧ (s.proc 1).state ≠ .zombie := by
  obtain ⟨s, hs, reached⟩ := Option.map_eq_some_iff.mp waiting_reached
  obtain ⟨sleeping, space, parent⟩ := of_decide_eq_true reached
  refine ⟨s, hs, ⟨sleeping, space⟩, parent, ?_⟩
  refine no_lost_wakeup ?_ hs ⟨sleeping, space⟩ parent
  intro a ha
  simp only [waiting, List.mem_append, List.mem_replicate, List.mem_cons, List.not_mem_nil,
    or_false] at ha
  rcases ha with ⟨-, rfl⟩ | rfl | rfl | rfl | rfl | rfl | rfl <;> trivial

end Machine

end EasyXv6.Proc
