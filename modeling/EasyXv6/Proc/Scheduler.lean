import EasyXv6.Proc.Table
import EasyXv6.Lib.Cooldown

set_option autoImplicit false

/-!
# The scheduler (proc.c)

A round: `proc_scheduler` picks a process, which runs and becomes RUNNABLE again, and the waiting
processes age.
-/
namespace EasyXv6.Proc
open Lib

def effectivePriority (p : ProcT) : ℤ :=
  let eff := p.priority + p.priorityBoost
  if eff > PRIORITY_MAX then PRIORITY_MAX else eff

/-- The body of the loop of `boost_waiting_processes`. -/
def boostOne (lastRun idx : Fin NPROC) (p : ProcT) : ProcT :=
  if idx = lastRun then p
  else if p.state ≠ .runnable then p
  else
    let maxBoost := PRIORITY_MAX - p.priority
    if p.priorityBoost < maxBoost then { p with priorityBoost := p.priorityBoost + 1 } else p

def boostWaitingProcesses (t : Table) (lastRun : Fin NPROC) : Table := fun idx =>
  boostOne lastRun idx (t idx)

/-- `chosen` and `best_priority` -/
structure Choice where
  chosen : Option (Fin NPROC)
  bestPriority : ℤ

/-- The body of the scheduler's loop over the table. -/
def consider (t : Table) (c : Choice) (i : Fin NPROC) : Choice :=
  if (t i).state ≠ .runnable then c
  else
    let eff := effectivePriority (t i)
    match c.chosen with
    | none => ⟨some i, eff⟩
    | some j =>
      if eff > c.bestPriority ∨ (eff = c.bestPriority ∧ (t i).pid < (t j).pid) then ⟨some i, eff⟩
      else c

def choose (t : Table) : Option (Fin NPROC) :=
  ((List.finRange NPROC).foldl (consider t) ⟨none, PRIORITY_MIN - 1⟩).chosen

def dispatch (t : Table) (c : Fin NPROC) : Table :=
  Function.update t c { t c with state := .running, priorityBoost := 0 }

def procYield (t : Table) (c : Fin NPROC) : Table :=
  Function.update t c { t c with state := .runnable }

/-- With no RUNNABLE process the scheduler waits for an interrupt. -/
def round (t : Table) : Table :=
  match choose t with
  | some c => boostWaitingProcesses (procYield (dispatch t c) c) c
  | none => t

def tableAt (t : Table) : ℕ → Table
  | 0 => t
  | k + 1 => round (tableAt t k)

/-- The process that the round `k` picks. -/
def picked (t : Table) (k : ℕ) : Option (Fin NPROC) := choose (tableAt t k)

section Choose

variable {t : Table} {i j c : Fin NPROC}

/-- `i` goes before `j`: a higher effective priority, or the same and a smaller pid. -/
def Before (t : Table) (i j : Fin NPROC) : Prop :=
  effectivePriority (t j) < effectivePriority (t i) ∨
    (effectivePriority (t i) = effectivePriority (t j) ∧ (t i).pid ≤ (t j).pid)

theorem Before.trans (h : Before t i j) (h' : Before t j c) : Before t i c := by
  unfold Before at *
  omega

/-- What the loop keeps after the slots of `is`. -/
def Best (t : Table) (is : List (Fin NPROC)) (c : Choice) : Prop :=
  match c.chosen with
  | none => ∀ i ∈ is, (t i).state ≠ .runnable
  | some j => (t j).state = .runnable ∧ c.bestPriority = effectivePriority (t j) ∧
      ∀ i ∈ is, (t i).state = .runnable → Before t j i

theorem Best.consider {is : List (Fin NPROC)} {c : Choice} (h : Best t is c) (i : Fin NPROC) :
    Best t (is ++ [i]) (consider t c i) := by
  unfold Proc.consider
  obtain ⟨chosen, best⟩ := c
  by_cases hs : (t i).state = .runnable
  · simp only [hs, ne_eq, not_true_eq_false, ↓reduceIte]
    cases chosen with
    | none =>
      refine ⟨hs, rfl, ?_⟩
      intro k hk hr
      rcases List.mem_append.mp hk with hk | hk
      · exact absurd hr (h k hk)
      · rw [List.mem_singleton.mp hk]
        exact Or.inr ⟨rfl, le_refl _⟩
    | some j =>
      obtain ⟨hj, rfl, hb⟩ := h
      dsimp only
      split
      next hlt =>
        have first : Before t i j := by
          unfold Before
          omega
        refine ⟨hs, rfl, ?_⟩
        intro k hk hr
        rcases List.mem_append.mp hk with hk | hk
        · exact first.trans (hb k hk hr)
        · rw [List.mem_singleton.mp hk]
          exact Or.inr ⟨rfl, le_refl _⟩
      next hge =>
        refine ⟨hj, rfl, ?_⟩
        intro k hk hr
        rcases List.mem_append.mp hk with hk | hk
        · exact hb k hk hr
        · rw [List.mem_singleton.mp hk]
          unfold Before
          omega
  · simp only [hs, ne_eq, not_false_eq_true, ↓reduceIte]
    have other : ∀ k ∈ is ++ [i], (t k).state = .runnable → k ∈ is := by
      intro k hk hr
      rcases List.mem_append.mp hk with hk | hk
      · exact hk
      · exact absurd (List.mem_singleton.mp hk ▸ hr) hs
    cases chosen with
    | none => exact fun k hk hr => h k (other k hk hr) hr
    | some j => exact ⟨h.1, h.2.1, fun k hk hr => h.2.2 k (other k hk hr) hr⟩

theorem best_foldl (t : Table) (is js : List (Fin NPROC)) {c : Choice} (h : Best t js c) :
    Best t (js ++ is) (is.foldl (consider t) c) := by
  induction is generalizing js c with
  | nil => simpa using h
  | cons i is ih =>
    have := ih (js ++ [i]) (h.consider i)
    rwa [List.append_assoc] at this

theorem best_choose (t : Table) :
    Best t (List.finRange NPROC)
      ((List.finRange NPROC).foldl (consider t) ⟨none, PRIORITY_MIN - 1⟩) :=
  best_foldl t (List.finRange NPROC) [] (c := ⟨none, PRIORITY_MIN - 1⟩) (by simp [Best])

/-- The scheduler picks a RUNNABLE process that goes before every other. -/
theorem choose_spec (h : choose t = some c) :
    (t c).state = .runnable ∧ ∀ i, (t i).state = .runnable → Before t c i := by
  have best := best_choose t
  unfold Best at best
  unfold choose at h
  rw [h] at best
  exact ⟨best.1, fun i hi => best.2.2 i (List.mem_finRange i) hi⟩

theorem exists_choose (h : (t i).state = .runnable) : ∃ c, choose t = some c := by
  have best := best_choose t
  cases hc : choose t with
  | some c => exact ⟨c, rfl⟩
  | none =>
    unfold Best at best
    unfold choose at hc
    rw [hc] at best
    exact absurd h (best i (List.mem_finRange i))

end Choose

section Round

variable {t : Table} {i j c : Fin NPROC}

/-- Legal static priorities and boosts, and distinct pids. -/
structure Legal (t : Table) : Prop where
  priority : ∀ i, (t i).state = .runnable →
    PRIORITY_MIN ≤ (t i).priority ∧ (t i).priority ≤ PRIORITY_MAX
  boost : ∀ i, (t i).state = .runnable →
    0 ≤ (t i).priorityBoost ∧ (t i).priorityBoost ≤ PRIORITY_MAX - (t i).priority
  pid : ∀ i j, (t i).state = .runnable → (t j).state = .runnable → (t i).pid = (t j).pid → i = j

/-- The sum that `effective_priority` caps; it never exceeds the cap. -/
def level (t : Table) (i : Fin NPROC) : ℤ := (t i).priority + (t i).priorityBoost

theorem Legal.effectivePriority (h : Legal t) (hi : (t i).state = .runnable) :
    effectivePriority (t i) = level t i ∧ (t i).priority ≤ level t i ∧ level t i ≤ PRIORITY_MAX := by
  have := h.boost i hi
  unfold Proc.effectivePriority level
  dsimp only
  split <;> omega

theorem round_eq (h : choose t = some c) (i : Fin NPROC) :
    round t i = if i = c then { t c with state := .runnable, priorityBoost := 0 }
      else if (t i).state = .runnable ∧ (t i).priorityBoost < PRIORITY_MAX - (t i).priority then
        { t i with priorityBoost := (t i).priorityBoost + 1 }
      else t i := by
  unfold round
  rw [h]
  simp only [boostWaitingProcesses, boostOne, procYield, dispatch]
  by_cases hi : i = c
  · simp [hi]
  · simp only [hi, ↓reduceIte, Function.update_of_ne, ne_eq, not_false_eq_true]
    by_cases hs : (t i).state = .runnable <;> simp [hs]

theorem round_state (i : Fin NPROC) : (round t i).state = (t i).state := by
  cases hc : choose t with
  | none => simp [round, hc]
  | some c =>
    rw [round_eq hc]
    split
    next h => rw [h, (choose_spec hc).1]
    next => split <;> rfl

theorem round_pid (i : Fin NPROC) : (round t i).pid = (t i).pid := by
  cases hc : choose t with
  | none => simp [round, hc]
  | some c =>
    rw [round_eq hc]
    split
    next h => rw [h]
    next => split <;> rfl

theorem round_priority (i : Fin NPROC) : (round t i).priority = (t i).priority := by
  cases hc : choose t with
  | none => simp [round, hc]
  | some c =>
    rw [round_eq hc]
    split
    next h => rw [h]
    next => split <;> rfl

theorem level_round_picked (h : choose t = some c) : level (round t) c = (t c).priority := by
  unfold level
  rw [round_eq h, if_pos rfl]
  simp

theorem level_round_waiting (legal : Legal t) (hi : (t i).state = .runnable)
    (h : choose t = some c) (hne : i ≠ c) :
    level (round t) i = if level t i < PRIORITY_MAX then level t i + 1 else level t i := by
  have := legal.boost i hi
  unfold level
  rw [round_eq h, if_neg hne]
  simp only [hi, true_and]
  split
  · rw [if_pos (by omega)]
    dsimp only
    omega
  · rw [if_neg (by omega)]

theorem Legal.round (h : Legal t) : Legal (round t) := by
  refine ⟨?_, ?_, ?_⟩
  · intro i hi
    rw [round_state] at hi
    rw [round_priority]
    exact h.priority i hi
  · intro i hi
    rw [round_state] at hi
    have hp := h.priority i hi
    have hb := h.boost i hi
    obtain ⟨c, hc⟩ := exists_choose hi
    rw [round_priority, round_eq hc]
    split
    · dsimp only
      omega
    · split
      · dsimp only
        omega
      · exact hb
  · intro i j hi hj
    rw [round_state] at hi hj
    rw [round_pid, round_pid]
    exact h.pid i j hi hj

end Round

section Runs

variable {t : Table} {i j c : Fin NPROC}

theorem Legal.tableAt (h : Legal t) (k : ℕ) : Legal (tableAt t k) := by
  induction k with
  | zero => exact h
  | succ k ih => exact ih.round

theorem tableAt_state (k : ℕ) : (tableAt t k i).state = (t i).state := by
  induction k with
  | zero => rfl
  | succ k ih => exact (round_state i).trans ih

theorem tableAt_pid (k : ℕ) : (tableAt t k i).pid = (t i).pid := by
  induction k with
  | zero => rfl
  | succ k ih => exact (round_pid i).trans ih

theorem tableAt_priority (k : ℕ) : (tableAt t k i).priority = (t i).priority := by
  induction k with
  | zero => rfl
  | succ k ih => exact (round_priority i).trans ih

/-- A process that is passed over from round `k` on reaches the cap after as many rounds as it is
    below it, and stays there. -/
theorem level_waiting (h : Legal t) (hi : (t i).state = .runnable) (k m : ℕ)
    (wait : ∀ s, k ≤ s → s < k + m → picked t s ≠ some i) :
    level (tableAt t k) i + m ≤ level (tableAt t (k + m)) i ∨
      level (tableAt t (k + m)) i = PRIORITY_MAX := by
  induction m with
  | zero => exact Or.inl (by simp)
  | succ m ih =>
    have hr : (tableAt t (k + m) i).state = .runnable := (tableAt_state _).trans hi
    obtain ⟨c, hc⟩ := exists_choose hr
    have hne : i ≠ c := by
      rintro rfl
      exact wait (k + m) (by omega) (by omega) hc
    have step := level_round_waiting (h.tableAt (k + m)) hr hc hne
    have cap := ((h.tableAt (k + m)).effectivePriority hr).2.2
    change _ ≤ level (round (tableAt t (k + m))) i ∨ level (round (tableAt t (k + m))) i = _
    rw [step]
    have ih := ih fun s h1 h2 => wait s h1 (by omega)
    split <;> omega

/-- A process rises by at most one level a round. -/
theorem level_le (h : Legal t) (hi : (t i).state = .runnable) (k m : ℕ) :
    level (tableAt t (k + m)) i ≤ level (tableAt t k) i + m := by
  induction m with
  | zero => simp
  | succ m ih =>
    have hr : (tableAt t (k + m) i).state = .runnable := (tableAt_state _).trans hi
    obtain ⟨c, hc⟩ := exists_choose hr
    change level (round (tableAt t (k + m))) i ≤ _
    by_cases hne : i = c
    · subst hne
      have base := ((h.tableAt (k + m)).effectivePriority hr).2.1
      rw [level_round_picked hc]
      omega
    · rw [level_round_waiting (h.tableAt (k + m)) hr hc hne]
      split <;> omega

end Runs

end EasyXv6.Proc
