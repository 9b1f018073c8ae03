import EasyXv6.Proc.Scheduler

set_option autoImplicit false

/-!
# Round robin among equals

There is no queue. The processes take turns because each rises by one level in every round in which
it waits, and the level of none reaches the cap before its turn comes.
-/
namespace EasyXv6.Proc

/-- Exactly the processes `q`, by increasing pid, are RUNNABLE, all of static priority `p` and
    boost 0. -/
structure Equals (t : Table) {k : ℕ} (p : ℤ) (q : Fin k → Fin NPROC) : Prop where
  runnable : ∀ i, (t i).state = .runnable ↔ ∃ j, q j = i
  pid : StrictMono fun j => (t (q j)).pid
  priority : ∀ j, (t (q j)).priority = p
  boost : ∀ j, (t (q j)).priorityBoost = 0

/-- The rounds that the process `j` of `k` has waited before round `i`. -/
def waited (k i j : ℕ) : ℕ := if i ≤ j then i else (i - 1 - j) % k

section Turns

variable {k i j : ℕ}

theorem mod_succ (hk : 0 < k) (n : ℕ) : (n + 1) % k = if n % k = k - 1 then 0 else n % k + 1 := by
  have lt := Nat.mod_lt n hk
  by_cases one : k = 1
  · subst one
    simp [Nat.mod_one]
  · rw [Nat.add_mod_eq_ite, Nat.mod_eq_of_lt (by omega : 1 < k)]
    split <;> split <;> omega

/-- A process has waited `k - 1` rounds since its turn when its next turn comes. -/
theorem sub_mod_eq (hj : j < k) (hi : j < i) : (i - 1 - j) % k = k - 1 ↔ j = i % k := by
  have turn : (i - j) % k = 0 ↔ j = i % k := by
    rw [← Nat.dvd_iff_mod_eq_zero, ← Nat.modEq_iff_dvd' hi.le]
    unfold Nat.ModEq
    rw [Nat.mod_eq_of_lt hj]
  have next := mod_succ (by omega : 0 < k) (i - 1 - j)
  rw [show i - 1 - j + 1 = i - j by omega] at next
  rw [← turn, next]
  split <;> omega

/-- A process that is not due has waited less, or as long with a larger pid. -/
theorem waited_of_not_due (hj : j < k) (hne : j ≠ i % k) :
    waited k i j < k - 1 ∧
      (waited k i j < waited k i (i % k) ∨
        waited k i j = waited k i (i % k) ∧ i % k < j) := by
  have hk : 0 < k := by omega
  have lt := Nat.mod_lt (i - 1 - j) hk
  have le := Nat.mod_le (i - 1 - j) k
  unfold waited
  by_cases first : i < k
  · rw [Nat.mod_eq_of_lt first] at *
    rw [if_pos (le_refl i)]
    split <;> omega
  · have due := (sub_mod_eq (i := i) (Nat.mod_lt i hk) (by have := Nat.mod_lt i hk; omega)).mpr rfl
    have mine := (sub_mod_eq (i := i) hj (by omega)).not.mpr hne
    have := Nat.mod_lt i hk
    rw [if_neg (by omega), if_neg (by omega), due]
    omega

theorem waited_succ_due (k i : ℕ) : waited k (i + 1) (i % k) = 0 := by
  have := Nat.mod_le i k
  unfold waited
  rw [if_neg (by omega), Nat.add_sub_cancel]
  exact Nat.mod_eq_zero_of_dvd (Nat.dvd_sub_mod i)

theorem waited_succ (hj : j < k) (hne : j ≠ i % k) : waited k (i + 1) j = waited k i j + 1 := by
  unfold waited
  by_cases before : i ≤ j
  · rw [if_pos before]
    by_cases at' : i = j
    · subst at'
      exact absurd (Nat.mod_eq_of_lt hj).symm hne
    · rw [if_pos (by omega)]
  · have mine := (sub_mod_eq (i := i) hj (by omega)).not.mpr hne
    rw [if_neg before, if_neg (by omega), show i + 1 - 1 - j = i - 1 - j + 1 by omega,
      mod_succ (by omega), if_neg mine]

end Turns

section Rotation

variable {t : Table} {k : ℕ} {p : ℤ} {q : Fin k → Fin NPROC}

/-- The process whose turn the round `i` is. -/
def due (hk : 0 < k) (i : ℕ) : Fin k := ⟨i % k, Nat.mod_lt i hk⟩

/-- The boosts before round `i`. -/
def Rotated (t : Table) (q : Fin k → Fin NPROC) (i : ℕ) : Prop :=
  ∀ j, (tableAt t i (q j)).priorityBoost = waited k i j

theorem Equals.injective (h : Equals t p q) : Function.Injective q := by
  intro j j' same
  have := congrArg (fun i => (t i).pid) same
  exact h.pid.injective this

theorem Equals.level (h : Equals t p q) {i : ℕ} (rot : Rotated t q i) (j : Fin k) :
    level (tableAt t i) (q j) = p + waited k i j := by
  unfold Proc.level
  rw [tableAt_priority, h.priority, rot j]

theorem waited_le (hk : 0 < k) (i : ℕ) (j : Fin k) : waited k i j ≤ k - 1 := by
  have := j.isLt
  have := Nat.mod_lt (i - 1 - j) hk
  unfold waited
  split <;> omega

/-- Below the cap the choice is the one whose turn it is. -/
theorem Equals.picked (h : Equals t p q) (hk : 0 < k) (cap : p + k - 1 ≤ PRIORITY_MAX) {i : ℕ}
    (rot : Rotated t q i) : picked t i = some (q (due hk i)) := by
  have runnable : ∀ j, (tableAt t i (q j)).state = .runnable := by
    intro j
    rw [tableAt_state]
    exact (h.runnable (q j)).mpr ⟨j, rfl⟩
  have eff : ∀ j, effectivePriority (tableAt t i (q j)) = p + waited k i j := by
    intro j
    have := waited_le hk i j
    rw [← h.level rot j]
    unfold effectivePriority
    have := h.level rot j
    unfold Proc.level at *
    dsimp only
    rw [if_neg (by omega)]
  obtain ⟨c, hc⟩ := exists_choose (runnable (due hk i))
  obtain ⟨running, best⟩ := choose_spec hc
  rw [tableAt_state] at running
  obtain ⟨j, rfl⟩ := (h.runnable c).mp running
  have first := best (q (due hk i)) (runnable _)
  unfold Before at first
  rw [eff, eff, tableAt_pid, tableAt_pid] at first
  unfold Proc.picked
  rw [hc]
  by_cases hj : j = due hk i
  · rw [hj]
  · have hne : (j : ℕ) ≠ i % k := fun e => hj (Fin.ext e)
    obtain ⟨-, less⟩ := waited_of_not_due j.isLt hne
    have val : ((due hk i : Fin k) : ℕ) = i % k := rfl
    rw [val] at first
    rcases less with less | ⟨same, later⟩
    · omega
    · have := h.pid (show due hk i < j from later)
      dsimp only at this
      omega

/-- A round resets the boost of the one whose turn it was, and the others have waited once more. -/
theorem Equals.step (h : Equals t p q) (hk : 0 < k) (cap : p + k - 1 ≤ PRIORITY_MAX) {i : ℕ}
    (rot : Rotated t q i) : Rotated t q (i + 1) := by
  intro j
  have hc := h.picked hk cap rot
  unfold Proc.picked at hc
  change (round (tableAt t i) (q j)).priorityBoost = _
  rw [round_eq hc]
  by_cases hj : j = due hk i
  · rw [if_pos (by rw [hj]), hj]
    exact (congrArg Int.ofNat (waited_succ_due k i)).symm
  · have hne : (j : ℕ) ≠ i % k := fun e => hj (Fin.ext e)
    obtain ⟨low, -⟩ := waited_of_not_due (i := i) j.isLt hne
    have state : (tableAt t i (q j)).state = .runnable :=
      (tableAt_state i).trans ((h.runnable (q j)).mpr ⟨j, rfl⟩)
    rw [if_neg fun e => hj (h.injective e), if_pos]
    · dsimp only
      rw [rot j, waited_succ j.isLt hne]
      rfl
    · refine ⟨state, ?_⟩
      rw [rot j, tableAt_priority, h.priority]
      omega

theorem Equals.rotated (h : Equals t p q) (hk : 0 < k) (cap : p + k - 1 ≤ PRIORITY_MAX) (i : ℕ) :
    Rotated t q i := by
  induction i with
  | zero => exact fun j => (h.boost j).trans (by simp [waited])
  | succ i ih => exact h.step hk cap ih

/-- As long as the last of them is not lifted over the cap, equals are picked in turn, by
    increasing pid. -/
theorem equals_take_turns (t : Table) (k : ℕ) (hk : 0 < k) (p : ℤ)
    (cap : p + k - 1 ≤ PRIORITY_MAX) (q : Fin k → Fin NPROC) (h : Equals t p q) (i : ℕ) :
    picked t i = some (q (due hk i)) :=
  h.picked hk cap (h.rotated hk cap i)

/-- Three processes of priority 8, in slots that do not follow the order of their pids. -/
def threeEquals : Table := fun i =>
  if i.val = 4 then { ProcT.zero with pid := 2, state := .runnable, priority := 8 }
  else if i.val = 1 then { ProcT.zero with pid := 3, state := .runnable, priority := 8 }
  else if i.val = 7 then { ProcT.zero with pid := 5, state := .runnable, priority := 8 }
  else ProcT.zero

theorem threeEquals_equals : Equals threeEquals 8 ![4, 1, 7] := by
  refine ⟨by decide, ?_, by decide, by decide⟩
  intro i j
  revert i j
  decide

theorem equals_take_turns_three : picked threeEquals 100 = some 1 ∧ picked threeEquals 101 = some 7 := by
  have turns := equals_take_turns threeEquals 3 (by decide) 8 (by decide) _ threeEquals_equals
  exact ⟨(turns 100).trans (by decide), (turns 101).trans (by decide)⟩

end Rotation

end EasyXv6.Proc
