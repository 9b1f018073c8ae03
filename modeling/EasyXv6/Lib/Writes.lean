import Mathlib

set_option autoImplicit false

/-!
# Sequences of writes and the crashes between them

A store is a function from addresses to values; a device applies single writes to it in the
order in which they are issued. A crash leaves the store after some prefix of the writes.
-/
namespace EasyXv6.Lib

variable {A V : Type} [DecidableEq A]

def applyWrites (ws : List (A × V)) (d : A → V) : A → V :=
  ws.foldl (fun e w => Function.update e w.1 w.2) d

@[simp] theorem applyWrites_nil (d : A → V) : applyWrites [] d = d := rfl

@[simp] theorem applyWrites_cons (w : A × V) (ws : List (A × V)) (d : A → V) :
    applyWrites (w :: ws) d = applyWrites ws (Function.update d w.1 w.2) := rfl

theorem applyWrites_append (xs ys : List (A × V)) (d : A → V) :
    applyWrites (xs ++ ys) d = applyWrites ys (applyWrites xs d) :=
  List.foldl_append

theorem applyWrites_of_notMem (ws : List (A × V)) (d : A → V) (a : A)
    (h : a ∉ ws.map Prod.fst) : applyWrites ws d a = d a := by
  induction ws generalizing d with
  | nil => rfl
  | cons w ws ih =>
    simp only [List.map_cons, List.mem_cons, not_or] at h
    rw [applyWrites_cons, ih _ h.2, Function.update_of_ne h.1]

/-- Where a sequence writes, the store before it does not matter. -/
theorem applyWrites_congr_at (ws : List (A × V)) (d e : A → V) (a : A)
    (h : a ∈ ws.map Prod.fst ∨ d a = e a) : applyWrites ws d a = applyWrites ws e a := by
  induction ws generalizing d e with
  | nil => simpa using h
  | cons w ws ih =>
    rw [applyWrites_cons, applyWrites_cons]
    apply ih
    by_cases hw : a = w.1
    · subst hw
      right
      rw [Function.update_self, Function.update_self]
    · rw [Function.update_of_ne hw, Function.update_of_ne hw]
      rcases h with h | h
      · left
        simpa [hw] using h
      · exact Or.inr h

/-- Replaying a sequence over any prefix of itself gives what replaying it once gives. -/
theorem applyWrites_take_absorb (ws : List (A × V)) (k : ℕ) (d : A → V) :
    applyWrites ws (applyWrites (ws.take k) d) = applyWrites ws d := by
  funext a
  apply applyWrites_congr_at
  by_cases h : a ∈ ws.map Prod.fst
  · exact Or.inl h
  · right
    apply applyWrites_of_notMem
    intro hk
    rw [List.map_take] at hk
    exact h (List.mem_of_mem_take hk)

theorem applyWrites_map (l : List A) (f : A → V) (d : A → V) (a : A) :
    applyWrites (l.map fun b => (b, f b)) d a = if a ∈ l then f a else d a := by
  induction l generalizing d with
  | nil => rfl
  | cons b l ih =>
    rw [List.map_cons, applyWrites_cons, ih]
    by_cases h : a = b
    · subst h
      simp
    · simp [h]

/-- With distinct addresses every write of the sequence is what remains at its address. -/
theorem applyWrites_of_mem (ws : List (A × V)) (d : A → V) (nodup : (ws.map Prod.fst).Nodup)
    {w : A × V} (h : w ∈ ws) : applyWrites ws d w.1 = w.2 := by
  induction ws generalizing d with
  | nil => simp at h
  | cons x ws ih =>
    rw [List.map_cons, List.nodup_cons] at nodup
    rw [applyWrites_cons]
    rcases List.mem_cons.mp h with rfl | h
    · rw [applyWrites_of_notMem _ _ _ nodup.1, Function.update_self]
    · exact ih _ nodup.2 h

/-- `P` holds of the store wherever a crash may leave it while `ws` is being issued. -/
def AtEveryCrash (P : (A → V) → Prop) (d : A → V) (ws : List (A × V)) : Prop :=
  ∀ k, P (applyWrites (ws.take k) d)

section AtEveryCrash

variable {P : (A → V) → Prop} {d : A → V}

theorem AtEveryCrash.nil (h : P d) : AtEveryCrash P d [] := by
  intro k
  simpa using h

theorem AtEveryCrash.cons {w : A × V} {ws : List (A × V)} (h : P d)
    (hws : AtEveryCrash P (Function.update d w.1 w.2) ws) : AtEveryCrash P d (w :: ws) := by
  intro k
  cases k with
  | zero => simpa using h
  | succ k => simpa using hws k

theorem AtEveryCrash.append {xs ys : List (A × V)} (hx : AtEveryCrash P d xs)
    (hy : AtEveryCrash P (applyWrites xs d) ys) : AtEveryCrash P d (xs ++ ys) := by
  intro k
  rw [List.take_append, applyWrites_append]
  by_cases hk : k ≤ xs.length
  · rw [Nat.sub_eq_zero_of_le hk]
    simpa using hx k
  · rw [List.take_of_length_le (l := xs) (by omega)]
    exact hy _

theorem AtEveryCrash.last {ws : List (A × V)} (h : AtEveryCrash P d ws) : P (applyWrites ws d) := by
  simpa using h ws.length

theorem AtEveryCrash.imp {Q : (A → V) → Prop} {ws : List (A × V)} (hpq : ∀ e, P e → Q e)
    (h : AtEveryCrash P d ws) : AtEveryCrash Q d ws :=
  fun k => hpq _ (h k)

/-- An invariant of every single write holds at every crash. -/
theorem AtEveryCrash.of_step {ws : List (A × V)} (h : P d)
    (step : ∀ e, ∀ w ∈ ws, P e → P (Function.update e w.1 w.2)) : AtEveryCrash P d ws := by
  induction ws generalizing d with
  | nil => exact .nil h
  | cons w ws ih =>
    have tail := ih (step d w List.mem_cons_self h)
      (fun e x hx he => step e x (List.mem_cons_of_mem _ hx) he)
    exact .cons h tail

end AtEveryCrash

end EasyXv6.Lib
