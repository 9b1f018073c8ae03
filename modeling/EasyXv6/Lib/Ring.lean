import Mathlib

set_option autoImplicit false

/-!
# A queue in a ring of cells

Both ends of the queue are counted by machine words. The queue is seen as the list of all entries
that were ever put in and the number of those that are out again.
-/
namespace EasyXv6.Lib

/-- The entries from the `lo`-th on are in a ring of `N` cells. -/
structure InRing {α : Type} (N : ℕ) (ring : ℕ → α) (xs : List α) (lo : ℕ) : Prop where
  lo_le : lo ≤ xs.length
  room : xs.length ≤ lo + N
  cell : ∀ k x, lo ≤ k → xs[k]? = some x → ring (k % N) = x

namespace InRing

variable {α : Type} {N M lo : ℕ} {ring : ℕ → α} {xs : List α} {x : α}

theorem empty (N : ℕ) (ring : ℕ → α) : InRing N ring [] 0 where
  lo_le := Nat.le_refl 0
  room := Nat.zero_le _
  cell k x _ hx := by cases hx

/-- An entry is put into a free cell. -/
theorem push (h : InRing N ring xs lo) (free : xs.length < lo + N) (x : α) :
    InRing N (Function.update ring (xs.length % N) x) (xs ++ [x]) lo where
  lo_le := by
    have := h.lo_le
    rw [List.length_append]
    omega
  room := by
    rw [List.length_append, List.length_singleton]
    omega
  cell := by
    intro k y hk hy
    by_cases last : k = xs.length
    · rw [last, List.getElem?_concat_length, Option.some.injEq] at hy
      rw [last, Function.update_self]
      exact hy
    · have old : k < xs.length := by
        have := (List.getElem?_eq_some_iff.mp hy).1
        rw [List.length_append, List.length_singleton] at this
        omega
      rw [List.getElem?_append_left old] at hy
      have other : k % N ≠ xs.length % N := by
        intro same
        have window : xs.length - k < N := by omega
        have zero : (xs.length - k) % N = 0 := Nat.sub_mod_eq_zero_of_mod_eq same.symm
        rw [Nat.mod_eq_of_lt window] at zero
        omega
      rw [Function.update_of_ne other]
      exact h.cell k y hk hy

/-- The first entry of the queue is taken out. -/
theorem pop (h : InRing N ring xs lo) (hx : xs[lo]? = some x) :
    ring (lo % N) = x ∧ InRing N ring xs (lo + 1) := by
  have here := (List.getElem?_eq_some_iff.mp hx).1
  refine ⟨h.cell lo x (Nat.le_refl lo) hx, here, by have := h.room; omega, ?_⟩
  intro k y hk hy
  exact h.cell k y (by omega) hy

end InRing

section Counter

variable {M N n m : ℕ}

/-- The cell that a counter of `M` values points to. -/
theorem counter_cell (hN : N ∣ M) (n : ℕ) : n % M % N = n % N := Nat.mod_mod_of_dvd n hN

theorem counter_succ (M n : ℕ) : (n % M + 1) % M = (n + 1) % M := Nat.mod_add_mod n M 1

/-- Two counters that are close enough are equal only when they have counted the same. -/
theorem counter_eq_iff (hle : n ≤ m) (close : m < n + M) : n % M = m % M ↔ n = m := by
  constructor
  · intro same
    have zero : (m - n) % M = 0 := Nat.sub_mod_eq_zero_of_mod_eq same.symm
    rw [Nat.mod_eq_of_lt (by omega)] at zero
    omega
  · rintro rfl
    rfl

end Counter

end EasyXv6.Lib
