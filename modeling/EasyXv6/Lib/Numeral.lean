import Mathlib

set_option autoImplicit false

/-!
# Numerals

A numeral is a list of characters, the most significant digit first; `val` is the digit that a
character stands for, if it stands for one.
-/
namespace EasyXv6.Lib

variable {γ : Type}

/-- The number read so far, with one more character. -/
def readDigit (val : γ → Option ℕ) (base n : ℕ) (c : γ) : Option ℕ :=
  (val c).bind fun d => if d < base then some (n * base + d) else none

/-- The number that a list of digits stands for. -/
def parse (val : γ → Option ℕ) (base : ℕ) (s : List γ) : Option ℕ := s.foldlM (readDigit val base) 0

/-- `s` is the shortest numeral of `n`. -/
structure Numeral (val : γ → Option ℕ) (base n : ℕ) (s : List γ) : Prop where
  value : parse val base s = some n
  nonempty : s ≠ []
  noLeadingZero : ∀ c rest, s = c :: rest → rest ≠ [] → val c ≠ some 0

/-- The numeral of an integer: with a sign exactly if it is negative. -/
structure SignedNumeral (minus : γ) (val : γ → Option ℕ) (base : ℕ) (z : ℤ) (s : List γ) : Prop where
  negative : z < 0 → ∃ t, s = minus :: t ∧ Numeral val base z.natAbs t
  nonneg : 0 ≤ z → Numeral val base z.natAbs s

namespace Numeral

variable {val : γ → Option ℕ} {base n d : ℕ} {c : γ} {s : List γ}

theorem readDigit_eq (hc : val c = some d) (hd : d < base) (n : ℕ) :
    readDigit val base n c = some (n * base + d) := by
  simp [readDigit, hc, hd]

theorem single (hc : val c = some d) (hd : d < base) : Numeral val base d [c] where
  value := by simp [parse, readDigit_eq hc hd]
  nonempty := List.cons_ne_nil c []
  noLeadingZero := by
    intro c' rest same more
    cases same
    exact absurd rfl more

/-- One more digit after those of a positive number. -/
theorem snoc (h : Numeral val base n s) (pos : 0 < n) (hc : val c = some d) (hd : d < base) :
    Numeral val base (n * base + d) (s ++ [c]) where
  value := by
    have value : s.foldlM (readDigit val base) 0 = some n := h.value
    simp [parse, List.foldlM_append, value, readDigit_eq hc hd]
  nonempty := by simp
  noLeadingZero := by
    intro first rest same more zero
    cases s with
    | nil => exact h.nonempty rfl
    | cons b t =>
      cases same
      cases t with
      | nil =>
        -- a single 0 is the numeral of 0
        have value := h.value
        by_cases hb : 0 < base
        · simp [parse, readDigit_eq zero hb] at value
          omega
        · omega
      | cons x t => exact h.noLeadingZero _ _ rfl (List.cons_ne_nil x t) zero

end Numeral

end EasyXv6.Lib
