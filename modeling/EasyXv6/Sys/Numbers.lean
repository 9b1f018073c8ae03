import EasyXv6.Lib.Numeral
import EasyXv6.Sys.Print

set_option autoImplicit false

/-!
# Numbers as `printf` prints them
-/
namespace EasyXv6.Sys
open Lib Mem Fs

abbrev MINUS : UInt8 := '-'.toUInt8

/-- The digit that a character stands for, the letters in lower case. -/
def digitValue (c : UInt8) : Option ℕ :=
  if '0'.toUInt8 ≤ c ∧ c ≤ '9'.toUInt8 then some (c.toNat - 48)
  else if 'a'.toUInt8 ≤ c ∧ c ≤ 'f'.toUInt8 then some (c.toNat - 87)
  else none

section Digits

variable {base fuel k x : ℕ}

theorem digitValue_digitChar : ∀ d < 16, digitValue (digitChar d) = some d := by decide

theorem printintLoop_succ (base fuel x : ℕ) : printintLoop base (fuel + 1) x =
    digitChar (x % base) :: if x / base = 0 then [] else printintLoop base fuel (x / base) := rfl

/-- The digits that the loop leaves in `buf`, from the last to the first. -/
theorem printintLoop_numeral (two : 2 ≤ base) (hex : base ≤ 16) (hx : x < 2 ^ fuel) (pos : 0 < fuel) :
    Numeral digitValue base x (printintLoop base fuel x).reverse := by
  induction fuel generalizing x with
  | zero => cases pos
  | succ fuel ih =>
    have small : x % base < base := Nat.mod_lt _ (by omega)
    have last := digitValue_digitChar (x % base) (by omega)
    rw [printintLoop_succ, List.reverse_cons]
    by_cases done : x / base = 0
    · have same : x % base = x := by
        have := Nat.div_add_mod x base
        rw [done] at this
        omega
      rw [if_pos done]
      rw [same] at small last ⊢
      exact Numeral.single last small
    · have half : x / base < 2 ^ fuel := by
        have le : x / base ≤ x / 2 := Nat.div_le_div_left two (by decide)
        rw [Nat.pow_succ] at hx
        omega
      have more : 0 < x / base := Nat.pos_of_ne_zero done
      have left : 0 < fuel := by
        by_contra none
        have zero : fuel = 0 := by omega
        rw [zero] at half
        omega
      have rest := (ih half left).snoc more last small
      rw [if_neg done]
      rwa [Nat.div_add_mod'] at rest

theorem printintLoop_length (hx : x < base ^ (k + 1)) : (printintLoop base fuel x).length ≤ k + 1 := by
  induction fuel generalizing x k with
  | zero => exact Nat.zero_le _
  | succ fuel ih =>
    rw [printintLoop_succ, List.length_cons]
    refine Nat.succ_le_succ ?_
    split
    next => exact Nat.zero_le k
    next more =>
      cases k with
      | zero => 
        rw [Nat.zero_add, pow_one] at hx
        exact absurd (Nat.div_eq_of_lt hx) more
      | succ k =>
        have : x / base < base ^ (k + 1) := by
          rw [Nat.pow_succ, Nat.mul_comm] at hx
          exact Nat.div_lt_of_lt_mul hx
        exact ih this

end Digits

section Formats

variable (va : VaList) (k : ℕ)

/-- The 32 bits of the argument that a conversion takes as an `int`. -/
def word : ℕ := va.arg k % 2 ^ 32

def DecimalCanonical : Prop :=
  SignedNumeral MINUS digitValue 10 (i32 (word va k)) (convert va k 'd'.toUInt8)

def HexCanonical : Prop := Numeral digitValue 16 (word va k) (convert va k 'x'.toUInt8)

/-- The loop of `printint` stores its digits below the end of `buf`. -/
def DigitsFit : Prop :=
  ∀ base, base = 10 ∨ base = 16 → ∀ x : BitVec 64, (printintLoop base 64 x.toNat).length ≤ 32

variable {va k}

theorem digits_fit : DigitsFit := by
  intro base hbase x
  have hx := x.isLt
  rcases hbase with rfl | rfl
  · exact (printintLoop_length (k := 19) (Nat.lt_trans hx (by decide))).trans (by decide)
  · exact (printintLoop_length (k := 15) (Nat.lt_of_lt_of_le hx (by decide))).trans (by decide)

theorem word_lt (va : VaList) (k : ℕ) : word va k < 2 ^ 32 := Nat.mod_lt _ (by decide)

theorem i32_bounds (v : ℕ) : -2 ^ 31 ≤ i32 v ∧ i32 v < 2 ^ 31 := by
  unfold i32
  rw [Int.bmod_def]
  split <;> omega

theorem i32_of_large {v : ℕ} (h : 2 ^ 31 ≤ v) (bound : v < 2 ^ 32) : i32 v = v - 2 ^ 32 := by
  unfold i32
  rw [Int.bmod_def, if_neg] <;> omega

theorem decimal_canonical : DecimalCanonical va k := by
  have conv : convert va k 'd'.toUInt8 = printint (i32 (word va k)) 10 true := by
    unfold convert
    exact if_pos rfl
  have bounds := word_lt va k
  unfold DecimalCanonical
  rw [conv]
  generalize hz : i32 (word va k) = z
  have low : -2 ^ 31 ≤ z ∧ z < 2 ^ 31 := by
    rw [← hz]
    exact i32_bounds _
  unfold printint
  constructor
  · intro neg
    have value : (-z % 2 ^ 64).toNat = z.natAbs := by omega
    rw [if_pos ⟨rfl, neg⟩, value]
    exact ⟨_, rfl, printintLoop_numeral (by decide) (by decide) (by omega) (by decide)⟩
  · intro pos
    rw [if_neg fun both => Int.not_lt.mpr pos both.2]
    have value : (z % 2 ^ 64).toNat = z.natAbs := by omega
    rw [value]
    exact printintLoop_numeral (by decide) (by decide) (by omega) (by decide)

/-- `%x` prints the sign extension to 64 bits. -/
theorem hex_prints (va : VaList) (k : ℕ) : Numeral digitValue 16 (i32 (word va k) % 2 ^ 64).toNat
    (convert va k 'x'.toUInt8) := by
  have conv : convert va k 'x'.toUInt8 =
      (printintLoop 16 64 (i32 (word va k) % 2 ^ 64).toNat).reverse := by
    unfold convert
    rw [if_neg (by decide), if_pos rfl, printint, if_neg fun both => Bool.false_ne_true both.1, word]
  rw [conv]
  exact printintLoop_numeral (by decide) (by decide) (by omega) (by decide)

theorem hex_canonical_iff : HexCanonical va k ↔ word va k < 2 ^ 31 := by
  have bounds := word_lt va k
  have prints := hex_prints va k
  constructor
  · intro h
    have same : word va k = (i32 (word va k) % 2 ^ 64).toNat :=
      Option.some.inj (h.value.symm.trans prints.value)
    by_contra large
    rw [i32_of_large (Nat.not_lt.mp large) bounds] at same
    omega
  · intro small
    have same : (i32 (word va k) % 2 ^ 64).toNat = word va k := by
      rw [i32_of_small small]
      omega
    rwa [same] at prints

/-- What `%d` and `%x` emit for an argument are its numerals, and the digits fit into `buf`. -/
structure NumbersCanonical (va : VaList) (k : ℕ) : Prop where
  decimal : DecimalCanonical va k
  hex : HexCanonical va k
  fit : DigitsFit

/-- `%d` is right for every argument, `%x` for those below 2 ^ 31 only. -/
theorem numbers_canonical_iff (va : VaList) (k : ℕ) : DecimalCanonical va k ∧ DigitsFit ∧
    (NumbersCanonical va k ↔ word va k < 2 ^ 31) := by
  refine ⟨decimal_canonical, digits_fit, fun h => hex_canonical_iff.mp h.hex, fun small => ?_⟩
  exact ⟨decimal_canonical, hex_canonical_iff.mpr small, digits_fit⟩

/-- The arguments of `printf("%x", 0x80000000)`. -/
def VaList.upper : VaList := ⟨fun _ => 0x80000000, fun _ => []⟩

/-- 16 digits are printed. -/
theorem hex_not_canonical : convert .upper 0 'x'.toUInt8 = "ffffffff80000000".toList.map Char.toUInt8 ∧
    ¬ NumbersCanonical .upper 0 := by
  have large : ¬ word .upper 0 < 2 ^ 31 := by decide +kernel
  exact ⟨by decide +kernel, fun h => large (hex_canonical_iff.mp h.hex)⟩

end Formats

end EasyXv6.Sys
