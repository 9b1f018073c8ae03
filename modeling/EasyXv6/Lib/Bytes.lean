import Mathlib

set_option autoImplicit false

/-!
# Buffers of bytes and the little-endian numbers in them
-/
namespace EasyXv6.Lib

/-- The number that the first `n` bytes of `f` stand for, least significant byte first. -/
def leVal (f : ℕ → UInt8) : ℕ → ℕ
  | 0 => 0
  | n + 1 => (f 0).toNat + 256 * leVal (fun i => f (i + 1)) n

/-- Byte `i` of the number `v`. -/
def leByte (v i : ℕ) : UInt8 := UInt8.ofNat (v / 256 ^ i)

theorem leByte_succ (v i : ℕ) : leByte v (i + 1) = leByte (v / 256) i := by
  unfold leByte
  rw [Nat.div_div_eq_div_mul, Nat.pow_succ']

theorem leVal_leByte (v n : ℕ) : leVal (leByte v) n = v % 256 ^ n := by
  induction n generalizing v with
  | zero => simp [leVal, Nat.mod_one]
  | succ n ih =>
    have head : (leByte v 0).toNat = v % 256 := by simp [leByte]
    have tail : (fun i => leByte v (i + 1)) = leByte (v / 256) := funext (leByte_succ v)
    rw [leVal, head, tail, ih, Nat.pow_succ', Nat.mod_mul]

theorem leVal_lt (f : ℕ → UInt8) (n : ℕ) : leVal f n < 256 ^ n := by
  induction n generalizing f with
  | zero => simp [leVal]
  | succ n ih =>
    have h := ih (fun i => f (i + 1))
    have hb := (f 0).toNat_lt
    rw [leVal, Nat.pow_succ']
    omega

theorem leVal_congr {f g : ℕ → UInt8} {n : ℕ} (h : ∀ i < n, f i = g i) : leVal f n = leVal g n := by
  induction n generalizing f g with
  | zero => rfl
  | succ n ih =>
    rw [leVal, leVal, h 0 (by omega), ih (fun i hi => h (i + 1) (by omega))]

theorem leVal_zero (n : ℕ) : leVal (fun _ => 0) n = 0 := by
  induction n with
  | zero => rfl
  | succ n ih => simp [leVal, ih]

/-- A buffer of `size` bytes. -/
abbrev Bytes (size : ℕ) := Fin size → UInt8

namespace Bytes

variable {size : ℕ}

def zero : Bytes size := fun _ => 0

def byte (b : Bytes size) (i : ℕ) : UInt8 := if h : i < size then b ⟨i, h⟩ else 0

/-- `memmove(b + off, src, len)` -/
def put (b : Bytes size) (off len : ℕ) (src : ℕ → UInt8) : Bytes size :=
  fun j => if off ≤ j.val ∧ j.val < off + len then src (j.val - off) else b j

/-- The unsigned number in the `n` bytes at `off`. -/
def num (b : Bytes size) (off n : ℕ) : ℕ := leVal (fun i => b.byte (off + i)) n

def putNum (b : Bytes size) (off n v : ℕ) : Bytes size := b.put off n (leByte v)

theorem ext_byte {a b : Bytes size} (h : ∀ i < size, a.byte i = b.byte i) : a = b := by
  funext i
  simpa [byte] using h i.val i.isLt

theorem byte_put (b : Bytes size) (off len : ℕ) (src : ℕ → UInt8) (i : ℕ) (hi : i < size) :
    (b.put off len src).byte i =
      if off ≤ i ∧ i < off + len then src (i - off) else b.byte i := by
  simp [byte, put, hi]

theorem byte_put_of_disjoint (b : Bytes size) (off len : ℕ) (src : ℕ → UInt8) (i : ℕ)
    (h : i < off ∨ off + len ≤ i) : (b.put off len src).byte i = b.byte i := by
  by_cases hi : i < size
  · rw [byte_put _ _ _ _ _ hi, if_neg (by omega)]
  · simp [byte, hi]

@[simp] theorem byte_zero (i : ℕ) : (zero : Bytes size).byte i = 0 := by
  simp [byte, zero]

@[simp] theorem num_zero (off n : ℕ) : (zero : Bytes size).num off n = 0 := by
  simp [num, leVal_zero]

theorem num_lt (b : Bytes size) (off n : ℕ) : b.num off n < 256 ^ n := leVal_lt _ _

theorem num_put_of_disjoint (b : Bytes size) (off len : ℕ) (src : ℕ → UInt8) (off' n : ℕ)
    (h : off' + n ≤ off ∨ off + len ≤ off') : (b.put off len src).num off' n = b.num off' n := by
  apply leVal_congr
  intro i hi
  exact byte_put_of_disjoint _ _ _ _ _ (by omega)

theorem num_putNum_self (b : Bytes size) (off n v : ℕ) (h : off + n ≤ size) :
    (b.putNum off n v).num off n = v % 256 ^ n := by
  rw [← leVal_leByte]
  apply leVal_congr
  intro i hi
  rw [putNum, byte_put _ _ _ _ _ (by omega), if_pos (by omega), Nat.add_sub_cancel_left]

theorem num_putNum_of_disjoint (b : Bytes size) (off n v off' n' : ℕ)
    (h : off' + n' ≤ off ∨ off + n ≤ off') : (b.putNum off n v).num off' n' = b.num off' n' :=
  num_put_of_disjoint _ _ _ _ _ _ h

end Bytes

end EasyXv6.Lib
