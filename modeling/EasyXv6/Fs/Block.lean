import EasyXv6.Lib.Bytes

set_option autoImplicit false

/-!
# Disk blocks

The parameters of `fs.h`, and the integer types of the fields that the kernel keeps in a block.
-/
namespace EasyXv6.Fs
open Lib

abbrev BSIZE : ℕ := 1024
abbrev FSSIZE : ℕ := 1000
abbrev LOGSIZE : ℕ := 30
abbrev ROOTDEV : ℕ := 1
abbrev ROOTINO : ℕ := 1
abbrev FSMAGIC : ℕ := 0x10203040
abbrev NDIRECT : ℕ := 12
abbrev NINDIRECT : ℕ := BSIZE / 4
abbrev MAXFILE : ℕ := NDIRECT + NINDIRECT

/-- The value of a `uint64` expression. -/
def u64 (x : ℤ) : ℕ := (x % 2 ^ 64).toNat

/-- The value of an `int` that holds the low 32 bits of `v`. -/
def i32 (v : ℕ) : ℤ := Int.bmod v (2 ^ 32)

/-- The four bytes of an `int`, as a number. -/
def i32Bits (x : ℤ) : ℕ := (x % 2 ^ 32).toNat

theorem u64_of_small {x : ℤ} (h0 : 0 ≤ x) (h : x < 2 ^ 64) : u64 x = x.toNat := by
  unfold u64
  omega

theorem i32_of_small {v : ℕ} (h : v < 2 ^ 31) : i32 v = v := by
  unfold i32
  rw [Int.bmod_eq_of_le] <;> omega

theorem i32_i32Bits {x : ℤ} (h0 : -2 ^ 31 ≤ x) (h : x < 2 ^ 31) : i32 (i32Bits x) = x := by
  unfold i32 i32Bits
  have hx : ((x % 2 ^ 32).toNat : ℤ) = x % ((2 ^ 32 : ℕ) : ℤ) := Int.toNat_of_nonneg (by omega)
  rw [hx, Int.emod_bmod, Int.bmod_eq_of_le] <;> omega

theorem i32Bits_lt (x : ℤ) : i32Bits x < 256 ^ 4 := by
  unfold i32Bits
  omega

/-- `uint8 data[BSIZE]` -/
abbrev Block := Bytes BSIZE

def Block.zero : Block := Bytes.zero

end EasyXv6.Fs
