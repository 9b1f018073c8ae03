import Mathlib

set_option autoImplicit false

/-!
# C strings of bounded length

A string is a sequence of bytes that ends before its first zero byte, or after `n` bytes.
-/
namespace EasyXv6.Lib

def cstr (f : ℕ → UInt8) (n : ℕ) : List UInt8 := ((List.range n).map f).takeWhile (· ≠ 0)

def strncmp (p q : ℕ → UInt8) : ℕ → ℤ
  | 0 => 0
  | n + 1 =>
    if p 0 ≠ 0 ∧ p 0 = q 0 then strncmp (fun i => p (i + 1)) (fun i => q (i + 1)) n
    else (p 0).toNat - (q 0).toNat

/-- The bytes that `strncpy(s, t, n)` stores. -/
def strncpy (t : ℕ → UInt8) (n i : ℕ) : UInt8 := (cstr t n).getD i 0

theorem cstr_succ (f : ℕ → UInt8) (n : ℕ) :
    cstr f (n + 1) = if f 0 = 0 then [] else f 0 :: cstr (fun i => f (i + 1)) n := by
  have shift : List.map f (List.map Nat.succ (List.range n)) =
      List.map (fun i => f (i + 1)) (List.range n) := by
    rw [List.map_map]
    rfl
  unfold cstr
  rw [List.range_succ_eq_map, List.map_cons, List.takeWhile_cons, shift]
  by_cases h : f 0 = 0 <;> simp [h]

theorem cstr_congr {f g : ℕ → UInt8} {n : ℕ} (h : ∀ i < n, f i = g i) : cstr f n = cstr g n := by
  unfold cstr
  congr 1
  exact List.map_congr_left fun i hi => h i (List.mem_range.mp hi)

/-- A string that ends before the `n` bytes do. -/
theorem cstr_eq {f : ℕ → UInt8} {n : ℕ} {l : List UInt8} (short : l.length < n)
    (byte : ∀ k (h : k < l.length), f k = l[k]) (nonzero : ∀ c ∈ l, c ≠ 0) (nul : f l.length = 0) :
    cstr f n = l := by
  induction l generalizing f n with
  | nil =>
    obtain ⟨n, rfl⟩ := Nat.exists_eq_succ_of_ne_zero (Nat.ne_of_gt short)
    rw [cstr_succ]
    exact if_pos nul
  | cons c l ih =>
    obtain ⟨n, rfl⟩ := Nat.exists_eq_succ_of_ne_zero (Nat.ne_of_gt (Nat.lt_of_le_of_lt (Nat.zero_le _) short))
    have head : f 0 = c := byte 0 (Nat.succ_pos _)
    rw [cstr_succ, head, if_neg (nonzero c List.mem_cons_self)]
    refine congrArg (c :: ·) (ih (Nat.lt_of_succ_lt_succ short) (fun k hk => ?_)
      (fun d hd => nonzero d (List.mem_cons_of_mem _ hd)) nul)
    exact byte (k + 1) (Nat.succ_lt_succ hk)

/-- A string that goes on after the `n` bytes. -/
theorem cstr_eq_take {f : ℕ → UInt8} {n : ℕ} {l : List UInt8} (long : n ≤ l.length)
    (byte : ∀ k (h : k < n), f k = l[k]) (nonzero : ∀ c ∈ l, c ≠ 0) : cstr f n = l.take n := by
  induction n generalizing f l with
  | zero => rfl
  | succ n ih =>
    cases l with
    | nil => exact absurd long (by simp)
    | cons c l =>
      have head : f 0 = c := byte 0 (Nat.succ_pos _)
      rw [cstr_succ, head, if_neg (nonzero c List.mem_cons_self), List.take_succ_cons]
      refine congrArg (c :: ·) (ih (Nat.le_of_succ_le_succ long) (fun k hk => ?_)
        fun d hd => nonzero d (List.mem_cons_of_mem _ hd))
      exact byte (k + 1) (Nat.succ_lt_succ hk)

theorem cstr_ne_zero {f : ℕ → UInt8} {n : ℕ} {c : UInt8} (h : c ∈ cstr f n) : c ≠ 0 := by
  have := List.mem_takeWhile_imp h
  simpa using this

theorem cstr_length_le (f : ℕ → UInt8) (n : ℕ) : (cstr f n).length ≤ n := by
  have := (List.takeWhile_sublist (p := (· ≠ 0)) (l := (List.range n).map f)).length_le
  simpa [cstr] using this

/-- Two strings compare equal exactly when they are the same up to their ends. -/
theorem strncmp_eq_zero_iff (p q : ℕ → UInt8) (n : ℕ) : strncmp p q n = 0 ↔ cstr p n = cstr q n := by
  induction n generalizing p q with
  | zero => simp [strncmp, cstr]
  | succ n ih =>
    rw [strncmp, cstr_succ, cstr_succ]
    by_cases hp : p 0 = 0
    · by_cases hq : q 0 = 0
      · simp [hp, hq]
      · have : (q 0).toNat ≠ 0 := fun h => hq (UInt8.toNat_inj.mp h)
        simp [hp, hq]
        omega
    · by_cases hpq : p 0 = q 0
      · rw [if_pos ⟨hp, hpq⟩, ih, if_neg hp, if_neg (hpq ▸ hp), hpq]
        simp
      · have ne : (p 0).toNat ≠ (q 0).toNat := fun h => hpq (UInt8.toNat_inj.mp h)
        rw [if_neg fun h => hpq h.2, if_neg hp]
        by_cases hq : q 0 = 0
        · have : (p 0).toNat ≠ 0 := fun h => hp (UInt8.toNat_inj.mp h)
          simpa [hq] using this
        · rw [if_neg hq]
          simp only [List.cons.injEq, hpq, false_and, iff_false]
          omega

/-- What `strncpy` has stored reads as the string again. -/
theorem cstr_strncpy (t : ℕ → UInt8) (n : ℕ) : cstr (strncpy t n) n = cstr t n := by
  induction n generalizing t with
  | zero => rfl
  | succ n ih =>
    rw [cstr_succ, cstr_succ t]
    have head : strncpy t (n + 1) 0 = t 0 := by
      unfold strncpy
      rw [cstr_succ]
      split
      next h => rw [h]; rfl
      next h => rfl
    rw [head]
    by_cases h : t 0 = 0
    · rw [if_pos h, if_pos h]
    · have tail : (fun i => strncpy t (n + 1) (i + 1)) = strncpy (fun i => t (i + 1)) n := by
        funext i
        unfold strncpy
        rw [cstr_succ, if_neg h, List.getD_cons_succ]
      rw [if_neg h, if_neg h, tail, ih]

end EasyXv6.Lib
