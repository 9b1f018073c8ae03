import Mathlib

set_option autoImplicit false

/-!
# Turns with a cooldown

A sequence of turns in which the same player cannot come again before its cooldown has passed.
-/
namespace EasyXv6.Lib
open Finset

variable {ι : Type} [DecidableEq ι]

/-- From `a` to `b`, two turns of `i` are at least `T i` apart. -/
def Spaced (T : ι → ℕ) (w : ℕ → Option ι) (a b : ℕ) : Prop :=
  ∀ i s t, a ≤ s → s < t → t < b → w s = some i → w t = some i → s + T i ≤ t

/-- The turns of `i` among the `n` from `a` on. -/
def turns (w : ℕ → Option ι) (a n : ℕ) (i : ι) : Finset ℕ :=
  (Finset.Ico a (a + n)).filter fun t => w t = some i

/-- `n / T` rounded up -/
def ceilDiv (n T : ℕ) : ℕ := (n + T - 1) / T

theorem lt_ceilDiv {n T m : ℕ} (hT : 0 < T) (h : m < n) : m / T < ceilDiv n T := by
  unfold ceilDiv
  rw [Nat.lt_iff_add_one_le, Nat.le_div_iff_mul_le hT, Nat.add_mul, Nat.one_mul]
  have := Nat.div_mul_le_self m T
  omega

variable {T : ι → ℕ} {w : ℕ → Option ι} {a n : ℕ} {i : ι}

/-- Within `n` turns a player comes at most `n / T` times, rounded up. -/
theorem Spaced.card_turns (h : Spaced T w a (a + n)) (hT : 0 < T i) :
    (turns w a n i).card ≤ ceilDiv n (T i) := by
  rw [← card_range (ceilDiv n (T i))]
  apply card_le_card_of_injOn (fun t => (t - a) / T i)
  · intro t ht
    obtain ⟨ht, _⟩ := mem_filter.mp ht
    obtain ⟨h1, h2⟩ := mem_Ico.mp ht
    exact mem_coe.mpr (mem_range.mpr (lt_ceilDiv hT (by omega)))
  · have apart : ∀ s t, s ∈ turns w a n i → t ∈ turns w a n i → s < t →
        (s - a) / T i < (t - a) / T i := by
      intro s t hs ht hlt
      obtain ⟨hs, ws⟩ := mem_filter.mp hs
      obtain ⟨ht, wt⟩ := mem_filter.mp ht
      have hs := mem_Ico.mp hs
      have gap := h i s t hs.1 hlt (mem_Ico.mp ht).2 ws wt
      have : (s - a) / T i + 1 = (s - a + T i) / T i := (Nat.add_div_right _ hT).symm
      have : (s - a + T i) / T i ≤ (t - a) / T i := Nat.div_le_div_right (by omega)
      omega
    intro s hs t ht heq
    rcases Nat.lt_trichotomy s t with hlt | rfl | hlt
    · exact absurd heq (Nat.ne_of_lt (apart s t hs ht hlt))
    · rfl
    · exact absurd heq (Nat.ne_of_gt (apart t s ht hs hlt))

/-- If only players of `S` come, the turns are theirs. -/
theorem card_le_sum_turns {S : Finset ι} (h : ∀ t, a ≤ t → t < a + n → ∃ i ∈ S, w t = some i) :
    n ≤ ∑ i ∈ S, (turns w a n i).card := by
  have cover : Finset.Ico a (a + n) ⊆ S.biUnion (turns w a n) := by
    intro t ht
    obtain ⟨h1, h2⟩ := mem_Ico.mp ht
    obtain ⟨i, hi, hw⟩ := h t h1 h2
    exact mem_biUnion.mpr ⟨i, hi, mem_filter.mpr ⟨ht, hw⟩⟩
  have := (card_le_card cover).trans card_biUnion_le
  rw [Nat.card_Ico] at this
  omega

/-- Players that cannot fill `n` turns leave one of them to somebody else. -/
theorem Spaced.exists_other {S : Finset ι} (h : Spaced T w a (a + n)) (hT : ∀ i ∈ S, 0 < T i)
    (hS : ∑ i ∈ S, ceilDiv n (T i) < n) : ∃ t, a ≤ t ∧ t < a + n ∧ ∀ i ∈ S, w t ≠ some i := by
  by_contra hno
  push Not at hno
  have fill := card_le_sum_turns (S := S) (w := w) (a := a) (n := n) hno
  have bound := Finset.sum_le_sum fun i hi => h.card_turns (i := i) (hT i hi)
  omega

/-- Among more players than turns, one has no turn. -/
theorem exists_no_turn {S : Finset ι} (h : n < S.card) :
    ∃ i ∈ S, ∀ t, a ≤ t → t < a + n → w t ≠ some i := by
  by_contra hno
  push Not at hno
  have : S.card ≤ (Finset.Ico a (a + n)).card := by
    choose! f h1 h2 hf using hno
    apply card_le_card_of_injOn f
    · intro i hi
      exact mem_coe.mpr (mem_Ico.mpr ⟨h1 i hi, h2 i hi⟩)
    · intro i hi j hj heq
      have hi' := hf i hi
      rw [heq, hf j hj] at hi'
      exact (Option.some.inj hi').symm
  rw [Nat.card_Ico] at this
  omega

end EasyXv6.Lib
