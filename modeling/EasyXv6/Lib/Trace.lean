import Mathlib

set_option autoImplicit false

/-!
# Runs of a labelled step relation

A run is the list of its steps, each a label and the state after it.
-/
namespace EasyXv6.Lib

variable {σ ℓ : Type}

/-- Every step of the run satisfies `P`. -/
def Along (P : σ → ℓ → σ → Prop) : σ → List (ℓ × σ) → Prop
  | _, [] => True
  | s, (l, t) :: rest => P s l t ∧ Along P t rest

/-- The state that a run ends in. -/
def final : σ → List (ℓ × σ) → σ
  | s, [] => s
  | _, (_, t) :: rest => final t rest

namespace Along

variable {P Q R : σ → ℓ → σ → Prop} {I : σ → Prop} {s : σ} {tr tr' : List (ℓ × σ)}

theorem invariant (keep : ∀ s l t, I s → P s l t → I t) (h : Along P s tr) (hs : I s) :
    I (final s tr) := by
  induction tr generalizing s with
  | nil => exact hs
  | cons step rest ih => exact ih h.2 (keep s step.1 step.2 hs h.1)

theorem append : Along P s (tr ++ tr') ↔ Along P s tr ∧ Along P (final s tr) tr' := by
  induction tr generalizing s with
  | nil => exact (and_iff_right trivial).symm
  | cons step rest ih =>
    change _ ∧ Along P step.2 (rest ++ tr') ↔ (_ ∧ Along P step.2 rest) ∧ Along P (final step.2 rest) tr'
    rw [ih, and_assoc]

theorem and (h : Along P s tr) (h' : Along Q s tr) : Along (fun s l t => P s l t ∧ Q s l t) s tr := by
  induction tr generalizing s with
  | nil => trivial
  | cons step rest ih => exact ⟨⟨h.1, h'.1⟩, ih h.2 h'.2⟩

/-- An invariant says of every step what it says of one. -/
theorem imp (keep : ∀ s l t, I s → P s l t → I t) (hq : ∀ s l t, I s → P s l t → Q s l t)
    (h : Along P s tr) (hs : I s) : Along Q s tr := by
  induction tr generalizing s with
  | nil => trivial
  | cons step rest ih => exact ⟨hq _ _ _ hs h.1, ih h.2 (keep _ _ _ hs h.1)⟩

/-- Where an invariant that steps with `R` preserve makes `Q` and `R` the same of one step, they are
    the same of a run. -/
theorem iff (keep : ∀ s l t, I s → P s l t → R s l t → I t)
    (hq : ∀ s l t, I s → P s l t → (Q s l t ↔ R s l t)) (h : Along P s tr) (hs : I s) :
    Along Q s tr ↔ Along R s tr := by
  induction tr generalizing s with
  | nil => exact Iff.rfl
  | cons step rest ih =>
    constructor
    · rintro ⟨q, qs⟩
      have r := (hq _ _ _ hs h.1).mp q
      exact ⟨r, (ih h.2 (keep _ _ _ hs h.1 r)).mp qs⟩
    · rintro ⟨r, rs⟩
      exact ⟨(hq _ _ _ hs h.1).mpr r, (ih h.2 (keep _ _ _ hs h.1 r)).mpr rs⟩

/-- Step by step, with what came before and what comes after. -/
theorem iff_split : Along P s tr ↔
    ∀ before l t after, tr = before ++ (l, t) :: after → P (final s before) l t := by
  constructor
  · rintro h before l t after rfl
    exact (append.mp h).2.1
  · intro h
    induction tr generalizing s with
    | nil => trivial
    | cons step rest ih =>
      refine ⟨h [] step.1 step.2 rest rfl, ih ?_⟩
      rintro before l t after rfl
      exact h (step :: before) l t after rfl

end Along

theorem final_append (s : σ) (tr tr' : List (ℓ × σ)) :
    final s (tr ++ tr') = final (final s tr) tr' := by
  induction tr generalizing s with
  | nil => rfl
  | cons step rest ih => exact ih step.2

end EasyXv6.Lib
