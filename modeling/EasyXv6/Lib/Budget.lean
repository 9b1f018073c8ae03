import EasyXv6.Lib.Comp

set_option autoImplicit false

/-!
# Computations that draw on a budget

`room` measures what a state has left of a resource, and a computation that asks for more halts
with `out`. With a room of `n` a computation that spends at most `n` never halts so.
-/
namespace EasyXv6.Lib.Comp

variable {σ τ α β : Type} {room : σ → ℕ} {out : String} {n k : ℕ}

def Spends (room : σ → ℕ) (out : String) (n : ℕ) (m : Comp σ α) : Prop :=
  ∀ s, n ≤ room s → match m.run s with
    | .ok _ t => room s ≤ room t + n
    | .halt w _ => w ≠ out

namespace Spends

theorem pure (a : α) : Spends room out 0 (Pure.pure a : Comp σ α) := fun _ _ => Nat.le_refl _

theorem gets (f : σ → α) : Spends room out 0 (gets f) := fun _ _ => Nat.le_refl _

theorem modify {f : σ → σ} (h : ∀ s, room s ≤ room (f s)) : Spends room out 0 (modify f) :=
  fun s _ => h s

theorem halt {w : String} (h : w ≠ out) : Spends room out n (halt w : Comp σ α) := fun _ _ => h

theorem mono {m : Comp σ α} (h : Spends room out n m) (hk : n ≤ k) : Spends room out k m := by
  intro s hs
  have hm := h s (Nat.le_trans hk hs)
  split at hm
  · exact Nat.le_trans hm (Nat.add_le_add_left hk _)
  · exact hm

theorem bind {m : Comp σ α} {f : α → Comp σ β} (hm : Spends room out n m)
    (hf : ∀ a, Spends room out k (f a)) : Spends room out (n + k) (m >>= f) := by
  intro s hs
  have first := hm s (by omega)
  rw [run_bind]
  cases h : m.run s with
  | ok a t =>
    rw [h] at first
    dsimp only at first ⊢
    have second := hf a t (by omega)
    cases h' : (f a).run t with
    | ok b u =>
      rw [h'] at second
      dsimp only at second ⊢
      omega
    | halt w u =>
      rw [h'] at second
      exact second
  | halt w t =>
    rw [h] at first
    exact first

theorem ite {c : Prop} [Decidable c] {m m' : Comp σ α} (h : Spends room out n m)
    (h' : Spends room out n m') : Spends room out n (if c then m else m') := by
  split
  · exact h
  · exact h'

theorem forUpTo {body : ℕ → Comp σ Unit} (h : ∀ j, Spends room out k (body j)) (n : ℕ) :
    Spends room out (n * k) (forUpTo n body) := by
  induction n with
  | zero => exact (pure ()).mono (Nat.zero_le _)
  | succ n ih => exact (bind ih fun _ => h n).mono (Nat.le_of_eq (Nat.succ_mul n k).symm)

theorem forUpTo_free {body : ℕ → Comp σ Unit} (h : ∀ j, Spends room out 0 (body j)) (n : ℕ) :
    Spends room out 0 (Comp.forUpTo n body) := by
  have all := forUpTo h n
  rwa [Nat.mul_zero] at all

theorem zoom {room' : τ → ℕ} {view : σ → τ} {update : τ → σ → σ} {m : Comp τ α}
    (hview : ∀ s, room s = room' (view s)) (hupdate : ∀ s t, room (update t s) = room' t)
    (h : Spends room' out n m) : Spends room out n (zoom view update m) := by
  intro s hs
  rw [hview] at hs
  have hm := h (view s) hs
  rw [run_zoom]
  cases ho : m.run (view s) with
  | ok a t =>
    rw [ho] at hm
    dsimp only at hm ⊢
    rw [hview, hupdate]
    exact hm
  | halt w t =>
    rw [ho] at hm
    exact hm

end Spends

/-- From `s` the computation halts with `out` or not at all. -/
def HaltsOnly (out : String) (m : Comp σ α) (s : σ) : Prop := ∀ w t, m.run s = .halt w t → w = out

namespace HaltsOnly

variable {s : σ} {m : Comp σ α} {f : α → Comp σ β}

theorem of_ok {a : α} {t : σ} (h : m.run s = .ok a t) : HaltsOnly out m s := by
  intro w u hw
  rw [h] at hw
  cases hw

theorem bind (hm : HaltsOnly out m s) (hf : ∀ a t, m.run s = .ok a t → HaltsOnly out (f a) t) :
    HaltsOnly out (m >>= f) s := by
  intro w u hw
  rw [run_bind] at hw
  cases h : m.run s with
  | ok a t =>
    rw [h] at hw
    exact hf a t h w u hw
  | halt v t =>
    rw [h] at hw
    cases hw
    exact hm _ _ h

theorem gets {g : σ → τ} {f : τ → Comp σ β} (h : HaltsOnly out (f (g s)) s) :
    HaltsOnly out (gets g >>= f) s := h

theorem get {f : σ → Comp σ β} (h : HaltsOnly out (f s) s) : HaltsOnly out (get >>= f) s := h

theorem modify {g : σ → σ} {f : Unit → Comp σ β} (h : HaltsOnly out (f ()) (g s)) :
    HaltsOnly out (modify g >>= f) s := h

theorem forUpTo {body : ℕ → Comp σ Unit} (h : ∀ k < n, ∀ t, (forUpTo k body).run s = .ok () t →
    HaltsOnly out (body k) t) : HaltsOnly out (forUpTo n body) s := by
  intro w u hw
  obtain ⟨k, hk, t, before, bad⟩ := forUpTo_halt_iff.mp hw
  exact h k hk t before w u bad

theorem zoom {view : σ → τ} {update : τ → σ → σ} {m : Comp τ α} (h : HaltsOnly out m (view s)) :
    HaltsOnly out (zoom view update m) s := by
  intro w u hw
  rw [run_zoom] at hw
  cases ho : m.run (view s) with
  | ok a t =>
    rw [ho] at hw
    cases hw
  | halt v t =>
    rw [ho] at hw
    cases hw
    exact h _ _ ho

/-- With enough room the computation returns. -/
theorem returns (only : HaltsOnly out m s) (h : Spends room out n m) (hs : n ≤ room s) :
    ∃ a t, m.run s = .ok a t ∧ room s ≤ room t + n := by
  have hm := h s hs
  cases ho : m.run s with
  | ok a t =>
    rw [ho] at hm
    exact ⟨a, t, rfl, hm⟩
  | halt w t =>
    rw [ho] at hm
    exact absurd (only w t ho) hm

end HaltsOnly

end EasyXv6.Lib.Comp
