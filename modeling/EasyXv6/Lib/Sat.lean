import EasyXv6.Lib.Comp

set_option autoImplicit false

/-!
# What every outcome of a computation satisfies

`Sat m s E Q` says that `m`, started in `s`, either returns as `Q` says or halts as `E` says. The
rules follow the way a computation is built.
-/
namespace EasyXv6.Lib.Comp

variable {σ τ α β : Type}

/-- Run `f` on the elements of a list until one of them gives a result. -/
def firstSome (f : β → Comp σ (Option α)) : List β → Comp σ (Option α)
  | [] => Pure.pure none
  | x :: xs => f x >>= fun r => match r with
    | some a => Pure.pure (some a)
    | none => firstSome f xs

def Sat (m : Comp σ α) (s : σ) (E : String → σ → Prop) (Q : α → σ → Prop) : Prop :=
  match m.run s with
  | .ok a t => Q a t
  | .halt w t => E w t

variable {m : Comp σ α} {f : α → Comp σ β} {s : σ} {E E' : String → σ → Prop} {Q Q' : α → σ → Prop}

theorem Sat.of_run {a : α} {t : σ} (hr : m.run s = .ok a t) (h : Q a t) : Sat m s E Q := by
  unfold Sat
  rw [hr]
  exact h

theorem Sat.of_outcome (ok : ∀ a t, m.run s = .ok a t → Q a t) (halt : ∀ w t, m.run s = .halt w t → E w t) :
    Sat m s E Q := by
  unfold Sat
  cases hr : m.run s with
  | ok a t => exact ok a t hr
  | halt w t => exact halt w t hr

/-- What the rules say of an outcome that returns. -/
theorem Sat.ok {a : α} {t : σ} (h : Sat m s E Q) (hr : m.run s = .ok a t) : Q a t := by
  unfold Sat at h
  rwa [hr] at h

theorem Sat.halted {w : String} {t : σ} (h : Sat m s E Q) (hr : m.run s = .halt w t) : E w t := by
  unfold Sat at h
  rwa [hr] at h

/-- Where no outcome halts, the computation returns. -/
theorem Sat.returns (h : Sat m s E Q) (never : ∀ w t, ¬ E w t) :
    ∃ a t, m.run s = .ok a t ∧ Q a t := by
  unfold Sat at h
  cases hr : m.run s with
  | ok a t =>
    rw [hr] at h
    exact ⟨a, t, rfl, h⟩
  | halt w t =>
    rw [hr] at h
    exact absurd h (never w t)

theorem Sat.imp (h : Sat m s E Q) (hE : ∀ w t, E w t → E' w t) (hQ : ∀ a t, Q a t → Q' a t) :
    Sat m s E' Q' := by
  unfold Sat at h ⊢
  cases hr : m.run s with
  | ok a t =>
    rw [hr] at h
    exact hQ a t h
  | halt w t =>
    rw [hr] at h
    exact hE w t h

theorem Sat.post (h : Sat m s E Q) (hQ : ∀ a t, Q a t → Q' a t) : Sat m s E Q' :=
  h.imp (fun _ _ he => he) hQ

theorem Sat.and {F : String → σ → Prop} (h : Sat m s E Q) (h' : Sat m s F Q') :
    Sat m s E fun a t => Q a t ∧ Q' a t := by
  unfold Sat at h h' ⊢
  cases hr : m.run s with
  | ok a t =>
    rw [hr] at h h'
    exact ⟨h, h'⟩
  | halt w t =>
    rw [hr] at h
    exact h

/-- What is known of an outcome, with what holds of all of them. -/
theorem Sat.always {R : σ → σ → Prop} (h : Sat m s E Q) (all : Always R m) :
    Sat m s (fun w t => E w t ∧ R s t) fun a t => Q a t ∧ R s t := by
  have here := all s
  refine .of_outcome (fun a t hr => ⟨h.ok hr, ?_⟩) fun w t hr => ⟨h.halted hr, ?_⟩
  all_goals
    rw [hr] at here
    exact here

theorem Sat.pure {a : α} (h : Q a s) : Sat (Pure.pure a : Comp σ α) s E Q := h

theorem Sat.halt {w : String} (h : E w s) : Sat (halt w : Comp σ α) s E Q := h

theorem Sat.bind {R : β → σ → Prop} (h : Sat m s E fun a t => Sat (f a) t E R) :
    Sat (m >>= f) s E R := by
  unfold Sat at h ⊢
  rw [run_bind]
  cases hr : m.run s with
  | ok a t =>
    rw [hr] at h
    exact h
  | halt w t =>
    rw [hr] at h
    exact h

/-- A call of a function whose specification is known. -/
theorem Sat.call {P : α → σ → Prop} {R : β → σ → Prop} (h : Sat m s E P)
    (next : ∀ a t, P a t → Sat (f a) t E R) : Sat (m >>= f) s E R :=
  .bind (h.post next)

theorem Sat.get {g : σ → Comp σ β} {R : β → σ → Prop} (h : Sat (g s) s E R) :
    Sat ((get : Comp σ σ) >>= g) s E R := h

theorem Sat.gets {g : σ → α} {R : β → σ → Prop} (h : Sat (f (g s)) s E R) :
    Sat ((gets g : Comp σ α) >>= f) s E R := h

theorem Sat.modify {g : σ → σ} {k : Unit → Comp σ β} {R : β → σ → Prop}
    (h : Sat (k ()) (g s) E R) : Sat ((modify g : Comp σ Unit) >>= k) s E R := h

/-- A change of the state that nothing follows. -/
theorem Sat.modified {g : σ → σ} {R : Unit → σ → Prop} (h : R () (g s)) :
    Sat (Comp.modify g : Comp σ Unit) s E R := h

theorem Sat.ite {c : Prop} [Decidable c] {n : Comp σ α} (ht : c → Sat m s E Q)
    (hf : ¬ c → Sat n s E Q) : Sat (if c then m else n) s E Q := by
  split
  next h => exact ht h
  next h => exact hf h

theorem Sat.zoom {view : σ → τ} {update : τ → σ → σ} {n : Comp τ α} {F : String → τ → Prop}
    {P : α → τ → Prop} (h : Sat n (view s) F P) (hE : ∀ w t, F w t → E w (update t s))
    (hQ : ∀ a t, P a t → Q a (update t s)) : Sat (zoom view update n) s E Q := by
  unfold Sat at h ⊢
  rw [run_zoom]
  cases hr : n.run (view s) with
  | ok a t =>
    rw [hr] at h
    exact hQ a t h
  | halt w t =>
    rw [hr] at h
    exact hE w t h

theorem Sat.forUpTo {n : ℕ} {body : ℕ → Comp σ Unit} (I : ℕ → σ → Prop) (start : I 0 s)
    (round : ∀ k < n, ∀ t, I k t → Sat (body k) t E fun _ u => I (k + 1) u) :
    Sat (forUpTo n body) s E fun _ u => I n u := by
  induction n with
  | zero => exact start
  | succ n ih =>
    refine .call (ih fun k hk => round k (Nat.lt_succ_of_lt hk)) ?_
    intro _ t hI
    exact round n (Nat.lt_succ_self n) t hI

/-- The search stops at the first result; `I xs` holds before it comes to the elements `xs`. -/
theorem Sat.firstSome {g : β → Comp σ (Option α)} {xs : List β} {P : Option α → σ → Prop}
    (I : List β → σ → Prop) (start : I xs s)
    (round : ∀ x ys t, I (x :: ys) t → Sat (g x) t E fun r u => match r with
      | some a => P (some a) u
      | none => I ys u)
    (stop : ∀ t, I [] t → P none t) : Sat (firstSome g xs) s E P := by
  induction xs generalizing s with
  | nil => exact stop s start
  | cons x ys ih =>
    refine .call (round x ys s start) ?_
    intro r t h
    cases r with
    | some a => exact h
    | none => exact ih h

-- a loop of many rounds must not be run when `Sat` of it is met
attribute [irreducible] Sat

end EasyXv6.Lib.Comp
