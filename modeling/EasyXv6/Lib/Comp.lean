import Mathlib

set_option autoImplicit false

/-!
# Computations that may halt

A computation reads and changes a state and either returns or halts for good. A halt keeps the
state it was reached in, so that what was done before it can still be observed.
-/
namespace EasyXv6.Lib

inductive Outcome (σ α : Type) where
  | ok (a : α) (s : σ)
  | halt (why : String) (s : σ)

def Outcome.state {σ α : Type} : Outcome σ α → σ
  | .ok _ s => s
  | .halt _ s => s

/-- What it returns, if it does. -/
def Outcome.value {σ α : Type} : Outcome σ α → Option α
  | .ok a _ => some a
  | .halt _ _ => none

theorem Outcome.eq_ok {σ α : Type} {o : Outcome σ α} {a : α} (h : o.value = some a) :
    o = .ok a o.state := by
  cases o with
  | ok b s =>
    cases h
    rfl
  | halt w s => cases h

structure Comp (σ α : Type) where
  step : σ → Outcome σ α

namespace Comp

variable {σ τ α β : Type}

def run (m : Comp σ α) (s : σ) : Outcome σ α := m.step s

def pure (a : α) : Comp σ α := ⟨fun s => .ok a s⟩

def bind (m : Comp σ α) (f : α → Comp σ β) : Comp σ β :=
  ⟨fun s => match m.run s with
    | .ok a t => (f a).run t
    | .halt w t => .halt w t⟩

instance : Monad (Comp σ) where
  pure := Comp.pure
  bind := Comp.bind

def get : Comp σ σ := ⟨fun s => .ok s s⟩

def gets (f : σ → α) : Comp σ α := ⟨fun s => .ok (f s) s⟩

def modify (f : σ → σ) : Comp σ Unit := ⟨fun s => .ok () (f s)⟩

def halt (why : String) : Comp σ α := ⟨fun s => .halt why s⟩

/-- Run a computation on one component of a larger state. -/
def zoom (view : σ → τ) (update : τ → σ → σ) (m : Comp τ α) : Comp σ α :=
  ⟨fun s => match m.run (view s) with
    | .ok a t => .ok a (update t s)
    | .halt w t => .halt w (update t s)⟩

@[simp] theorem run_pure (a : α) (s : σ) : (Pure.pure a : Comp σ α).run s = .ok a s := rfl
@[simp] theorem run_get (s : σ) : (get : Comp σ σ).run s = .ok s s := rfl
@[simp] theorem run_gets (f : σ → α) (s : σ) : (gets f).run s = .ok (f s) s := rfl
@[simp] theorem run_modify (f : σ → σ) (s : σ) : (modify f).run s = .ok () (f s) := rfl
@[simp] theorem run_halt (why : String) (s : σ) : (halt why : Comp σ α).run s = .halt why s := rfl

theorem run_bind (m : Comp σ α) (f : α → Comp σ β) (s : σ) :
    (m >>= f).run s = match m.run s with
      | .ok a t => (f a).run t
      | .halt w t => .halt w t := rfl

theorem run_map (m : Comp σ α) (f : α → β) (s : σ) :
    (f <$> m).run s = match m.run s with
      | .ok a t => .ok (f a) t
      | .halt w t => .halt w t := rfl

theorem run_bind_of_ok {m : Comp σ α} {f : α → Comp σ β} {s t : σ} {a : α}
    (h : m.run s = .ok a t) : (m >>= f).run s = (f a).run t := by
  rw [run_bind, h]

theorem run_bind_of_halt {m : Comp σ α} {f : α → Comp σ β} {s t : σ} {w : String}
    (h : m.run s = .halt w t) : (m >>= f).run s = .halt w t := by
  rw [run_bind, h]

@[simp] theorem bind_pure_run (f : α → Comp σ β) (a : α) (s : σ) :
    ((Pure.pure a : Comp σ α) >>= f).run s = (f a).run s := rfl
@[simp] theorem bind_get_run (f : σ → Comp σ β) (s : σ) : (get >>= f).run s = (f s).run s := rfl
@[simp] theorem bind_gets_run (g : σ → α) (f : α → Comp σ β) (s : σ) :
    (gets g >>= f).run s = (f (g s)).run s := rfl
@[simp] theorem bind_modify_run (g : σ → σ) (f : Unit → Comp σ β) (s : σ) :
    (modify g >>= f).run s = (f ()).run (g s) := rfl
@[simp] theorem bind_halt_run (w : String) (f : α → Comp σ β) (s : σ) :
    ((halt w : Comp σ α) >>= f).run s = .halt w s := rfl

/-- A sequence returns exactly when its first part returns and then its second. -/
theorem bind_ok_iff (m : Comp σ α) (f : α → Comp σ β) (s u : σ) (b : β) :
    (m >>= f).run s = .ok b u ↔ ∃ a t, m.run s = .ok a t ∧ (f a).run t = .ok b u := by
  rw [run_bind]
  constructor
  · intro h
    split at h
    · next a t hm => exact ⟨a, t, hm, h⟩
    · cases h
  · rintro ⟨a, t, hm, hf⟩
    rw [hm]
    exact hf

theorem bind_assoc_run {γ : Type} (m : Comp σ α) (f : α → Comp σ β) (g : β → Comp σ γ) (s : σ) :
    ((m >>= f) >>= g).run s = (m >>= fun a => f a >>= g).run s := by
  rw [run_bind, run_bind, run_bind]
  cases m.run s <;> rfl

theorem run_zoom (view : σ → τ) (update : τ → σ → σ) (m : Comp τ α) (s : σ) :
    (zoom view update m).run s = match m.run (view s) with
      | .ok a t => .ok a (update t s)
      | .halt w t => .halt w (update t s) := rfl

theorem zoom_ok_iff (view : σ → τ) (update : τ → σ → σ) (m : Comp τ α) (s u : σ) (a : α) :
    (zoom view update m).run s = .ok a u ↔ ∃ t, m.run (view s) = .ok a t ∧ u = update t s := by
  rw [run_zoom]
  constructor
  · intro h
    split at h
    · next hm => cases h; exact ⟨_, hm, rfl⟩
    · cases h
  · rintro ⟨t, hm, rfl⟩
    rw [hm]

theorem zoom_run_of_ok {view : σ → τ} {update : τ → σ → σ} {m : Comp τ α} {s : σ} {t : τ} {a : α}
    (h : m.run (view s) = .ok a t) : (zoom view update m).run s = .ok a (update t s) := by
  rw [run_zoom, h]

@[simp] theorem run_ite (c : Prop) [Decidable c] (m n : Comp σ α) (s : σ) :
    (if c then m else n).run s = if c then m.run s else n.run s := by
  split <;> rfl

/-- `body 0; ...; body (n - 1)` -/
def forUpTo (n : ℕ) (body : ℕ → Comp σ Unit) : Comp σ Unit :=
  match n with
  | 0 => Pure.pure ()
  | n + 1 => forUpTo n body >>= fun _ => body n

theorem forUpTo_congr {n : ℕ} {body body' : ℕ → Comp σ Unit} (h : ∀ k < n, body k = body' k) :
    forUpTo n body = forUpTo n body' := by
  induction n with
  | zero => rfl
  | succ n ih =>
    unfold forUpTo
    rw [ih fun k hk => h k (Nat.lt_succ_of_lt hk), h n (Nat.lt_succ_self n)]

/-- A loop whose body returns and takes the invariant from `k` to `k + 1` returns with the
    invariant at `n`. -/
theorem forUpTo_returns {n : ℕ} {body : ℕ → Comp σ Unit} (I : ℕ → σ → Prop) {s : σ} (h : I 0 s)
    (step : ∀ k < n, ∀ t, I k t → ∃ u, (body k).run t = .ok () u ∧ I (k + 1) u) :
    ∃ u, (forUpTo n body).run s = .ok () u ∧ I n u := by
  induction n with
  | zero => exact ⟨s, rfl, h⟩
  | succ n ih =>
    obtain ⟨t, ht, hI⟩ := ih (fun k hk => step k (by omega))
    obtain ⟨u, hu, hI'⟩ := step n (by omega) t hI
    exact ⟨u, (run_bind_of_ok ht).trans hu, hI'⟩

/-- A loop that returns has taken the invariant through all its rounds. -/
theorem forUpTo_ok {n : ℕ} {body : ℕ → Comp σ Unit} (I : ℕ → σ → Prop) {s u : σ} (h : I 0 s)
    (step : ∀ k < n, ∀ t v, I k t → (body k).run t = .ok () v → I (k + 1) v)
    (hr : (forUpTo n body).run s = .ok () u) : I n u := by
  induction n generalizing u with
  | zero =>
    cases hr
    exact h
  | succ n ih =>
    obtain ⟨_, t, ht, hb⟩ := (bind_ok_iff _ _ _ _ _).mp hr
    exact step n (by omega) t u (ih (fun k hk => step k (by omega)) ht) hb

/-- A loop halts exactly when one of its rounds does, after the rounds before it. -/
theorem forUpTo_halt_iff {n : ℕ} {body : ℕ → Comp σ Unit} {s u : σ} {w : String} :
    (forUpTo n body).run s = .halt w u ↔
      ∃ k < n, ∃ t, (forUpTo k body).run s = .ok () t ∧ (body k).run t = .halt w u := by
  induction n with
  | zero =>
    constructor
    · intro h
      cases h
    · rintro ⟨k, hk, -⟩
      exact absurd hk (Nat.not_lt_zero k)
  | succ n ih =>
    rw [forUpTo, run_bind]
    cases hp : (forUpTo n body).run s with
    | ok a t =>
      dsimp only
      rw [hp] at ih
      constructor
      · exact fun h => ⟨n, Nat.lt_succ_self n, t, hp, h⟩
      · rintro ⟨k, hk, t', ht', hb⟩
        rcases Nat.lt_succ_iff_lt_or_eq.mp hk with hlt | rfl
        · exact absurd (ih.mpr ⟨k, hlt, t', ht', hb⟩) (by simp)
        · rw [hp] at ht'
          cases ht'
          exact hb
    | halt v t =>
      dsimp only
      rw [hp] at ih
      constructor
      · intro h
        obtain ⟨k, hk, rest⟩ := ih.mp h
        exact ⟨k, Nat.lt_succ_of_lt hk, rest⟩
      · rintro ⟨k, hk, t', ht', hb⟩
        rcases Nat.lt_succ_iff_lt_or_eq.mp hk with hlt | rfl
        · exact ih.mpr ⟨k, hlt, t', ht', hb⟩
        · rw [hp] at ht'
          cases ht'

/-- Whatever the outcome of `m`, it relates the state before to the state after. -/
def Always (R : σ → σ → Prop) (m : Comp σ α) : Prop := ∀ s, R s (m.run s).state

section Always

variable {R : σ → σ → Prop}

theorem Always.pure (hr : ∀ s, R s s) (a : α) : Always R (Pure.pure a : Comp σ α) := hr

theorem Always.get (hr : ∀ s, R s s) : Always R (get : Comp σ σ) := hr

theorem Always.gets (hr : ∀ s, R s s) (f : σ → α) : Always R (gets f) := hr

theorem Always.halt (hr : ∀ s, R s s) (w : String) : Always R (halt w : Comp σ α) := hr

theorem Always.modify {f : σ → σ} (h : ∀ s, R s (f s)) : Always R (modify f) := h

theorem Always.bind (ht : ∀ s t u, R s t → R t u → R s u) {m : Comp σ α} {f : α → Comp σ β}
    (hm : Always R m) (hf : ∀ a, Always R (f a)) : Always R (m >>= f) := by
  intro s
  have first := hm s
  rw [run_bind]
  cases h : m.run s with
  | ok a t =>
    rw [h] at first
    exact ht s t _ first (hf a t)
  | halt w t =>
    rw [h] at first
    exact first

theorem Always.forUpTo (hr : ∀ s, R s s) (ht : ∀ s t u, R s t → R t u → R s u) {n : ℕ}
    {body : ℕ → Comp σ Unit} (h : ∀ k, Always R (body k)) : Always R (forUpTo n body) := by
  induction n with
  | zero => exact .pure hr ()
  | succ n ih => exact .bind ht ih (fun _ => h n)

theorem Always.ite {c : Prop} [Decidable c] {m n : Comp σ α} (hm : Always R m) (hn : Always R n) :
    Always R (if c then m else n) := by
  split
  · exact hm
  · exact hn

theorem Always.zoom {S : τ → τ → Prop} {view : σ → τ} {update : τ → σ → σ} {m : Comp τ α}
    (h : ∀ s t, S (view s) t → R s (update t s)) (hm : Always S m) :
    Always R (zoom view update m) := by
  intro s
  have hs := hm (view s)
  rw [run_zoom]
  cases ho : m.run (view s) with
  | ok a t =>
    rw [ho] at hs
    exact h s t hs
  | halt w t =>
    rw [ho] at hs
    exact h s t hs

end Always

end Comp

end EasyXv6.Lib
