import Mathlib

set_option autoImplicit false

/-!
# Circular doubly linked lists

A list is the order of its nodes from one of them on, all the way round.
-/
namespace EasyXv6.Lib

variable {ν : Type}

/-- `b` comes after `a`. -/
def Adjacent (next prev : ν → ν) (a b : ν) : Prop := next a = b ∧ prev b = a

/-- From `x` the pointers lead through the nodes `m` and back to `x`. -/
def Cycle (next prev : ν → ν) (x : ν) (m : List ν) : Prop :=
  List.IsChain (Adjacent next prev) (x :: m ++ [x])

namespace Cycle

variable {next prev : ν → ν} {x y : ν} {l m : List ν}

theorem rotate : Cycle next prev x (l ++ y :: m) ↔ Cycle next prev y (m ++ x :: l) := by
  have shape : ∀ (a b : ν) (k n : List ν),
      a :: (k ++ b :: n) ++ [a] = (a :: k) ++ b :: (n ++ [a]) := by
    intro a b k n
    simp
  rw [Cycle, Cycle, shape, shape, List.isChain_split, @List.isChain_split _ _ _ (y :: m), and_comm]
  rfl

/-- The same nodes in the other direction. -/
theorem reverse (h : Cycle next prev x m) : Cycle prev next x m.reverse := by
  have back : (x :: m ++ [x]).reverse = x :: m.reverse ++ [x] := by simp
  rw [Cycle, ← back, List.isChain_reverse]
  exact h.imp fun a b ab => ⟨ab.2, ab.1⟩

theorem next_eq (h : Cycle next prev x (y :: m)) : next x = y ∧ prev y = x :=
  (List.isChain_cons_cons.mp h).1

theorem prev_eq (h : Cycle next prev x (m ++ [y])) : next y = x ∧ prev x = y := by
  have turned : Cycle next prev y ([] ++ x :: m) := rotate.mp h
  exact turned.next_eq

variable [DecidableEq ν]

/-- A node is taken out: `x->next->prev = x->prev; x->prev->next = x->next`. -/
theorem remove (h : Cycle next prev x (y :: m)) (fresh : x ∉ y :: m) :
    Cycle (Function.update next (prev x) (next x)) (Function.update prev (next x) (prev x)) y m := by
  obtain ⟨hxy, hyx⟩ := h.next_eq
  obtain ⟨k, u, hu⟩ : ∃ k u, y :: m = k ++ [u] := 
    ⟨_, _, (List.dropLast_append_getLast (List.cons_ne_nil y m)).symm⟩
  have last := h
  rw [hu] at last
  obtain ⟨hux, hxu⟩ := last.prev_eq
  have inner : List.IsChain (Adjacent next prev) (y :: m) := by
    have all : List.IsChain _ (x :: (y :: m ++ [x])) := h
    exact (List.isChain_append.mp all.tail).1
  rw [hxy, hxu, Cycle]
  have shape : y :: m ++ [y] = k ++ u :: y :: [] := by
    rw [hu]
    simp
  rw [shape, List.isChain_append_cons_cons, ← hu]
  refine ⟨inner.imp_of_mem_imp ?_, ⟨Function.update_self .., Function.update_self ..⟩,
    List.isChain_singleton y⟩
  rintro a b ha hb ⟨hab, hba⟩
  refine ⟨(Function.update_of_ne ?_ _ _).trans hab, (Function.update_of_ne ?_ _ _).trans hba⟩
  · rintro rfl
    exact fresh (hux.symm.trans hab ▸ hb)
  · rintro rfl
    exact fresh (hyx.symm.trans hba ▸ ha)

/-- A node is put in after `x`: `i->next = x->next; i->prev = x; x->next->prev = i; x->next = i`. -/
theorem insert {i : ν} (h : Cycle next prev x m) (nodup : (x :: m).Nodup) (fresh : i ∉ x :: m) :
    Cycle (Function.update (Function.update next i (next x)) x i)
      (Function.update (Function.update prev i x) (next x) i) x (i :: m) := by
  obtain ⟨y, k, hk⟩ : ∃ y k, m ++ [x] = y :: k := by
    cases m with
    | nil => exact ⟨x, [], rfl⟩
    | cons z k => exact ⟨z, k ++ [x], rfl⟩
  have chain : List.IsChain (Adjacent next prev) (x :: y :: k) := by
    rw [← hk]
    exact h
  obtain ⟨⟨hxy, hyx⟩, inner⟩ := List.isChain_cons_cons.mp chain
  have nodup' : (y :: k).Nodup := by
    rw [← hk]
    exact (List.perm_append_singleton x m).nodup_iff.mpr nodup
  have fresh' : i ∉ y :: k := by
    rw [← hk]
    intro mem
    exact fresh ((List.perm_append_singleton x m).mem_iff.mp mem)
  have hix : i ≠ x := fun same => fresh (same ▸ List.mem_cons_self)
  have hiy : i ≠ y := fun same => fresh' (same ▸ List.mem_cons_self)
  have shape : x :: i :: m ++ [x] = x :: i :: y :: k := by
    rw [← hk]
    rfl
  rw [Cycle, shape, List.isChain_cons_cons, List.isChain_cons_cons, hxy]
  refine ⟨⟨Function.update_self .., ?_⟩, ⟨?_, Function.update_self ..⟩,
    inner.imp_of_mem_tail_imp ?_⟩
  · rw [Function.update_of_ne hiy, Function.update_self]
  · rw [Function.update_of_ne hix, Function.update_self]
  · rintro a b ha hb ⟨hab, hba⟩
    have hby : b ≠ y := fun same => (List.nodup_cons.mp nodup').1 (same ▸ hb)
    have hax : a ≠ x := fun same => hby (hab.symm.trans (same ▸ hxy))
    have hai : a ≠ i := fun same => fresh' (same ▸ ha)
    have hbi : b ≠ i := fun same => fresh' (same ▸ List.mem_cons_of_mem _ hb)
    exact ⟨by rw [Function.update_of_ne hax, Function.update_of_ne hai, hab],
      by rw [Function.update_of_ne hby, Function.update_of_ne hbi, hba]⟩

end Cycle

section Search

variable {α : Type}

/-- A search along the pointers until the sentinel `none`, for at most `fuel` nodes. The result is
    `none` when they do not suffice. -/
def searchFrom (next : Option α → Option α) (p : α → Bool) : ℕ → Option α → Option (Option α)
  | _, none => some none
  | 0, some _ => none
  | fuel + 1, some a => if p a then some (some a) else searchFrom next p fuel (next (some a))

theorem searchFrom_of_chain {next prev : Option α → Option α} {l : List α} (p : α → Bool)
    {fuel : ℕ} {n : Option α} (hfuel : l.length ≤ fuel)
    (h : List.IsChain (Adjacent next prev) (n :: (l.map some ++ [none]))) :
    searchFrom next p fuel (next n) = some (l.find? p) := by
  induction l generalizing fuel n with
  | nil =>
    rw [(List.isChain_cons_cons.mp h).1.1]
    cases fuel <;> rfl
  | cons a l ih =>
    obtain ⟨⟨hn, -⟩, rest⟩ := List.isChain_cons_cons.mp h
    rw [hn]
    cases fuel with
    | zero => cases hfuel
    | succ fuel =>
      rw [searchFrom, List.find?_cons]
      cases p a with
      | true => rfl
      | false => exact ih (Nat.le_of_succ_le_succ hfuel) rest

/-- In a cycle with a sentinel a search finds what it finds in the list. -/
theorem Cycle.search {next prev : Option α → Option α} {l : List α}
    (h : Cycle next prev none (l.map some)) (p : α → Bool) {fuel : ℕ} (hfuel : l.length ≤ fuel) :
    searchFrom next p fuel (next none) = some (l.find? p) ∧
      searchFrom prev p fuel (prev none) = some (l.reverse.find? p) := by
  refine ⟨searchFrom_of_chain p hfuel h, ?_⟩
  have back := h.reverse
  rw [← List.map_reverse] at back
  exact searchFrom_of_chain p (by rw [List.length_reverse]; exact hfuel) back

end Search

end EasyXv6.Lib
