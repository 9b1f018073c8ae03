import Mathlib

set_option autoImplicit false

/-!
# Lists in the order of last use

`uses` are the elements that were used, the latest use first. An element that moves to the front of a
list whenever it is used keeps the list in that order.
-/
namespace EasyXv6.Lib

variable {α : Type} [DecidableEq α]

/-- `a` was used after the last use of `b`, or `b` was never used. -/
def NotOlder (uses : List α) (a b : α) : Prop := b ∉ uses ∨ uses.idxOf a < uses.idxOf b

/-- The list is in the order of last use, the latest first, with those never used at the end. -/
def ByRecency (uses l : List α) : Prop := l.Pairwise (NotOlder uses)

namespace ByRecency

variable {uses l : List α} {x a b : α}

theorem unused (l : List α) : ByRecency [] l := by
  induction l with
  | nil => exact List.Pairwise.nil
  | cons a l ih => exact List.Pairwise.cons (fun b _ => Or.inl List.not_mem_nil) ih

theorem notOlder_front (h : b ≠ x) : NotOlder (x :: uses) x b := by
  right
  rw [List.idxOf_cons_self, List.idxOf_cons_ne _ h.symm]
  exact Nat.succ_pos _

theorem notOlder_cons (h : NotOlder uses a b) (ha : a ≠ x) (hb : b ≠ x) :
    NotOlder (x :: uses) a b := by
  rcases h with never | later
  · left
    simp [hb, never]
  · right
    rw [List.idxOf_cons_ne _ ha.symm, List.idxOf_cons_ne _ hb.symm]
    exact Nat.succ_lt_succ later

/-- The element that is used moves to the front. -/
theorem use (h : ByRecency uses l) (nodup : l.Nodup) (x : α) :
    ByRecency (x :: uses) (x :: l.erase x) := by
  have apart : ∀ a ∈ l.erase x, a ≠ x := by
    intro a ha same
    subst same
    exact nodup.not_mem_erase ha
  refine List.Pairwise.cons (fun b hb => notOlder_front (apart b hb)) ?_
  have rest : (l.erase x).Pairwise (NotOlder uses) := List.Pairwise.sublist List.erase_sublist h
  refine List.Pairwise.imp_of_mem ?_ rest
  intro a b ha hb older
  exact notOlder_cons older (apart a ha) (apart b hb)

/-- The last element of a kind is the one whose last use is oldest, or that was never used. -/
theorem find_last {p : α → Bool} (h : ByRecency uses l) (found : l.reverse.find? p = some a)
    (hb : b ∈ l) (kind : p b = true) (other : b ≠ a) : NotOlder uses b a := by
  obtain ⟨-, back, front, split, none⟩ := List.find?_eq_some_iff_append.mp found
  have order : l = front.reverse ++ a :: back.reverse := by
    rw [← List.reverse_reverse l, split]
    simp
  rw [order] at h hb
  have before : b ∈ front.reverse := by
    rcases List.mem_append.mp hb with hb | hb
    · exact hb
    · rcases List.mem_cons.mp hb with same | hb
      · exact absurd same other
      · have := none b (List.mem_reverse.mp hb)
        rw [kind] at this
        cases this
  exact (List.pairwise_append.mp h).2.2 b before a List.mem_cons_self

end ByRecency

end EasyXv6.Lib
