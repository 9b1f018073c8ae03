import EasyXv6.Lib.DirTree

set_option autoImplicit false

/-!
# Slots as a finite map

What a search finds after a new entry was added or a slot was freed.
-/
namespace EasyXv6.Lib

variable {ι ν : Type} {es : List (Slot ι ν)} {i j : ι} {name nm : ν} {m : ℕ}

/-- No two slots have the same name. -/
def Distinct (es : List (Slot ι ν)) : Prop :=
  ∀ (m n : ℕ) (i j : ι) (name : ν), es[m]? = some (some (i, name)) →
    es[n]? = some (some (j, name)) → m = n

theorem Distinct.nil : Distinct ([] : List (Slot ι ν)) := fun _ _ _ _ _ h => by simp at h

section Lookup

variable [DecidableEq ν]

/-- The slot with the name is the one that a search finds. -/
theorem Distinct.lookup_iff (h : Distinct es) :
    lookup es name = some (i, m) ↔ es[m]? = some (some (i, name)) := by
  refine ⟨lookup_some, fun hm => ?_⟩
  cases found : lookup es name with
  | none =>
    have hn := List.findSome?_eq_none_iff.mp found m (List.mem_range.mpr
      (List.getElem?_eq_some_iff.mp hm).1)
    simp [nameAt, hm] at hn
  | some x =>
    obtain ⟨j, n⟩ := x
    have hn := lookup_some found
    obtain rfl := h m n i j name hm hn
    rw [hm] at hn
    cases hn
    rfl

theorem lookup_eq_none_iff : lookup es name = none ↔ ∀ i, some (i, name) ∉ es := by
  refine ⟨fun h i hi => ?_, lookup_none⟩
  obtain ⟨m, hm, he⟩ := List.mem_iff_getElem.mp hi
  have hn := List.findSome?_eq_none_iff.mp h m (List.mem_range.mpr hm)
  simp [nameAt, List.getElem?_eq_getElem hm, he] at hn

/-- Searches agree where the slots with the name do. -/
theorem Distinct.lookup_congr {es' : List (Slot ι ν)} (h : Distinct es) (h' : Distinct es')
    (same : ∀ (m : ℕ) (i : ι), es'[m]? = some (some (i, name)) ↔ es[m]? = some (some (i, name))) :
    lookup es' name = lookup es name := by
  refine Option.ext fun x => ?_
  obtain ⟨i, m⟩ := x
  rw [h.lookup_iff, h'.lookup_iff, same]

end Lookup

section Add

/-- The slots after a new entry, one by one. -/
theorem getElem?_addSlot (e : ι × ν) (es : List (Slot ι ν)) (m : ℕ) :
    (addSlot e es)[m]? = if m = freeSlot es then some (some e) else es[m]? := by
  induction es generalizing m with
  | nil => cases m <;> simp [addSlot, freeSlot]
  | cons x es ih =>
    cases x with
    | none => cases m <;> simp [addSlot, freeSlot]
    | some x =>
      cases m with
      | zero => simp [addSlot, freeSlot]
      | succ m => simp [addSlot, freeSlot, ih]

theorem freeSlot_free (es : List (Slot ι ν)) (e : ι × ν) : es[freeSlot es]? ≠ some (some e) := by
  induction es with
  | nil => simp
  | cons x es ih => cases x <;> simp [freeSlot, ih]

/-- A slot that is free is used again before the list grows. -/
theorem length_addSlot (e : ι × ν) (h : none ∈ es) : (addSlot e es).length = es.length := by
  induction es with
  | nil => cases h
  | cons x es ih =>
    cases x with
    | none => rfl
    | some x =>
      have rest : none ∈ es := by simpa using h
      rw [addSlot, List.length_cons, List.length_cons, ih rest]

theorem Distinct.add (h : Distinct es) (new : ∀ i, some (i, name) ∉ es) :
    Distinct (addSlot (i, name) es) := by
  intro m n k l nm hm hn
  rw [getElem?_addSlot] at hm hn
  have old : ∀ {p : ℕ} {q : ι}, es[p]? = some (some (q, name)) → False := fun hp =>
    new _ (List.mem_of_getElem? hp)
  split at hm
  next em =>
    cases hm
    split at hn
    next en => exact em.trans en.symm
    next => exact (old hn).elim
  next =>
    split at hn
    next =>
      cases hn
      exact (old hm).elim
    next => exact h m n k l nm hm hn

variable [DecidableEq ν]

theorem Distinct.lookup_add_self (h : Distinct es) (new : ∀ i, some (i, name) ∉ es) :
    lookup (addSlot (i, name) es) name = some (i, freeSlot es) := by
  rw [(h.add new).lookup_iff, getElem?_addSlot, if_pos rfl]

theorem Distinct.lookup_add_of_ne (h : Distinct es) (new : ∀ i, some (i, name) ∉ es) (hne : nm ≠ name) :
    lookup (addSlot (i, name) es) nm = lookup es nm := by
  refine h.lookup_congr (h.add new) fun m j => ?_
  rw [getElem?_addSlot]
  split
  next hm =>
    subst hm
    refine iff_of_false (fun he => hne ?_) (freeSlot_free es _)
    cases he
    rfl
  next => exact Iff.rfl

end Add

section Clear

theorem Distinct.clear (h : Distinct es) (m : ℕ) : Distinct (es.set m none) := by
  intro p q k l nm hp hq
  have keep : ∀ {r : ℕ} {x : ι × ν}, (es.set m none)[r]? = some (some x) → es[r]? = some (some x) := by
    intro r x hr
    rw [List.getElem?_set] at hr
    split at hr
    · split at hr <;> cases hr
    · exact hr
  exact h p q k l nm (keep hp) (keep hq)

variable [DecidableEq ν]

theorem Distinct.lookup_clear_self (h : Distinct es) (hm : es[m]? = some (some (i, name))) :
    lookup (es.set m none) name = none := by
  rw [lookup_eq_none_iff]
  intro j hj
  obtain ⟨n, hn⟩ := List.mem_iff_getElem?.mp hj
  rw [List.getElem?_set] at hn
  split at hn
  · split at hn <;> cases hn
  next hne => exact hne (h m n i j name hm hn)

theorem Distinct.lookup_clear_of_ne (h : Distinct es) (hm : es[m]? = some (some (i, name)))
    (hne : nm ≠ name) : lookup (es.set m none) nm = lookup es nm := by
  refine h.lookup_congr (h.clear m) fun n j => ?_
  rw [List.getElem?_set]
  split
  next hmn =>
    subst hmn
    rw [hm]
    refine iff_of_false (fun he => ?_) fun he => hne ?_
    · split at he <;> cases he
    · cases he
      rfl
  next => exact Iff.rfl

end Clear

end EasyXv6.Lib
