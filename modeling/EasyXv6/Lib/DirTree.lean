import Mathlib

set_option autoImplicit false

/-!
# Trees of directories

A directory has a parent and slots, each free or with a name of a node. In a tree every directory
but the root is named once, by its parent. A node that is no directory may be named anywhere.
-/
namespace EasyXv6.Lib

abbrev Slot (ι ν : Type) := Option (ι × ν)

section Slots

variable {ι ν : Type}

/-- Slot `m` if it has the name. -/
def nameAt [DecidableEq ν] (es : List (Slot ι ν)) (name : ν) (m : ℕ) : Option (ι × ℕ) :=
  match es[m]? with
  | some (some (i, nm)) => if nm = name then some (i, m) else none
  | _ => none

/-- The first slot with the name: its node and its index. -/
def lookup [DecidableEq ν] (es : List (Slot ι ν)) (name : ν) : Option (ι × ℕ) :=
  (List.range es.length).findSome? (nameAt es name)

/-- The slot where a new entry goes. -/
def freeSlot : List (Slot ι ν) → ℕ
  | [] => 0
  | none :: _ => 0
  | some _ :: es => freeSlot es + 1

/-- The slots after a new entry. -/
def addSlot (e : ι × ν) : List (Slot ι ν) → List (Slot ι ν)
  | [] => [some e]
  | none :: es => some e :: es
  | some x :: es => some x :: addSlot e es

variable {es : List (Slot ι ν)} {e : ι × ν} {i j : ι} {name : ν} {m : ℕ}

theorem lookup_some [DecidableEq ν] (h : lookup es name = some (i, m)) :
    es[m]? = some (some (i, name)) := by
  obtain ⟨k, -, hk⟩ := List.exists_of_findSome?_eq_some h
  unfold nameAt at hk
  split at hk
  next x nm hs =>
    split at hk
    next same =>
      cases hk
      rw [hs, same]
    next => cases hk
  next => cases hk

theorem lookup_none [DecidableEq ν] (h : ∀ i, some (i, name) ∉ es) : lookup es name = none := by
  refine List.findSome?_eq_none_iff.mpr fun m _ => ?_
  unfold nameAt
  split
  next i nm hs =>
    refine if_neg fun same => ?_
    subst same
    exact h i (List.mem_of_getElem? hs)
  next => rfl

theorem freeSlot_le (es : List (Slot ι ν)) : freeSlot es ≤ es.length := by
  induction es with
  | nil => exact Nat.le_refl _
  | cons x es ih =>
    cases x with
    | none => exact Nat.zero_le _
    | some x => exact Nat.succ_le_succ ih

/-- A new entry takes the first free slot, or the one past the end. -/
theorem addSlot_eq (e : ι × ν) (es : List (Slot ι ν)) :
    addSlot e es = if freeSlot es < es.length then es.set (freeSlot es) (some e)
      else es ++ [some e] := by
  induction es with
  | nil => rfl
  | cons x es ih =>
    cases x with
    | none => exact (if_pos (Nat.succ_pos _)).symm
    | some x =>
      rw [addSlot, ih, freeSlot, List.length_cons]
      by_cases h : freeSlot es < es.length
      · rw [if_pos h, if_pos (Nat.succ_lt_succ h), List.set_cons_succ]
      · rw [if_neg h, if_neg fun hc => h (Nat.lt_of_succ_lt_succ hc), List.cons_append]

theorem addSlot_length_le (e : ι × ν) (es : List (Slot ι ν)) :
    es.length ≤ (addSlot e es).length := by
  induction es with
  | nil => exact Nat.zero_le _
  | cons x es ih =>
    cases x with
    | none => exact Nat.le_refl _
    | some x => exact Nat.succ_le_succ ih

theorem mem_addSlot {x : ι × ν} : some x ∈ addSlot e es ↔ x = e ∨ some x ∈ es := by
  induction es with
  | nil => simp [addSlot]
  | cons y es ih =>
    cases y with
    | none => simp [addSlot]
    | some y =>
      rw [addSlot, List.mem_cons, List.mem_cons, ih]
      exact or_left_comm

section Uses

variable [DecidableEq ι]

/-- The slots that name the node `j`. -/
def uses (es : List (Slot ι ν)) (j : ι) : ℕ := es.countP fun e => e.map Prod.fst = some j

@[simp] theorem uses_nil (j : ι) : uses ([] : List (Slot ι ν)) j = 0 := rfl

theorem uses_cons_none (es : List (Slot ι ν)) (j : ι) : uses (none :: es) j = uses es j :=
  List.countP_cons_of_neg (by simp)

theorem uses_cons_some (e : ι × ν) (es : List (Slot ι ν)) (j : ι) :
    uses (some e :: es) j = uses es j + if e.1 = j then 1 else 0 := by
  unfold uses
  rw [List.countP_cons]
  simp

theorem uses_le_length (es : List (Slot ι ν)) (j : ι) : uses es j ≤ es.length :=
  List.countP_le_length

theorem uses_pos : 0 < uses es j ↔ ∃ nm, some (j, nm) ∈ es := by
  unfold uses
  rw [List.countP_pos_iff]
  constructor
  · rintro ⟨x, hx, hj⟩
    obtain ⟨⟨i, nm⟩, rfl, rfl⟩ := Option.map_eq_some_iff.mp (of_decide_eq_true hj)
    exact ⟨nm, hx⟩
  · rintro ⟨nm, h⟩
    exact ⟨_, h, decide_eq_true rfl⟩

theorem uses_addSlot (e : ι × ν) (es : List (Slot ι ν)) (j : ι) :
    uses (addSlot e es) j = uses es j + if e.1 = j then 1 else 0 := by
  induction es with
  | nil => exact uses_cons_some e [] j
  | cons x es ih =>
    cases x with
    | none => rw [addSlot, uses_cons_some, uses_cons_none]
    | some x =>
      rw [addSlot, uses_cons_some, uses_cons_some, ih]
      omega

/-- A slot is freed. -/
theorem uses_set_none (h : es[m]? = some (some e)) (j : ι) :
    uses (es.set m none) j + (if e.1 = j then 1 else 0) = uses es j := by
  induction es generalizing m with
  | nil => cases h
  | cons x es ih =>
    cases m with
    | zero =>
      cases h
      rw [List.set_cons_zero, uses_cons_none, uses_cons_some]
    | succ m =>
      have := ih (m := m) h
      rw [List.set_cons_succ]
      cases x with
      | none =>
        rw [uses_cons_none, uses_cons_none, this]
      | some x =>
        rw [uses_cons_some, uses_cons_some, ← this]
        omega

end Uses

end Slots

structure Dir (ι ν : Type) where
  parent : ι
  slots : List (Slot ι ν)

abbrev DirTree (ι ν : Type) := ι → Option (Dir ι ν)

namespace DirTree

variable {ι ν : Type} [DecidableEq ι]

/-- The directories of a tree are nodes of `S`. -/
structure Wf (S : Finset ι) (root : ι) (T : DirTree ι ν) : Prop where
  support : ∀ d, T d ≠ none → d ∈ S
  rooted : ∃ x, T root = some x ∧ x.parent = root
  up : ∀ d x j y, T d = some x → 0 < uses x.slots j → T j = some y → y.parent = d
  named : ∀ j y, T j = some y → j ≠ root → ∃ x, T y.parent = some x ∧ uses x.slots j = 1
  unnamed : ∀ d x, T d = some x → uses x.slots root = 0
  rank : ∃ rank : ι → ℕ, ∀ j y, T j = some y → j ≠ root → rank y.parent < rank j

/-- How often a directory refers to the node `j`, with a slot or as its parent. -/
def weight (x : Option (Dir ι ν)) (j : ι) : ℕ :=
  x.elim 0 fun x => uses x.slots j + if x.parent = j then 1 else 0

/-- The references to the node `j`. The root also refers to itself. -/
def links (S : Finset ι) (root : ι) (T : DirTree ι ν) (j : ι) : ℕ :=
  ∑ d ∈ S, weight (T d) j + if j = root then 1 else 0

/-- The slots of all directories, with two for each to itself and its parent. -/
def total (S : Finset ι) (T : DirTree ι ν) : ℕ :=
  ∑ d ∈ S, (T d).elim 0 fun x => x.slots.length + 2

/-- The directory above. -/
def above (T : DirTree ι ν) (d : ι) : ι := ((T d).map Dir.parent).getD d

section Links

variable {S : Finset ι} {root d i j : ι} {T : DirTree ι ν} {x y : Dir ι ν} {es : List (Slot ι ν)}

@[simp] theorem weight_none (j : ι) : weight (none : Option (Dir ι ν)) j = 0 := rfl

@[simp] theorem weight_some (x : Dir ι ν) (j : ι) :
    weight (some x) j = uses x.slots j + if x.parent = j then 1 else 0 := rfl

/-- One directory of the tree changes. -/
theorem links_update (hd : d ∈ S) (v : Option (Dir ι ν)) (j : ι) :
    links S root (Function.update T d v) j + weight (T d) j = links S root T j + weight v j := by
  have new := Finset.add_sum_erase S (fun k => weight (Function.update T d v k) j) hd
  have old := Finset.add_sum_erase S (fun k => weight (T k) j) hd
  have rest : ∑ k ∈ S.erase d, weight (Function.update T d v k) j =
      ∑ k ∈ S.erase d, weight (T k) j :=
    Finset.sum_congr rfl fun k hk => by rw [Function.update_of_ne (Finset.ne_of_mem_erase hk)]
  simp only [Function.update_self] at new
  unfold links
  omega

/-- A node that a slot names has a link. -/
theorem links_pos (h : Wf S root T) (hd : T d = some x) (hj : 0 < uses x.slots j) :
    0 < links S root T j := by
  have mem : d ∈ S := h.support d (by rw [hd]; exact nofun)
  have one : weight (T d) j ≤ ∑ k ∈ S, weight (T k) j :=
    Finset.single_le_sum (f := fun k => weight (T k) j) (fun _ _ => Nat.zero_le _) mem
  rw [hd, weight_some] at one
  unfold links
  omega

theorem links_root_pos (S : Finset ι) (T : DirTree ι ν) : 0 < links S root T root := by
  unfold links
  rw [if_pos rfl]
  exact Nat.succ_pos _

/-- A directory of the tree has a link. -/
theorem Wf.links_pos (h : Wf S root T) (hd : T d ≠ none) : 0 < links S root T d := by
  obtain ⟨y, hy⟩ := Option.ne_none_iff_exists'.mp hd
  by_cases hr : d = root
  · rw [hr]
    exact links_root_pos S T
  · obtain ⟨x, hx, one⟩ := h.named d y hy hr
    exact DirTree.links_pos h hx (by omega)

/-- A node without links is named nowhere. -/
theorem Wf.uses_zero (h : Wf S root T) (hj : links S root T j = 0) (hd : T d = some x) :
    uses x.slots j = 0 := by
  by_contra hu
  have := DirTree.links_pos h hd (Nat.pos_of_ne_zero hu)
  omega

/-- The directory above is in the tree. -/
theorem Wf.parent_ne (h : Wf S root T) (hd : T d = some x) : T x.parent ≠ none := by
  by_cases hr : d = root
  · obtain ⟨r, hr', top⟩ := h.rooted
    rw [hr, hr'] at hd
    cases hd
    rw [top, hr']
    exact nofun
  · obtain ⟨y, hy, -⟩ := h.named d x hd hr
    rw [hy]
    exact nofun

/-- What has a link is a directory or has a name in one. -/
theorem Wf.links_cases (h : Wf S root T) (hj : 0 < links S root T j) :
    T j ≠ none ∨ ∃ d x, T d = some x ∧ 0 < uses x.slots j := by
  by_contra hn
  rw [not_or, not_not] at hn
  obtain ⟨hnone, unnamed⟩ := hn
  have zero : ∀ d ∈ S, weight (T d) j = 0 := by
    intro d _
    cases hd : T d with
    | none => rfl
    | some x =>
      have parent : x.parent ≠ j := by
        rintro rfl
        exact h.parent_ne hd hnone
      rw [weight_some, if_neg parent, Nat.add_zero]
      by_contra hu
      exact unnamed ⟨d, x, hd, Nat.pos_of_ne_zero hu⟩
  obtain ⟨r, hr, -⟩ := h.rooted
  unfold links at hj
  rw [Finset.sum_eq_zero zero, if_neg] at hj
  · exact absurd hj (Nat.lt_irrefl 0)
  · rintro rfl
    rw [hr] at hnone
    cases hnone

/-- There are no more links to a node than slots. -/
theorem Wf.links_le (h : Wf S root T) (j : ι) : links S root T j ≤ total S T := by
  obtain ⟨x, hx, -⟩ := h.rooted
  have mem : root ∈ S := h.support root (by rw [hx]; exact nofun)
  have split := fun f : ι → ℕ => Finset.add_sum_erase S f mem
  have le : ∀ v : Option (Dir ι ν), weight v j + (if v = none then 0 else 1) ≤
      v.elim 0 fun x => x.slots.length + 2 := by
    rintro (_ | v)
    · exact Nat.le_refl _
    · have := uses_le_length v.slots j
      rw [weight_some, if_neg (Option.some_ne_none v), Option.elim_some]
      split <;> omega
  have rest : ∑ k ∈ S.erase root, weight (T k) j ≤
      ∑ k ∈ S.erase root, (T k).elim 0 fun x => x.slots.length + 2 :=
    Finset.sum_le_sum fun k _ => Nat.le_trans (Nat.le_add_right _ _) (le (T k))
  have one := le (T root)
  rw [if_neg (by rw [hx]; exact nofun)] at one
  have hl := split fun k => weight (T k) j
  have ht := split fun k => (T k).elim 0 fun x => x.slots.length + 2
  unfold links total
  split <;> omega

end Links

section Wf

variable {S : Finset ι} {root d i j : ι} {T : DirTree ι ν} {x y : Dir ι ν} {es : List (Slot ι ν)}

/-- The slots of a directory change, but not those of directories. -/
theorem Wf.slots (h : Wf S root T) (hd : T d = some x)
    (same : ∀ j, T j ≠ none → uses es j = uses x.slots j) :
    Wf S root (Function.update T d (some ⟨x.parent, es⟩)) := by
  -- what a directory of the new tree was before
  have old : ∀ k z, Function.update T d (some ⟨x.parent, es⟩) k = some z →
      ∃ w, T k = some w ∧ z.parent = w.parent ∧ ∀ j, T j ≠ none → uses z.slots j = uses w.slots j := by
    intro k z hk
    by_cases e : k = d
    · rw [e, Function.update_self] at hk
      cases hk
      exact ⟨x, e ▸ hd, rfl, same⟩
    · rw [Function.update_of_ne e] at hk
      exact ⟨z, hk, rfl, fun _ _ => rfl⟩
  have new : ∀ k w, T k = some w → ∃ z, Function.update T d (some ⟨x.parent, es⟩) k = some z ∧
      z.parent = w.parent ∧ ∀ j, T j ≠ none → uses z.slots j = uses w.slots j := by
    intro k w hk
    by_cases e : k = d
    · rw [e, hd] at hk
      cases hk
      rw [e, Function.update_self]
      exact ⟨_, rfl, rfl, same⟩
    · rw [Function.update_of_ne e]
      exact ⟨w, hk, rfl, fun _ _ => rfl⟩
  have some' : ∀ {k w}, T k = some w → T k ≠ none := fun hk => by rw [hk]; exact nofun
  obtain ⟨r, hr, top⟩ := h.rooted
  obtain ⟨rank, hrank⟩ := h.rank
  refine ⟨fun k hk => ?_, ?_, fun k z j y hk hu hj => ?_, fun j y hj hne => ?_, fun k z hk => ?_,
    rank, fun j y hj hne => ?_⟩
  · obtain ⟨z, hz⟩ := Option.ne_none_iff_exists'.mp hk
    obtain ⟨w, hw, -⟩ := old k z hz
    exact h.support k (some' hw)
  · obtain ⟨z, hz, parent, -⟩ := new root r hr
    exact ⟨z, hz, parent.trans top⟩
  · obtain ⟨w, hw, -, uses⟩ := old k z hk
    obtain ⟨v, hv, parent, -⟩ := old j y hj
    rw [uses j (some' hv)] at hu
    rw [parent]
    exact h.up k w j v hw hu hv
  · obtain ⟨v, hv, parent, -⟩ := old j y hj
    obtain ⟨w, hw, one⟩ := h.named j v hv hne
    obtain ⟨z, hz, -, uses⟩ := new _ w hw
    rw [parent]
    exact ⟨z, hz, (uses j (some' hv)).trans one⟩
  · obtain ⟨w, hw, -, uses⟩ := old k z hk
    exact (uses root (some' hr)).trans (h.unnamed k w hw)
  · obtain ⟨v, hv, parent, -⟩ := old j y hj
    rw [parent]
    exact hrank j v hv hne

/-- A directory that no slot names gets its one name. -/
theorem Wf.mkdir (h : Wf S root T) (hd : T d = some x) (hj : T j = none) (mem : j ∈ S)
    (fresh : links S root T j = 0) (uses' : ∀ i, uses es i = uses x.slots i + if j = i then 1 else 0) :
    Wf S root (Function.update (Function.update T d (some ⟨x.parent, es⟩)) j (some ⟨d, []⟩)) := by
  have hjd : j ≠ d := by
    rintro rfl
    rw [hd] at hj
    cases hj
  have wf : Wf S root (Function.update T d (some ⟨x.parent, es⟩)) := by
    refine h.slots hd fun i hi => ?_
    rw [uses', if_neg]
    · rfl
    · rintro rfl
      exact hi hj
  have hj' : Function.update T d (some ⟨x.parent, es⟩) j = none := by
    rwa [Function.update_of_ne hjd]
  have hd' : Function.update T d (some ⟨x.parent, es⟩) d = some ⟨x.parent, es⟩ :=
    Function.update_self ..
  -- only `d` names the new directory, and once
  have uses_j : ∀ k w, Function.update T d (some ⟨x.parent, es⟩) k = some w →
      uses w.slots j = if k = d then 1 else 0 := by
    intro k w hk
    by_cases e : k = d
    · rw [e, hd'] at hk
      cases hk
      rw [if_pos e, uses' j, if_pos rfl, h.uses_zero fresh hd]
    · rw [Function.update_of_ne e] at hk
      rw [if_neg e, h.uses_zero fresh hk]
  generalize Function.update T d (some (⟨x.parent, es⟩ : Dir ι ν)) = T' at *
  have keep : ∀ k, k ≠ j → Function.update T' j (some ⟨d, []⟩) k = T' k :=
    fun k hk => Function.update_of_ne hk ..
  have self : Function.update T' j (some ⟨d, []⟩) j = some ⟨d, []⟩ := Function.update_self ..
  obtain ⟨r, hr, top⟩ := wf.rooted
  obtain ⟨rank, hrank⟩ := wf.rank
  have hroot : root ≠ j := by
    rintro rfl
    rw [hj'] at hr
    cases hr
  refine ⟨fun k hk => ?_, ⟨r, (keep root hroot).trans hr, top⟩, fun k z i y hk hu hi => ?_,
    fun i y hi hne => ?_, fun k z hk => ?_, Function.update rank j (rank d + 1), fun i y hi hne => ?_⟩
  · by_cases e : k = j
    · rwa [e]
    · rw [keep k e] at hk
      exact wf.support k hk
  · by_cases e : k = j
    · rw [e, self] at hk
      cases hk
      exact absurd hu (Nat.lt_irrefl 0)
    · rw [keep k e] at hk
      by_cases ei : i = j
      · subst ei
        rw [self] at hi
        cases hi
        rw [uses_j k z hk] at hu
        by_contra hc
        rw [if_neg fun ek => hc ek.symm] at hu
        exact absurd hu (Nat.lt_irrefl 0)
      · rw [keep i ei] at hi
        exact wf.up k z i y hk hu hi
  · by_cases ei : i = j
    · subst ei
      rw [self] at hi
      cases hi
      refine ⟨_, (keep d (Ne.symm hjd)).trans hd', ?_⟩
      rw [uses_j d _ hd', if_pos rfl]
    · rw [keep i ei] at hi
      obtain ⟨w, hw, one⟩ := wf.named i y hi hne
      refine ⟨w, (keep _ ?_).trans hw, one⟩
      rintro e
      rw [e, hj'] at hw
      cases hw
  · by_cases e : k = j
    · rw [e, self] at hk
      cases hk
      rfl
    · rw [keep k e] at hk
      exact wf.unnamed k z hk
  · by_cases ei : i = j
    · subst ei
      rw [self] at hi
      cases hi
      rw [Function.update_self, Function.update_of_ne (Ne.symm hjd)]
      exact Nat.lt_succ_self _
    · rw [keep i ei] at hi
      obtain ⟨w, hw, -⟩ := wf.named i y hi hne
      rw [Function.update_of_ne ei, Function.update_of_ne]
      · exact hrank i y hi hne
      · rintro e
        rw [e, hj'] at hw
        cases hw

/-- A directory with only free slots loses its one name. -/
theorem Wf.rmdir (h : Wf S root T) (hd : T d = some x) (hj : T j = some y) (hr : j ≠ root)
    (empty : ∀ i, uses y.slots i = 0) (named : 0 < uses x.slots j)
    (uses' : ∀ i, uses es i + (if j = i then 1 else 0) = uses x.slots i) :
    Wf S root (Function.update (Function.update T d (some ⟨x.parent, es⟩)) j none) ∧ y.parent = d := by
  have up : y.parent = d := h.up d x j y hd named hj
  obtain ⟨rank, hrank⟩ := h.rank
  have hjd : d ≠ j := by
    rintro rfl
    have := hrank d y hj hr
    rw [up] at this
    exact absurd this (Nat.lt_irrefl _)
  -- the other directories keep the slots that name directories that stay
  have old : ∀ k z, Function.update (Function.update T d (some ⟨x.parent, es⟩)) j none k = some z →
      k ≠ j ∧ ∃ w, T k = some w ∧ z.parent = w.parent ∧
        ∀ i, i ≠ j → uses z.slots i = uses w.slots i := by
    intro k z hk
    by_cases ej : k = j
    · rw [ej, Function.update_self] at hk
      cases hk
    rw [Function.update_of_ne ej] at hk
    refine ⟨ej, ?_⟩
    by_cases e : k = d
    · rw [e, Function.update_self] at hk
      cases hk
      refine ⟨x, e ▸ hd, rfl, fun i hi => ?_⟩
      have := uses' i
      rw [if_neg fun he => hi he.symm] at this
      exact this
    · rw [Function.update_of_ne e] at hk
      exact ⟨z, hk, rfl, fun _ _ => rfl⟩
  have new : ∀ k w, k ≠ j → T k = some w → ∃ z,
      Function.update (Function.update T d (some ⟨x.parent, es⟩)) j none k = some z ∧
        z.parent = w.parent ∧ ∀ i, i ≠ j → uses z.slots i = uses w.slots i := by
    intro k w ej hk
    rw [Function.update_of_ne ej]
    by_cases e : k = d
    · rw [e, hd] at hk
      cases hk
      rw [e, Function.update_self]
      refine ⟨_, rfl, rfl, fun i hi => ?_⟩
      have := uses' i
      rw [if_neg fun he => hi he.symm] at this
      exact this
    · rw [Function.update_of_ne e]
      exact ⟨w, hk, rfl, fun _ _ => rfl⟩
  have some' : ∀ {k w}, T k = some w → T k ≠ none := fun hk => by rw [hk]; exact nofun
  obtain ⟨r, hroot, top⟩ := h.rooted
  refine ⟨⟨fun k hk => ?_, ?_, fun k z i u hk hu hi => ?_, fun i u hi hne => ?_, fun k z hk => ?_,
    rank, fun i u hi hne => ?_⟩, up⟩
  · obtain ⟨z, hz⟩ := Option.ne_none_iff_exists'.mp hk
    obtain ⟨-, w, hw, -⟩ := old k z hz
    exact h.support k (some' hw)
  · obtain ⟨z, hz, parent, -⟩ := new root r (Ne.symm hr) hroot
    exact ⟨z, hz, parent.trans top⟩
  · obtain ⟨-, w, hw, -, same⟩ := old k z hk
    obtain ⟨ei, v, hv, parent, -⟩ := old i u hi
    rw [same i ei] at hu
    rw [parent]
    exact h.up k w i v hw hu hv
  · obtain ⟨ei, v, hv, parent, -⟩ := old i u hi
    obtain ⟨w, hw, one⟩ := h.named i v hv hne
    have above : v.parent ≠ j := by
      intro e
      rw [e, hj] at hw
      cases hw
      rw [empty i] at one
      cases one
    obtain ⟨z, hz, -, same⟩ := new _ w above hw
    rw [parent]
    exact ⟨z, hz, (same i ei).trans one⟩
  · obtain ⟨-, w, hw, -, same⟩ := old k z hk
    exact (same root (Ne.symm hr)).trans (h.unnamed k w hw)
  · obtain ⟨-, v, hv, parent, -⟩ := old i u hi
    rw [parent]
    exact hrank i v hv hne

/-- The way up from a directory ends at the root. -/
theorem Wf.reaches_root (h : Wf S root T) (hd : T d ≠ none) : ∃ n, (above T)^[n] d = root := by
  obtain ⟨rank, hrank⟩ := h.rank
  induction hr : rank d using Nat.strong_induction_on generalizing d with
  | _ r ih =>
    by_cases he : d = root
    · exact ⟨0, he⟩
    obtain ⟨x, hx⟩ := Option.ne_none_iff_exists'.mp hd
    obtain ⟨y, hy, -⟩ := h.named d x hx he
    have parent : above T d = x.parent := by
      unfold above
      rw [hx]
      rfl
    obtain ⟨n, hn⟩ := ih (rank x.parent) (hr ▸ hrank d x hx he) (by rw [hy]; exact nofun) rfl
    exact ⟨n + 1, by rw [Function.iterate_succ_apply, parent, hn]⟩

end Wf

end DirTree

end EasyXv6.Lib
