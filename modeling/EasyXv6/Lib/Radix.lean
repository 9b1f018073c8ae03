import Mathlib

set_option autoImplicit false

/-!
# Radix trees in memory

A tree is a root address and a function that reads the `n` children of a node. Nothing is said of
sharing: the pages of a tree are a multiset, and that no page occurs twice is a property of it.
-/
namespace EasyXv6.Lib.Radix
open Finset

variable {A : Type} {n : ℕ}

/-- What the nodes above the depth `d` and the leaves at it contribute. -/
def gather (n : ℕ) (node leaf : A → Multiset A) (child : A → ℕ → Option A) : ℕ → A → Multiset A
  | 0, a => leaf a
  | d + 1, a => node a +
      ∑ i ∈ range n, (child a i).elim 0 (gather n node leaf child d)

theorem gather_zero (node leaf : A → Multiset A) (child : A → ℕ → Option A) (a : A) :
    gather n node leaf child 0 a = leaf a := rfl

theorem gather_succ (node leaf : A → Multiset A) (child : A → ℕ → Option A) (d : ℕ) (a : A) :
    gather n node leaf child (d + 1) a =
      node a + ∑ i ∈ range n, (child a i).elim 0 (gather n node leaf child d) := rfl

def nodes (n : ℕ) (child : A → ℕ → Option A) : ℕ → A → Multiset A :=
  gather n (fun a => {a}) (fun _ => 0) child

def leaves (n : ℕ) (child : A → ℕ → Option A) : ℕ → A → Multiset A :=
  gather n (fun _ => 0) (fun a => {a}) child

def pages (n : ℕ) (child : A → ℕ → Option A) : ℕ → A → Multiset A :=
  gather n (fun a => {a}) (fun a => {a}) child

theorem pages_zero (child : A → ℕ → Option A) (a : A) : pages n child 0 a = {a} := rfl

theorem pages_succ (child : A → ℕ → Option A) (d : ℕ) (a : A) :
    pages n child (d + 1) a = {a} + ∑ i ∈ range n, (child a i).elim 0 (pages n child d) := rfl

/-- The address that a path leads to. -/
def walk (child : A → ℕ → Option A) : List ℕ → A → Option A
  | [], a => some a
  | i :: is, a => (child a i).bind (walk child is)

section Gather

variable {node leaf : A → Multiset A} {child child' : A → ℕ → Option A} {d e : ℕ} {a b : A}
  {i : ℕ}

theorem pages_eq (n : ℕ) (child : A → ℕ → Option A) (d : ℕ) (a : A) :
    pages n child d a = nodes n child d a + leaves n child d a := by
  induction d generalizing a with
  | zero => simp [pages, nodes, leaves, gather]
  | succ d ih =>
    have each : ∀ i, (child a i).elim 0 (pages n child d) =
        (child a i).elim 0 (nodes n child d) + (child a i).elim 0 (leaves n child d) := by
      intro i
      cases child a i with
      | none => rfl
      | some b => exact ih b
    change {a} + ∑ i ∈ range n, (child a i).elim 0 (pages n child d) =
      ({a} + ∑ i ∈ range n, (child a i).elim 0 (nodes n child d)) +
        (0 + ∑ i ∈ range n, (child a i).elim 0 (leaves n child d))
    rw [sum_congr rfl (fun i _ => each i), sum_add_distrib, zero_add, add_assoc]

theorem mem_nodes_self : a ∈ nodes n child (d + 1) a :=
  Multiset.mem_add.mpr (Or.inl (Multiset.mem_singleton_self a))

theorem mem_nodes_child (hi : i < n) (hb : child a i = some b) {x : A} (hx : x ∈ nodes n child d b) :
    x ∈ nodes n child (d + 1) a := by
  refine Multiset.mem_add.mpr (Or.inr (Multiset.mem_sum.mpr ⟨i, mem_range.mpr hi, ?_⟩))
  rw [hb]
  exact hx

theorem mem_nodes_succ {x : A} : x ∈ nodes n child (d + 1) a ↔
    x = a ∨ ∃ i < n, ∃ b, child a i = some b ∧ x ∈ nodes n child d b := by
  constructor
  · intro h
    rcases Multiset.mem_add.mp h with h | h
    · exact Or.inl (Multiset.mem_singleton.mp h)
    · obtain ⟨i, hi, h⟩ := Multiset.mem_sum.mp h
      refine Or.inr ⟨i, mem_range.mp hi, ?_⟩
      cases hb : child a i with
      | none =>
        rw [hb] at h
        exact absurd h (Multiset.notMem_zero x)
      | some b =>
        rw [hb] at h
        exact ⟨b, rfl, h⟩
  · rintro (rfl | ⟨i, hi, b, hb, h⟩)
    · exact mem_nodes_self
    · exact mem_nodes_child hi hb h

/-- The nodes of fewer levels are nodes. -/
theorem nodes_mono {x : A} (h : x ∈ nodes n child d a) : x ∈ nodes n child (d + 1) a := by
  induction d generalizing a with
  | zero => exact absurd h (Multiset.notMem_zero x)
  | succ d ih =>
    rcases mem_nodes_succ.mp h with rfl | ⟨i, hi, b, hb, h⟩
    · exact mem_nodes_self
    · exact mem_nodes_child hi hb (ih h)

/-- What hangs below a node without children. -/
theorem gather_of_childless (h : ∀ i < n, child a i = none) :
    gather n node leaf child (d + 1) a = node a := by
  rw [gather_succ, sum_eq_zero, add_zero]
  intro i hi
  rw [h i (mem_range.mp hi)]
  rfl

theorem mem_leaves_child (hi : i < n) (hb : child a i = some b) {x : A}
    (hx : x ∈ leaves n child d b) : x ∈ leaves n child (d + 1) a := by
  refine Multiset.mem_add.mpr (Or.inr (Multiset.mem_sum.mpr ⟨i, mem_range.mpr hi, ?_⟩))
  rw [hb]
  exact hx

/-- A tree does not change while the entries of its nodes do not. -/
theorem gather_congr (h : ∀ b ∈ nodes n child d a, ∀ i < n, child' b i = child b i) :
    gather n node leaf child' d a = gather n node leaf child d a := by
  induction d generalizing a with
  | zero => rfl
  | succ d ih =>
    unfold gather
    congr 1
    apply sum_congr rfl
    intro i hi
    rw [h a mem_nodes_self i (mem_range.mp hi)]
    cases hb : child a i with
    | none => rfl
    | some b => exact ih fun x hx => h x (mem_nodes_child (mem_range.mp hi) hb hx)

theorem mem_nodes_of_walk {is : List ℕ} (his : ∀ i ∈ is, i < n) (h : walk child is a = some b)
    (hd : is.length < d) : b ∈ nodes n child d a := by
  induction is generalizing a d with
  | nil =>
    cases h
    obtain ⟨e, rfl⟩ : ∃ e, d = e + 1 := ⟨d - 1, by simp at hd; omega⟩
    exact mem_nodes_self
  | cons i is ih =>
    obtain ⟨e, rfl⟩ : ∃ e, d = e + 1 := ⟨d - 1, by simp at hd; omega⟩
    obtain ⟨x, hx, h⟩ := Option.bind_eq_some_iff.mp h
    simp only [List.length_cons] at hd
    exact mem_nodes_child (his i List.mem_cons_self) hx
      (ih (fun j hj => his j (List.mem_cons_of_mem _ hj)) h (by omega))

/-- Every node is at the end of a path. -/
theorem walk_of_mem_nodes (h : b ∈ nodes n child d a) :
    ∃ is : List ℕ, (∀ i ∈ is, i < n) ∧ is.length < d ∧ walk child is a = some b := by
  induction d generalizing a with
  | zero => exact absurd h (Multiset.notMem_zero b)
  | succ d ih =>
    rcases mem_nodes_succ.mp h with rfl | ⟨i, hi, x, hx, h⟩
    · exact ⟨[], by simp, Nat.succ_pos d, rfl⟩
    · obtain ⟨is, his, len, hw⟩ := ih h
      refine ⟨i :: is, ?_, Nat.succ_lt_succ len, ?_⟩
      · intro j hj
        rcases List.mem_cons.mp hj with rfl | hj
        · exact hi
        · exact his j hj
      · rw [walk, hx, Option.bind_some, hw]

theorem mem_leaves_of_walk {is : List ℕ} (his : ∀ i ∈ is, i < n)
    (h : walk child is a = some b) : b ∈ leaves n child is.length a := by
  induction is generalizing a with
  | nil =>
    cases h
    exact Multiset.mem_singleton_self b
  | cons i is ih =>
    obtain ⟨x, hx, h⟩ := Option.bind_eq_some_iff.mp h
    exact mem_leaves_child (his i List.mem_cons_self) hx
      (ih (fun j hj => his j (List.mem_cons_of_mem _ hj)) h)

theorem walk_append (is js : List ℕ) : walk child (is ++ js) a =
    (walk child is a).bind (walk child js) := by
  induction is generalizing a with
  | nil => rfl
  | cons i is ih =>
    change (child a i).bind (walk child (is ++ js)) = ((child a i).bind (walk child is)).bind _
    rw [Option.bind_assoc]
    congr 1
    funext x
    exact ih

/-- A walk does not change while the entries that it passes do not. -/
theorem walk_congr {is : List ℕ} (h : ∀ js k, js ++ [k] <+: is → ∀ b, walk child js a = some b →
    child' b k = child b k) : walk child' is a = walk child is a := by
  induction is generalizing a with
  | nil => rfl
  | cons i is ih =>
    have first : child' a i = child a i := h [] i ⟨is, rfl⟩ a rfl
    change (child' a i).bind _ = (child a i).bind _
    rw [first]
    cases hb : child a i with
    | none => rfl
    | some b =>
      refine ih fun js k hp x hx => h (i :: js) k ?_ x ?_
      · exact List.prefix_cons_inj i |>.mpr hp
      · change (child a i).bind _ = _
        rw [hb]
        exact hx

theorem nodup_of_sum {s : Finset ℕ} {f : ℕ → Multiset A} (h : (∑ i ∈ s, f i).Nodup) (hi : i ∈ s) :
    (f i).Nodup :=
  Multiset.nodup_of_le (single_le_sum_of_canonicallyOrdered hi) h

theorem disjoint_of_sum [DecidableEq A] {s : Finset ℕ} {f : ℕ → Multiset A} {j : ℕ}
    (h : (∑ i ∈ s, f i).Nodup) (hi : i ∈ s) (hj : j ∈ s) (hne : i ≠ j) {x : A} (hx : x ∈ f i) :
    x ∉ f j := by
  rw [← add_sum_erase s f hi] at h
  have hj' : f j ≤ ∑ k ∈ s.erase i, f k :=
    single_le_sum_of_canonicallyOrdered (mem_erase.mpr ⟨hne.symm, hj⟩)
  intro hxj
  exact Multiset.disjoint_left.mp (Multiset.nodup_add.mp h).2.2 hx (Multiset.mem_of_le hj' hxj)

/-- In a tree without repetition a node is reached by one path. -/
theorem walk_inj [DecidableEq A] {is js : List ℕ} (nodup : (nodes n child d a).Nodup)
    (his : ∀ i ∈ is, i < n) (hjs : ∀ j ∈ js, j < n) (hid : is.length < d) (hjd : js.length < d)
    (hi : walk child is a = some b) (hj : walk child js a = some b) : is = js := by
  -- the root is not one of the nodes below it
  have below : ∀ {a : A} {d k : ℕ} {ks : List ℕ}, (nodes n child d a).Nodup →
      (∀ i ∈ k :: ks, i < n) → (k :: ks).length < d → walk child (k :: ks) a ≠ some a := by
    intro a d k ks nodup hks hd h
    obtain ⟨e, rfl⟩ : ∃ e, d = e + 1 := ⟨d - 1, by simp at hd; omega⟩
    obtain ⟨x, hx, h⟩ := Option.bind_eq_some_iff.mp h
    simp only [List.length_cons] at hd
    apply Multiset.disjoint_left.mp (Multiset.nodup_add.mp (show (({a} : Multiset A) +
      ∑ i ∈ range n, (child a i).elim 0 (nodes n child e)).Nodup from nodup)).2.2
      (Multiset.mem_singleton_self a)
    refine Multiset.mem_sum.mpr ⟨k, mem_range.mpr (hks k List.mem_cons_self), ?_⟩
    rw [hx]
    exact mem_nodes_of_walk (fun i hi => hks i (List.mem_cons_of_mem _ hi)) h (by omega)
  induction is generalizing js a d with
  | nil =>
    cases hi
    cases js with
    | nil => rfl
    | cons j js => exact absurd hj (below nodup hjs hjd)
  | cons i is ih =>
    cases js with
    | nil =>
      cases hj
      exact absurd hi (below nodup his hid)
    | cons j js =>
      obtain ⟨e, rfl⟩ : ∃ e, d = e + 1 := ⟨d - 1, by simp at hid; omega⟩
      simp only [List.length_cons] at hid hjd
      have his' : ∀ k ∈ is, k < n := fun k hk => his k (List.mem_cons_of_mem _ hk)
      have hjs' : ∀ k ∈ js, k < n := fun k hk => hjs k (List.mem_cons_of_mem _ hk)
      obtain ⟨x, hx, hi⟩ := Option.bind_eq_some_iff.mp hi
      obtain ⟨y, hy, hj⟩ := Option.bind_eq_some_iff.mp hj
      obtain ⟨_, nodup, _⟩ := Multiset.nodup_add.mp (show (({a} : Multiset A) +
        ∑ i ∈ range n, (child a i).elim 0 (nodes n child e)).Nodup from nodup)
      have hir := mem_range.mpr (his i List.mem_cons_self)
      have hjr := mem_range.mpr (hjs j List.mem_cons_self)
      have hbi : b ∈ (child a i).elim 0 (nodes n child e) := by
        rw [hx]
        exact mem_nodes_of_walk his' hi (by omega)
      have hbj : b ∈ (child a j).elim 0 (nodes n child e) := by
        rw [hy]
        exact mem_nodes_of_walk hjs' hj (by omega)
      by_cases hij : i = j
      · subst hij
        cases hx.symm.trans hy
        have sub := nodup_of_sum nodup hir
        rw [hx] at sub
        rw [ih sub his' hjs' (by omega) (by omega) hi hj]
      · exact absurd hbj (disjoint_of_sum nodup hir hjr hij hbi)

/-- A path that does not pass the one changed entry. -/
theorem walk_set_apart [DecidableEq A] {is js : List ℕ} (nodup : (nodes n child d a).Nodup)
    (path : walk child is a = some b) (his : ∀ i ∈ is, i < n) (hjs : ∀ j ∈ js, j < n)
    (hid : is.length < d) (hjd : js.length ≤ d)
    (same : ∀ x j, x ≠ b ∨ j ≠ i → child' x j = child x j) (h : ¬ is ++ [i] <+: js) :
    walk child' js a = walk child js a := by
  apply walk_congr
  intro ks k hp x hx
  apply same
  by_contra hne
  simp only [ne_eq, not_or, not_not] at hne
  obtain ⟨rfl, rfl⟩ := hne
  have len := hp.length_le
  simp only [List.length_append, List.length_cons, List.length_nil] at len
  have hks : ∀ j ∈ ks, j < n := fun j hj => hjs j (hp.subset (List.mem_append_left _ hj))
  have := walk_inj nodup his hks hid (by omega) path hx
  subst this
  exact h hp

/-- A path through the one changed entry. -/
theorem walk_set_below [DecidableEq A] {is ks : List ℕ} (nodup : (nodes n child d a).Nodup)
    (path : walk child is a = some b) (his : ∀ i ∈ is, i < n) (hid : is.length < d)
    (same : ∀ x j, x ≠ b ∨ j ≠ i → child' x j = child x j) :
    walk child' (is ++ i :: ks) a = (child' b i).bind (walk child' ks) := by
  have upTo : walk child' is a = some b := by
    rw [walk_set_apart nodup path his his hid (Nat.le_of_lt hid) same, path]
    intro hp
    have := hp.length_le
    simp at this
  rw [walk_append, upTo]
  rfl

theorem walk_of_childless {ks : List ℕ} (h : ∀ j, child a j = none) (hw : walk child ks a = some b) :
    b = a := by
  cases ks with
  | nil => exact (Option.some.inj hw).symm
  | cons k ks =>
    obtain ⟨x, hx, _⟩ := Option.bind_eq_some_iff.mp hw
    rw [h k] at hx
    cases hx

variable (node leaf) in
/-- Changing the one entry `i` of a node `b` on a path replaces what hangs there. -/
theorem gather_set [DecidableEq A] {is : List ℕ} (path : walk child is a = some b)
    (his : ∀ j ∈ is, j < n) (hi : i < n)
    (same : ∀ x j, x ≠ b ∨ j ≠ i → child' x j = child x j)
    (nodup : (nodes n child (is.length + 1 + e) a).Nodup)
    (fresh : ∀ v, child' b i = some v → b ∉ nodes n child e v) :
    gather n node leaf child' (is.length + 1 + e) a + (child b i).elim 0 (gather n node leaf child e) =
      gather n node leaf child (is.length + 1 + e) a +
        (child' b i).elim 0 (gather n node leaf child e) := by
  have away : ∀ {d : ℕ} {v : A}, b ∉ nodes n child d v →
      gather n node leaf child' d v = gather n node leaf child d v :=
    fun hv => gather_congr fun x hx j _ => same x j (Or.inl fun h => hv (h ▸ hx))
  induction is generalizing a with
  | nil =>
    cases path
    simp only [List.length_nil, Nat.zero_add] at nodup ⊢
    rw [Nat.add_comm 1 e] at nodup ⊢
    obtain ⟨_, nodup, out⟩ := Multiset.nodup_add.mp (show (({b} : Multiset A) +
      ∑ i ∈ range n, (child b i).elim 0 (nodes n child e)).Nodup from nodup)
    have notBelow : ∀ j < n, ∀ v, child b j = some v → b ∉ nodes n child e v := by
      intro j hj v hv hb
      apply Multiset.disjoint_left.mp out (Multiset.mem_singleton_self b)
      refine Multiset.mem_sum.mpr ⟨j, mem_range.mpr hj, ?_⟩
      rw [hv]
      exact hb
    have others : ∑ j ∈ (range n).erase i, (child' b j).elim 0 (gather n node leaf child' e) =
        ∑ j ∈ (range n).erase i, (child b j).elim 0 (gather n node leaf child e) := by
      apply sum_congr rfl
      intro j hj
      obtain ⟨hji, hj⟩ := mem_erase.mp hj
      rw [same b j (Or.inr hji)]
      cases hv : child b j with
      | none => rfl
      | some v => exact away (notBelow j (mem_range.mp hj) v hv)
    have here : (child' b i).elim 0 (gather n node leaf child' e) =
        (child' b i).elim 0 (gather n node leaf child e) := by
      cases hv : child' b i with
      | none => rfl
      | some v => exact away (fresh v hv)
    unfold gather
    rw [← add_sum_erase (range n) _ (mem_range.mpr hi),
      ← add_sum_erase (range n) (fun j => (child b j).elim 0 _) (mem_range.mpr hi), others, here]
    abel
  | cons k is ih =>
    obtain ⟨v, hv, path⟩ := Option.bind_eq_some_iff.mp path
    have hk := his k List.mem_cons_self
    have his' : ∀ j ∈ is, j < n := fun j hj => his j (List.mem_cons_of_mem _ hj)
    have len : (k :: is).length + 1 + e = is.length + 1 + e + 1 := by
      simp only [List.length_cons]
      omega
    rw [len] at nodup ⊢
    obtain ⟨_, nodup, out⟩ := Multiset.nodup_add.mp (show (({a} : Multiset A) +
      ∑ i ∈ range n, (child a i).elim 0 (nodes n child (is.length + 1 + e))).Nodup from nodup)
    have hb : b ∈ (child a k).elim 0 (nodes n child (is.length + 1 + e)) := by
      rw [hv]
      exact mem_nodes_of_walk his' path (by omega)
    have hab : a ≠ b := by
      rintro rfl
      exact Multiset.disjoint_left.mp out (Multiset.mem_singleton_self a)
        (Multiset.mem_sum.mpr ⟨k, mem_range.mpr hk, hb⟩)
    have others : ∑ j ∈ (range n).erase k,
          (child' a j).elim 0 (gather n node leaf child' (is.length + 1 + e)) =
        ∑ j ∈ (range n).erase k,
          (child a j).elim 0 (gather n node leaf child (is.length + 1 + e)) := by
      apply sum_congr rfl
      intro j hj
      obtain ⟨hjk, hj⟩ := mem_erase.mp hj
      rw [same a j (Or.inl hab)]
      have hbj := disjoint_of_sum nodup (mem_range.mpr hk) hj hjk.symm hb
      cases hw : child a j with
      | none => rfl
      | some w =>
        rw [hw] at hbj
        exact away hbj
    have below := ih path his' (by
      have := nodup_of_sum nodup (mem_range.mpr hk)
      rwa [hv] at this)
    change (node a + ∑ j ∈ range n, _) + _ = (node a + ∑ j ∈ range n, _) + _
    rw [← add_sum_erase (range n) _ (mem_range.mpr hk),
      ← add_sum_erase (range n) (fun j => (child a j).elim 0 _) (mem_range.mpr hk), others,
      same a k (Or.inl hab), hv]
    simp only [Option.elim_some]
    generalize ∑ j ∈ (range n).erase k,
      (child a j).elim 0 (gather n node leaf child (is.length + 1 + e)) = rest
    calc node a + (gather n node leaf child' (is.length + 1 + e) v + rest) +
          (child b i).elim 0 (gather n node leaf child e)
        = (gather n node leaf child' (is.length + 1 + e) v +
            (child b i).elim 0 (gather n node leaf child e)) + (node a + rest) := by abel
      _ = (gather n node leaf child (is.length + 1 + e) v +
            (child' b i).elim 0 (gather n node leaf child e)) + (node a + rest) := by rw [below]
      _ = _ := by abel

end Gather

-- `gather 512 _ _ _ 3 a` is not to be evaluated by unification.
attribute [irreducible] gather

end EasyXv6.Lib.Radix
