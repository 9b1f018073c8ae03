import EasyXv6.Lib.Radix
import EasyXv6.Mem.Vmem

set_option autoImplicit false

/-!
# A page table as a tree and as a map

The tree has its nodes at the depths 0, 1 and 2 and its leaves at the depth 3. An entry that points
outside of `[ALLOC_BEGIN, PHYSTOP)` has no child: the trampoline is no leaf.
-/
namespace EasyXv6.Mem
open Lib Radix

variable {L : Layout} {s s' : Pmem} {m m' : ℕ → Page} {free : List ℕ} {r a b i v va va' : ℕ}

/-- Entry `i` of the page `p`. -/
def entry (m : ℕ → Page) (p i : ℕ) : ℕ := (m p).num (8 * i) 8

def child (L : Layout) (m : ℕ → Page) (p i : ℕ) : Option ℕ :=
  if InRange L (PTE2PA (entry m p i)) then some (PTE2PA (entry m p i)) else none

def tableNodes (L : Layout) (m : ℕ → Page) (r : ℕ) : Multiset ℕ := nodes 512 (child L m) 3 r

def tableLeaves (L : Layout) (m : ℕ → Page) (r : ℕ) : Multiset ℕ := leaves 512 (child L m) 3 r

/-- What an entry adds to the leaves. -/
def leafOf (L : Layout) (pte : ℕ) : Multiset ℕ := if InRange L (PTE2PA pte) then {PTE2PA pte} else 0

/-- The map that a table stands for: the entry of `va`, or 0. -/
def pteAt (L : Layout) (m : ℕ → Page) (r va : ℕ) : ℕ :=
  (walk (child L m) (path va) r).elim 0 (entry m · (PX va 0))

structure TreeOk (L : Layout) (m : ℕ → Page) (r : ℕ) : Prop where
  nodup : (tableNodes L m r).Nodup
  valid : ∀ b ∈ tableNodes L m r, ∀ i < 512, entry m b i = 0 ∨ isValid (entry m b i)
  inner : ∀ is b, (∀ i ∈ is, i < 512) → is.length < 2 → walk (child L m) is r = some b →
    ∀ i < 512, entry m b i ≠ 0 → child L m b i = some (PTE2PA (entry m b i))

theorem child_eq_some : child L m b i = some v ↔ PTE2PA (entry m b i) = v ∧ InRange L v := by
  unfold child
  constructor
  · intro h
    split at h
    next hr => cases h; exact ⟨rfl, hr⟩
    · cases h
  · rintro ⟨rfl, h⟩
    rw [if_pos h]

theorem child_of_zero (h : entry m b i = 0) : child L m b i = none := by
  unfold child
  rw [h, if_neg]
  intro hr
  exact absurd hr.pos (by decide)

@[simp] theorem leafOf_zero : leafOf L 0 = 0 := by
  rw [leafOf, if_neg]
  intro h
  exact absurd h.pos (by decide)

theorem leafOf_eq (L : Layout) (m : ℕ → Page) (b i : ℕ) :
    leafOf L (entry m b i) = (child L m b i).elim 0 fun v => {v} := by
  unfold leafOf child
  split <;> rfl

/-- The tables below the root are pages of the allocator. -/
theorem node_inRange {d : ℕ} (h : a ∈ nodes 512 (child L m) d r) : a = r ∨ InRange L a := by
  induction d generalizing r with
  | zero =>
    rw [nodes, gather_zero] at h
    exact absurd h (Multiset.notMem_zero a)
  | succ d ih =>
    rcases mem_nodes_succ.mp h with rfl | ⟨i, -, b, hb, h⟩
    · exact Or.inl rfl
    · right
      rcases ih h with rfl | range
      · exact (child_eq_some.mp hb).2
      · exact range

section Congr

theorem entry_congr (h : m' b = m b) : entry m' b i = entry m b i := by
  unfold entry
  rw [h]

theorem child_congr (h : m' b = m b) : child L m' b i = child L m b i := by
  unfold child
  rw [entry_congr h]

theorem gather_of_same {node leaf : ℕ → Multiset ℕ} {d : ℕ}
    (h : ∀ b ∈ nodes 512 (child L m) d r, m' b = m b) :
    gather 512 node leaf (child L m') d r = gather 512 node leaf (child L m) d r :=
  gather_congr fun b hb _ _ => child_congr (h b hb)

theorem walk_of_same (h : ∀ b ∈ tableNodes L m r, m' b = m b) {is : List ℕ}
    (his : ∀ i ∈ is, i < 512) (len : is.length ≤ 3) :
    walk (child L m') is r = walk (child L m) is r := by
  apply walk_congr
  intro js k hp b hb
  apply child_congr
  apply h
  refine mem_nodes_of_walk (fun i hi => his i (hp.subset (List.mem_append_left _ hi))) hb ?_
  have := hp.length_le
  simp only [List.length_append, List.length_cons, List.length_nil] at this
  omega

theorem mem_tableNodes_path (h : walk (child L m) (path va) r = some b) :
    b ∈ tableNodes L m r :=
  mem_nodes_of_walk path_lt h (path_length va ▸ by decide)

theorem pteAt_of_same (h : ∀ b ∈ tableNodes L m r, m' b = m b) :
    pteAt L m' r va = pteAt L m r va := by
  unfold pteAt
  rw [walk_of_same h path_lt (path_length va ▸ by decide)]
  cases hw : walk (child L m) (path va) r with
  | none => simp only [Option.elim_none]
  | some b =>
    simp only [Option.elim_some]
    exact entry_congr (h b (mem_tableNodes_path hw))

theorem TreeOk.of_same (ok : TreeOk L m r) (h : ∀ b ∈ tableNodes L m r, m' b = m b) :
    TreeOk L m' r ∧ tableNodes L m' r = tableNodes L m r ∧
      tableLeaves L m' r = tableLeaves L m r := by
  have same : tableNodes L m' r = tableNodes L m r := gather_of_same h
  refine ⟨⟨?_, ?_, ?_⟩, same, gather_of_same h⟩
  · rw [same]
    exact ok.nodup
  · intro b hb i hi
    rw [same] at hb
    rw [entry_congr (h b hb)]
    exact ok.valid b hb i hi
  · intro is b his len hw i hi hne
    rw [walk_of_same h his (by omega)] at hw
    have hm := h b (mem_nodes_of_walk his hw (by omega))
    rw [entry_congr hm] at hne
    rw [child_congr hm, entry_congr hm]
    exact ok.inner is b his len hw i hi hne

end Congr

section Set

variable {is : List ℕ}

theorem entry_setPte_self (hi : i < 512) (hv : v < 2 ^ 64) :
    entry (s.setPte b i v).mem b i = v := by
  have self : (s.setPte b i v).mem b = (s.mem b).putNum (8 * i) 8 v := Function.update_self ..
  unfold entry
  rw [self, Bytes.num_putNum_self _ _ _ _ (by simp only [PGSIZE]; omega)]
  exact Nat.mod_eq_of_lt hv

theorem entry_setPte_of_ne {x j : ℕ} (h : x ≠ b ∨ j ≠ i) :
    entry (s.setPte b i v).mem x j = entry s.mem x j := by
  by_cases hx : x = b
  · subst hx
    have self : (s.setPte x i v).mem x = (s.mem x).putNum (8 * i) 8 v := Function.update_self ..
    unfold entry
    rw [self, Bytes.num_putNum_of_disjoint]
    omega
  · exact entry_congr (setPage_mem_of_ne hx)

theorem child_setPte_of_ne {x j : ℕ} (h : x ≠ b ∨ j ≠ i) :
    child L (s.setPte b i v).mem x j = child L s.mem x j := by
  unfold child
  rw [entry_setPte_of_ne h]

theorem child_setPte_self (hi : i < 512) (hv : v < 2 ^ 64) :
    child L (s.setPte b i v).mem b i = if InRange L (PTE2PA v) then some (PTE2PA v) else none := by
  unfold child
  rw [entry_setPte_self hi hv]

theorem TreeOk.childless (ok : TreeOk L m r) (hb : b ∈ tableNodes L m r) (hi : i < 512)
    (h : isValid (entry m b i) = false) : entry m b i = 0 := by
  rcases ok.valid b hb i hi with h0 | h1
  · exact h0
  · rw [h] at h1
    cases h1

/-- A new empty table below a node of the upper levels. -/
theorem TreeOk.grow {e : ℕ} (ok : TreeOk L s.mem r) (hw : walk (child L s.mem) is r = some b)
    (his : ∀ j ∈ is, j < 512) (len : is.length + 1 + (e + 1) = 3) (hi : i < 512)
    (free : entry s.mem b i = 0) (hv : v < 2 ^ 64) (hr : InRange L (PTE2PA v))
    (valid : isValid v) (new : PTE2PA v ∉ tableNodes L s.mem r)
    (empty : s.mem (PTE2PA v) = Bytes.zero) :
    TreeOk L (s.setPte b i v).mem r ∧
      tableNodes L (s.setPte b i v).mem r = tableNodes L s.mem r + {PTE2PA v} ∧
      tableLeaves L (s.setPte b i v).mem r = tableLeaves L s.mem r ∧
      (∀ va, pteAt L (s.setPte b i v).mem r va = pteAt L s.mem r va) ∧
      walk (child L (s.setPte b i v).mem) (is ++ [i]) r = some (PTE2PA v) ∧
      ∀ js, (∀ j ∈ js, j < 512) → js.length ≤ 2 →
        (walk (child L (s.setPte b i v).mem) js r = none ↔
          walk (child L s.mem) js r = none ∧ js ≠ is ++ [i]) := by
  have hb : b ∈ tableNodes L s.mem r := mem_nodes_of_walk his hw (by omega)
  have hvb : PTE2PA v ≠ b := fun h => new (h ▸ hb)
  have old : child L s.mem b i = none := child_of_zero free
  have now : child L (s.setPte b i v).mem b i = some (PTE2PA v) := by
    rw [child_setPte_self hi hv, if_pos hr]
  have zero : ∀ j, entry (s.setPte b i v).mem (PTE2PA v) j = 0 := by
    intro j
    rw [entry_setPte_of_ne (Or.inl hvb)]
    unfold entry
    rw [empty]
    exact Bytes.num_zero _ _
  have childless : ∀ j, child L (s.setPte b i v).mem (PTE2PA v) j = none :=
    fun j => child_of_zero (zero j)
  have same : ∀ x j, x ≠ b ∨ j ≠ i → child L (s.setPte b i v).mem x j = child L s.mem x j :=
    fun x j h => child_setPte_of_ne h
  have oldless : ∀ j, child L s.mem (PTE2PA v) j = none := by
    intro j
    rw [← same _ j (Or.inl hvb)]
    exact childless j
  have fresh : ∀ w, child L (s.setPte b i v).mem b i = some w →
      b ∉ nodes 512 (child L s.mem) (e + 1) w := by
    intro w h
    rw [now] at h
    cases h
    rw [nodes, gather_of_childless fun j _ => oldless j]
    exact fun h => hvb (Multiset.mem_singleton.mp h).symm
  have nodup : (nodes 512 (child L s.mem) (is.length + 1 + (e + 1)) r).Nodup := by
    rw [len]
    exact ok.nodup
  have sum : ∀ node leaf : ℕ → Multiset ℕ,
      gather 512 node leaf (child L (s.setPte b i v).mem) 3 r =
        gather 512 node leaf (child L s.mem) 3 r + node (PTE2PA v) := by
    intro node leaf
    have h := gather_set node leaf hw his hi same nodup fresh
    rw [len, old, now, Option.elim_none, Option.elim_some, add_zero,
      gather_of_childless fun j _ => oldless j] at h
    exact h
  have hnodes : tableNodes L (s.setPte b i v).mem r = tableNodes L s.mem r + {PTE2PA v} := sum _ _
  have through : ∀ ks, walk (child L (s.setPte b i v).mem) (is ++ i :: ks) r =
      walk (child L (s.setPte b i v).mem) ks (PTE2PA v) := by
    intro ks
    rw [walk_set_below ok.nodup hw his (by omega) same, now]
    rfl
  have around : ∀ js, (∀ j ∈ js, j < 512) → js.length ≤ 3 → ¬ is ++ [i] <+: js →
      walk (child L (s.setPte b i v).mem) js r = walk (child L s.mem) js r :=
    fun js hjs hlen => walk_set_apart ok.nodup hw his hjs (by omega) hlen same
  refine ⟨⟨?_, ?_, ?_⟩, hnodes, ?_, ?_, ?_, ?_⟩
  · rw [hnodes]
    refine Multiset.nodup_add.mpr ⟨ok.nodup, Multiset.nodup_singleton _, ?_⟩
    exact Multiset.disjoint_singleton.mpr new
  · intro x hx j hj
    by_cases hxb : x = b ∧ j = i
    · obtain ⟨rfl, rfl⟩ := hxb
      rw [entry_setPte_self hi hv]
      exact Or.inr valid
    rw [hnodes] at hx
    rcases Multiset.mem_add.mp hx with hx | hx
    · rw [entry_setPte_of_ne (not_and_or.mp hxb)]
      exact ok.valid x hx j hj
    · rw [Multiset.mem_singleton.mp hx]
      exact Or.inl (zero j)
  · intro js x hjs hlen hx j hj hne
    by_cases hxb : x = b ∧ j = i
    · obtain ⟨rfl, rfl⟩ := hxb
      rw [now, entry_setPte_self hi hv]
    by_cases hp : is ++ [i] <+: js
    · obtain ⟨ks, rfl⟩ := hp
      rw [List.append_assoc, List.singleton_append, through] at hx
      rw [walk_of_childless childless hx] at hne
      exact absurd (zero j) hne
    · rw [around js hjs (by omega) hp] at hx
      rw [entry_setPte_of_ne (not_and_or.mp hxb)] at hne
      rw [child_setPte_of_ne (not_and_or.mp hxb), entry_setPte_of_ne (not_and_or.mp hxb)]
      exact ok.inner js x hjs hlen hx j hj hne
  · have h := sum (fun _ => 0) (fun a => {a})
    rw [add_zero] at h
    exact h
  · intro va
    unfold pteAt
    by_cases hp : is ++ [i] <+: path va
    · obtain ⟨ks, hks⟩ := hp
      rw [List.append_assoc, List.singleton_append] at hks
      rw [← hks, through, walk_append, hw, Option.bind_some]
      change _ = Option.elim ((child L s.mem b i).bind _) 0 _
      rw [old, Option.bind_none, Option.elim_none]
      cases hx : walk (child L (s.setPte b i v).mem) ks (PTE2PA v) with
      | none => rw [Option.elim_none]
      | some x =>
        rw [Option.elim_some, walk_of_childless childless hx]
        exact zero _
    · rw [around (path va) path_lt (path_length va ▸ by decide) hp]
      cases hx : walk (child L s.mem) (path va) r with
      | none => simp only [Option.elim_none]
      | some x =>
        simp only [Option.elim_some]
        apply entry_setPte_of_ne
        by_contra hne
        simp only [ne_eq, not_or, not_not] at hne
        obtain ⟨rfl, -⟩ := hne
        have := walk_inj ok.nodup his path_lt (by omega) (path_length va ▸ by decide) hw hx
        have := congrArg List.length this
        rw [path_length] at this
        omega
  · rw [through]
    rfl
  · intro js hjs hlen
    by_cases hp : is ++ [i] <+: js
    · obtain ⟨ks, rfl⟩ := hp
      have before : walk (child L s.mem) (is ++ i :: ks) r = none := by
        rw [walk_append, hw, Option.bind_some]
        change (child L s.mem b i).bind _ = none
        rw [old, Option.bind_none]
      rw [List.append_assoc, List.singleton_append, before, through]
      cases ks with
      | nil => exact iff_of_false (Option.some_ne_none _) fun h => h.2 rfl
      | cons k ks =>
        refine iff_of_true ?_ ⟨rfl, fun h => ?_⟩
        · change (child L (s.setPte b i v).mem (PTE2PA v) k).bind _ = none
          rw [childless, Option.bind_none]
        · have := congrArg List.length h
          simp only [List.length_append, List.length_cons, List.length_nil] at this
          omega
    · rw [around js hjs (by omega) hp]
      refine (and_iff_left ?_).symm
      rintro rfl
      exact hp (List.prefix_refl _)

/-- A new value of an entry of the lowest level leaves the tables where they are. -/
theorem TreeOk.walk_setLeaf (ok : TreeOk L s.mem r)
    (hw : walk (child L s.mem) (path va) r = some b) {js : List ℕ} (hjs : ∀ j ∈ js, j < 512)
    (hlen : js.length ≤ 2) :
    walk (child L (s.setPte b (PX va 0) v).mem) js r = walk (child L s.mem) js r := by
  apply walk_set_apart ok.nodup hw path_lt hjs (path_length va ▸ by decide) (by omega)
    fun x j h => child_setPte_of_ne h
  intro hp
  have := hp.length_le
  rw [List.length_append, path_length, List.length_singleton] at this
  omega

/-- A new value of an entry of the lowest level. -/
theorem TreeOk.setLeaf (ok : TreeOk L s.mem r) (hw : walk (child L s.mem) (path va) r = some b)
    (hv : v < 2 ^ 64) (valid : v = 0 ∨ isValid v) :
    TreeOk L (s.setPte b (PX va 0) v).mem r ∧
      tableNodes L (s.setPte b (PX va 0) v).mem r = tableNodes L s.mem r ∧
      tableLeaves L (s.setPte b (PX va 0) v).mem r + leafOf L (pteAt L s.mem r va) =
        tableLeaves L s.mem r + leafOf L v ∧
      ∀ va', pteAt L (s.setPte b (PX va 0) v).mem r va' =
        if SameEntry va va' then v else pteAt L s.mem r va' := by
  have hi := PX_lt va 0
  have hb : b ∈ tableNodes L s.mem r := mem_tableNodes_path hw
  have same : ∀ x j, x ≠ b ∨ j ≠ PX va 0 →
      child L (s.setPte b (PX va 0) v).mem x j = child L s.mem x j :=
    fun x j h => child_setPte_of_ne h
  have now : (child L (s.setPte b (PX va 0) v).mem b (PX va 0)).elim 0 (fun w => {w}) =
      leafOf L v := by
    rw [← leafOf_eq, entry_setPte_self hi hv]
  have here : pteAt L s.mem r va = entry s.mem b (PX va 0) := by
    unfold pteAt
    rw [hw, Option.elim_some]
  have nodup : (nodes 512 (child L s.mem) ((path va).length + 1 + 0) r).Nodup := ok.nodup
  have sum : ∀ node leaf : ℕ → Multiset ℕ,
      gather 512 node leaf (child L (s.setPte b (PX va 0) v).mem) 3 r +
          (child L s.mem b (PX va 0)).elim 0 leaf =
        gather 512 node leaf (child L s.mem) 3 r +
          (child L (s.setPte b (PX va 0) v).mem b (PX va 0)).elim 0 leaf := by
    intro node leaf
    have zero : gather 512 node leaf (child L s.mem) 0 = leaf := funext fun x => gather_zero ..
    have h := gather_set node leaf hw path_lt hi same nodup
      (fun w _ => by rw [nodes, gather_zero]; exact Multiset.notMem_zero b)
    rw [zero] at h
    exact h
  have hnodes : tableNodes L (s.setPte b (PX va 0) v).mem r = tableNodes L s.mem r := by
    have h := sum (fun a => {a}) (fun _ => 0)
    have none : ∀ o : Option ℕ, o.elim (0 : Multiset ℕ) (fun _ => 0) = 0 := by
      intro o
      cases o <;> rfl
    rw [none, none, add_zero, add_zero] at h
    exact h
  have around : ∀ js, (∀ j ∈ js, j < 512) → js.length ≤ 2 →
      walk (child L (s.setPte b (PX va 0) v).mem) js r = walk (child L s.mem) js r :=
    fun js hjs hlen => ok.walk_setLeaf hw hjs hlen
  refine ⟨⟨?_, ?_, ?_⟩, hnodes, ?_, ?_⟩
  · rw [hnodes]
    exact ok.nodup
  · intro x hx j hj
    by_cases hxb : x = b ∧ j = PX va 0
    · obtain ⟨rfl, rfl⟩ := hxb
      rw [entry_setPte_self hi hv]
      exact valid
    rw [hnodes] at hx
    rw [entry_setPte_of_ne (not_and_or.mp hxb)]
    exact ok.valid x hx j hj
  · intro js x hjs hlen hx j hj hne
    rw [around js hjs (by omega)] at hx
    have hxb : x ≠ b := by
      rintro rfl
      have := walk_inj ok.nodup path_lt hjs (path_length va ▸ by decide) (by omega) hw hx
      rw [← this, path_length] at hlen
      omega
    rw [entry_setPte_of_ne (Or.inl hxb)] at hne
    rw [child_setPte_of_ne (Or.inl hxb), entry_setPte_of_ne (Or.inl hxb)]
    exact ok.inner js x hjs hlen hx j hj hne
  · have h := sum (fun _ => 0) (fun a => {a})
    rw [now, ← leafOf_eq, ← here] at h
    exact h
  · intro va'
    by_cases heq : SameEntry va va'
    · rw [if_pos heq]
      unfold pteAt
      rw [around (path va') path_lt (Nat.le_of_eq (path_length va')), ← heq.1, hw, Option.elim_some,
        ← heq.2]
      exact entry_setPte_self hi hv
    · rw [if_neg heq]
      unfold pteAt
      rw [around (path va') path_lt (Nat.le_of_eq (path_length va'))]
      cases hx : walk (child L s.mem) (path va') r with
      | none => simp only [Option.elim_none]
      | some x =>
        simp only [Option.elim_some]
        apply entry_setPte_of_ne
        by_contra hne
        simp only [ne_eq, not_or, not_not] at hne
        obtain ⟨rfl, hx0⟩ := hne
        refine heq ⟨?_, hx0.symm⟩
        exact walk_inj ok.nodup path_lt path_lt (path_length va ▸ by decide)
          (path_length va' ▸ by decide) hw hx

/-- A page of zeros is an empty table. -/
theorem TreeOk.empty (h : m r = Bytes.zero) : TreeOk L m r ∧ tableNodes L m r = {r} ∧
    tableLeaves L m r = 0 ∧ ∀ va, pteAt L m r va = 0 := by
  have zero : ∀ i, entry m r i = 0 := by
    intro i
    unfold entry
    rw [h]
    exact Bytes.num_zero _ _
  have childless : ∀ i, child L m r i = none := fun i => child_of_zero (zero i)
  have hnodes : tableNodes L m r = {r} := gather_of_childless fun i _ => childless i
  refine ⟨⟨?_, ?_, ?_⟩, hnodes, gather_of_childless fun i _ => childless i, ?_⟩
  · rw [hnodes]
    exact Multiset.nodup_singleton r
  · intro b hb i _
    rw [hnodes, Multiset.mem_singleton] at hb
    rw [hb]
    exact Or.inl (zero i)
  · intro is b _ _ hw i _ hne
    rw [walk_of_childless childless hw] at hne
    exact absurd (zero i) hne
  · intro va
    have none : walk (child L m) (path va) r = none := by
      unfold path walk
      rw [childless, Option.bind_none]
    unfold pteAt
    rw [none, Option.elim_none]

end Set

end EasyXv6.Mem
