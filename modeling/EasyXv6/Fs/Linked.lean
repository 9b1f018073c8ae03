import EasyXv6.Fs.Observed

set_option autoImplicit false

/-!
# The tree that the linked directories form

What the entries of the directories say, read from the cache and the disk alone. The linked
directories are those of the tree.
-/
namespace EasyXv6.Fs.Vol
open Lib

/-- Entry `m` of the directory `d` names the inode `j`. -/
def Entry (s : Vol) (d m j : ℕ) (name : List UInt8) : Prop := ∃ de : Bytes DIRENT_SIZE,
  (∀ n < DIRENT_SIZE, (s.file d).byte (DIRENT_SIZE * m + n) = some (de.byte n)) ∧
    slotOf de = some (j, name)

/-- The directory `d` counts a link. -/
structure LinkedDir (s : Vol) (d : ℕ) : Prop where
  used : s.Used d
  dir : (s.file d).type = T_DIR
  linked : (s.file d).nlink ≠ 0

/-- `..` of the directory `d` is `u`. -/
def Up (s : Vol) (d u : ℕ) : Prop := s.Entry d 1 u DOTDOT

/-- The linked directory `u` names `j` in entry `m`, which is not one for `u` itself or its parent. -/
structure NamedIn (s : Vol) (u m j : ℕ) : Prop where
  linked : s.LinkedDir u
  entry : ∃ name, s.Entry u m j name ∧ name ≠ DOT ∧ name ≠ DOTDOT

/-- The linked directories form a tree, and name inodes in use only. -/
structure TreeIntegrity (s : Vol) : Prop where
  used : ∀ d m j name, s.LinkedDir d → s.Entry d m j name → s.Used j
  named : ∀ d, s.LinkedDir d → d ≠ ROOTINO → ∃ u m, s.NamedIn u m d ∧ s.Up d u ∧
    ∀ u' m', s.NamedIn u' m' d → u' = u ∧ m' = m
  self : ∀ d, s.LinkedDir d → s.Entry d 0 d DOT
  dots : ∀ d m j name, s.LinkedDir d → s.Entry d m j name → (m < 2 ↔ name = DOT ∨ name = DOTDOT)
  up : ∀ d, s.LinkedDir d → Relation.ReflTransGen s.Up d ROOTINO

section Entry

variable {N : ℕ → Node} {R : List Ref} {L : List (Fin NINODE)} {s : Vol} {T : Dirs} {d m j : ℕ}
  {x : Dir ℕ (List UInt8)} {name : List UInt8}

/-- A file has no bytes past its end. -/
theorem byte_lt {q : ℕ} {b : UInt8} (h : (s.file d).byte q = some b) : q < (s.file d).size := by
  change s.contents.byteAt (s.current d) q = some b at h
  unfold Image.byteAt at h
  split at h
  next hq => exact hq
  next => cases h

theorem Between.dir_used (h : Between N R L s) (tree : Tree [] N T) (hd : T d = some x) : s.Used d := by
  rw [h.used_iff, (tree.dir d x hd).1]
  decide

/-- The entries of a directory of the tree are those that the tree has. -/
theorem Between.entry_iff (h : Between N R L s) (tree : Tree [] N T) (hd : T d = some x) :
    s.Entry d m j name ↔ (entries d x)[m]? = some (some (j, name)) := by
  obtain ⟨-, -, size, bytes⟩ := h.file (h.dir_used tree hd)
  have lists := (tree.dir d x hd).2
  constructor
  · rintro ⟨de, hde, slot⟩
    have hm : m < (entries d x).length := by
      have := byte_lt (hde 0 (by decide))
      rw [size, lists.size] at this
      exact Nat.lt_of_mul_lt_mul_left this
    rw [List.getElem?_eq_getElem hm, ← slot]
    refine congrArg some (lists.slotOf_eq hm fun n hn a ha => ?_).symm
    exact Option.some.inj ((hde n hn).symm.trans (bytes _ _ ha))
  · intro entry
    obtain ⟨hm, slot⟩ := List.getElem?_eq_some_iff.mp entry
    obtain ⟨de, hde, same⟩ := lists.slot m hm
    exact ⟨de, fun n hn => bytes _ _ (hde n hn), same.trans slot⟩

/-- The linked directories are those of the tree. -/
theorem Between.linkedDir_iff (h : Between N R L s) (tree : Tree [] N T) :
    s.LinkedDir d ↔ T d ≠ none := by
  constructor
  · rintro ⟨used, dir, linked⟩
    obtain ⟨type, nlink, -⟩ := h.file used
    have inUse : (N d).type ≠ 0 := h.used_iff.mp used
    rw [nlink, Ne, h.fsys.nlink_zero tree (Nat.zero_le 3) inUse, List.count_nil, Nat.add_zero] at linked
    rw [type] at dir
    exact (tree.links_cases (Nat.pos_of_ne_zero linked)).2 dir
  · intro hd
    obtain ⟨x, hx⟩ := Option.ne_none_iff_exists'.mp hd
    have used := h.dir_used tree hx
    obtain ⟨type, nlink, -⟩ := h.file used
    refine ⟨used, type.trans (tree.dir d x hx).1, ?_⟩
    have pos := tree.wf.links_pos hd
    rw [nlink, Ne, h.fsys.nlink_zero tree (Nat.zero_le 3) (h.used_iff.mp used)]
    unfold Dirs.links
    omega

theorem Between.linkedDir (h : Between N R L s) (tree : Tree [] N T) (hd : s.LinkedDir d) :
    ∃ x, T d = some x := Option.ne_none_iff_exists'.mp ((h.linkedDir_iff tree).mp hd)

/-- Only the first two entries of a directory are named `.` and `..`. -/
theorem Tree.dots (tree : Tree [] N T) (hd : T d = some x)
    (entry : (entries d x)[m]? = some (some (j, name))) : m < 2 ↔ name = DOT ∨ name = DOTDOT := by
  have apart := tree.distinct d x hd
  constructor
  · intro hm
    have two : m = 0 ∨ m = 1 := by omega
    rcases two with rfl | rfl
    · cases entry
      exact Or.inl rfl
    · cases entry
      exact Or.inr rfl
  · rintro (rfl | rfl)
    · have first : m = 0 := apart m 0 j d DOT entry rfl
      omega
    · have second : m = 1 := apart m 1 j x.parent DOTDOT entry rfl
      omega

/-- A directory names a node once if it has one slot for it. -/
theorem slot_unique {es : List DirSlot} {n : ℕ} {name' : List UInt8} (one : uses es j = 1)
    (hm : es[m]? = some (some (j, name))) (hn : es[n]? = some (some (j, name'))) : m = n := by
  by_contra hne
  have rest := uses_set_none hm j
  rw [if_pos rfl, one] at rest
  have other : (es.set m none)[n]? = some (some (j, name')) := by
    rwa [List.getElem?_set_ne hne]
  have := uses_pos.mpr ⟨name', List.mem_of_getElem? other⟩
  omega

/-- A name is one in the slots of a directory. -/
theorem Between.namedIn_iff (h : Between N R L s) (tree : Tree [] N T) :
    s.NamedIn d m j ↔ ∃ x k name, T d = some x ∧ m = k + 2 ∧ x.slots[k]? = some (some (j, name)) := by
  constructor
  · rintro ⟨linked, name, entry, notDot, notDotdot⟩
    obtain ⟨x, hx⟩ := h.linkedDir tree linked
    rw [h.entry_iff tree hx] at entry
    have high : ¬ m < 2 := fun low =>
      ((Tree.dots tree hx entry).mp low).elim notDot notDotdot
    obtain ⟨k, rfl⟩ := Nat.exists_eq_add_of_le' (Nat.le_of_not_lt high)
    exact ⟨x, k, name, hx, rfl, entry⟩
  · rintro ⟨x, k, name, hx, rfl, slot⟩
    have entry : (entries d x)[k + 2]? = some (some (j, name)) := slot
    have high : ¬ (name = DOT ∨ name = DOTDOT) := fun dots => by
      have := (Tree.dots tree hx entry).mpr dots
      omega
    rw [not_or] at high
    refine ⟨(h.linkedDir_iff tree).mpr (by rw [hx]; exact nofun), name, ?_, high⟩
    exact (h.entry_iff tree hx).mpr entry

theorem Between.up (h : Between N R L s) (tree : Tree [] N T) (hd : T d = some x) :
    s.Up d x.parent := (h.entry_iff tree hd).mpr rfl

/-- The way up leads to the root. -/
theorem Between.reaches_root (h : Between N R L s) (tree : Tree [] N T) (hd : T d ≠ none) :
    Relation.ReflTransGen s.Up d ROOTINO := by
  obtain ⟨n, hn⟩ := tree.wf.reaches_root hd
  induction n generalizing d with
  | zero => exact hn ▸ .refl
  | succ n ih =>
    obtain ⟨x, hx⟩ := Option.ne_none_iff_exists'.mp hd
    have above : DirTree.above T d = x.parent := by
      unfold DirTree.above
      rw [hx]
      rfl
    rw [Function.iterate_succ_apply, above] at hn
    exact .head (h.up tree hx) (ih (tree.wf.parent_ne hx) hn)

/-- Between two calls the linked directories form a tree. -/
theorem Between.treeIntegrity (h : Between N R L s) (tree : Tree [] N T) : TreeIntegrity s where
  used d m j name linked entry := by
    obtain ⟨x, hx⟩ := h.linkedDir tree linked
    rw [h.entry_iff tree hx] at entry
    have pos := tree.links_pos hx (List.mem_of_getElem? entry)
    exact h.used_iff.mpr (tree.links_cases pos).1
  named d linked other := by
    obtain ⟨x, hx⟩ := h.linkedDir tree linked
    obtain ⟨z, hz, one⟩ := tree.wf.named d x hx other
    obtain ⟨name, mem⟩ := uses_pos.mp (by rw [one]; exact Nat.one_pos : 0 < uses z.slots d)
    obtain ⟨k, slot⟩ := List.mem_iff_getElem?.mp mem
    refine ⟨x.parent, k + 2, (h.namedIn_iff tree).mpr ⟨z, k, name, hz, rfl, slot⟩, h.up tree hx, ?_⟩
    intro u m names
    obtain ⟨w, n, name', hw, rfl, slot'⟩ := (h.namedIn_iff tree).mp names
    have same : x.parent = u :=
      tree.wf.up u w d x hw (uses_pos.mpr ⟨name', List.mem_of_getElem? slot'⟩) hx
    subst same
    rw [hz, Option.some.injEq] at hw
    subst hw
    rw [slot_unique one slot' slot]
    exact ⟨rfl, rfl⟩
  self d linked := by
    obtain ⟨x, hx⟩ := h.linkedDir tree linked
    exact (h.entry_iff tree hx).mpr rfl
  dots d m j name linked entry := by
    obtain ⟨x, hx⟩ := h.linkedDir tree linked
    exact Tree.dots tree hx ((h.entry_iff tree hx).mp entry)
  up d linked := h.reaches_root tree ((h.linkedDir_iff tree).mp linked)

end Entry

end EasyXv6.Fs.Vol
