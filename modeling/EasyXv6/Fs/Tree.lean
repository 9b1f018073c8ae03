import EasyXv6.Fs.Entries
import EasyXv6.Lib.SlotMap

set_option autoImplicit false

/-!
# The directory tree of a file system

The directories that can be reached form a tree. The link count of an inode is the number of
references to it in the tree, and of those that a call is about to make or to drop.
-/
namespace EasyXv6.Fs
open Lib

abbrev DOT : List UInt8 := [46]
abbrev DOTDOT : List UInt8 := [46, 46]

abbrev Dirs := DirTree ℕ (List UInt8)

/-- The numbers of inodes. -/
def inums : Finset ℕ := Finset.Ico 1 NINODES

/-- The slots of a directory, with those for itself and its parent. -/
def entries (d : ℕ) (x : Dir ℕ (List UInt8)) : List DirSlot :=
  some (d, DOT) :: some (x.parent, DOTDOT) :: x.slots

/-- The references to an inode in the tree. -/
abbrev Dirs.links (T : Dirs) (j : ℕ) : ℕ := DirTree.links inums ROOTINO T j

theorem Dirs.links_update (T : Dirs) {d : ℕ} (hd : d ∈ inums) (v : Option (Dir ℕ (List UInt8)))
    (j : ℕ) : Dirs.links (Function.update T d v) j + DirTree.weight (T d) j =
      T.links j + DirTree.weight v j := DirTree.links_update hd v j

/-- `T` is the tree of the files `N`. A call has counted one link more to each inode of `E`. -/
structure Tree (E : List ℕ) (N : ℕ → Node) (T : Dirs) : Prop where
  wf : DirTree.Wf inums ROOTINO T
  dir : ∀ d x, T d = some x → (N d).type = T_DIR ∧ (N d).Lists (entries d x)
  entry : ∀ d x j nm, T d = some x → some (j, nm) ∈ x.slots →
    (N j).type ≠ 0 ∧ ((N j).type = T_DIR → T j ≠ none)
  distinct : ∀ d x, T d = some x → Distinct (entries d x)
  nlink : ∀ j, (N j).type ≠ 0 → (N j).nlink = BitVec.ofNat 16 (T.links j + E.count j)

section Space

variable {V : Image} {D : ℕ → Dinode}

/-- Families of elements of `B` that are all different have no more elements than `B`. -/
theorem sum_le_card {S B : Finset ℕ} {f : ℕ → ℕ} {g : ℕ → ℕ → ℕ}
    (mem : ∀ i ∈ S, ∀ n < f i, g i n ∈ B)
    (inj : ∀ i ∈ S, ∀ m < f i, ∀ j ∈ S, ∀ n < f j, g i m = g j n → i = j ∧ m = n) :
    ∑ i ∈ S, f i ≤ B.card := by
  have card := Finset.card_sigma S fun i => Finset.range (f i)
  simp only [Finset.card_range] at card
  have split : ∀ x ∈ S.sigma fun i => Finset.range (f i), x.1 ∈ S ∧ x.2 < f x.1 := fun x hx =>
    (Finset.mem_sigma.mp hx).imp_right Finset.mem_range.mp
  rw [← card]
  refine Finset.card_le_card_of_injOn (fun x => g x.1 x.2) (fun x hx => ?_) ?_
  · obtain ⟨hi, hn⟩ := split x hx
    exact mem x.1 hi x.2 hn
  · rintro ⟨i, m⟩ hx ⟨j, n⟩ hy he
    obtain ⟨hi, hm⟩ := split _ hx
    obtain ⟨hj, hn⟩ := split _ hy
    obtain ⟨rfl, rfl⟩ := inj i hi m hm j hj n hn he
    rfl

/-- The contents of all files fit into the blocks of the disk. -/
theorem Laid.space (h : Laid V D) :
    ∑ i ∈ inums, ((nodes V D i).size + (BSIZE - 1)) / BSIZE ≤ FSSIZE - BITMAP - 1 := by
  rw [← Nat.card_Ioo]
  have own : ∀ i n, n < ((nodes V D i).size + (BSIZE - 1)) / BSIZE →
      Alloc D i ∧ n * BSIZE < (D i).size.toNat := by
    intro i n hn
    by_cases alloc : Alloc D i
    · refine ⟨alloc, ?_⟩
      rw [nodes_of_alloc alloc] at hn
      change n < ((D i).size.toNat + (BSIZE - 1)) / BSIZE at hn
      simp only [BSIZE] at *
      omega
    · rw [nodes_of_free alloc] at hn
      exact absurd hn (Nat.not_lt_zero n)
  refine sum_le_card (g := fun i n => V.ref (D i) (Image.dataRef n)) ?_ ?_
  · intro i _ n hn
    obtain ⟨alloc, hn⟩ := own i n hn
    have own := h.own i alloc _ (Image.dataRef_lt (h.index_lt alloc hn)) (h.full i alloc n hn)
    exact Finset.mem_Ioo.mpr ⟨own.1, own.2.1⟩
  · intro i _ m hm j _ n hn he
    obtain ⟨hi, hm⟩ := own i m hm
    obtain ⟨hj, hn⟩ := own j n hn
    obtain ⟨rfl, hk⟩ := h.inj i j hi hj _ (Image.dataRef_lt (h.index_lt hi hm)) _
      (Image.dataRef_lt (h.index_lt hj hn)) (h.full i hi m hm) he
    exact ⟨rfl, Image.dataRef_inj hk⟩

end Space

/-- Two nodes that may only differ in their numbers. -/
structure SameContents (x x' : Node) : Prop where
  type : x'.type = x.type
  size : x'.size = x.size
  byte : x'.byte = x.byte

/-- A directory without names of its own. -/
theorem distinct_dots (j d : ℕ) : Distinct (entries j ⟨d, []⟩) := by
  intro m n i i' name hm hn
  match m, n with
  | 0, 0 => rfl
  | 1, 1 => rfl
  | 0, 1 =>
    cases hm
    cases hn
  | 1, 0 =>
    cases hm
    cases hn
  | m + 2, _ => exact absurd hm (by simp [entries])
  | _, n + 2 => exact absurd hn (by simp [entries])

namespace Tree
open Vol (SameMeta)

variable {E E' : List ℕ} {N N' : ℕ → Node} {T : Dirs} {d i j : ℕ} {x : Dir ℕ (List UInt8)} {y : Node}
  {nm : List UInt8} {es : List DirSlot}

theorem perm (h : Tree E N T) (p : E.Perm E') : Tree E' N T :=
  ⟨h.wf, h.dir, h.entry, h.distinct, fun j hj => by rw [← p.count_eq]; exact h.nlink j hj⟩

theorem file (h : Tree E N T) (hj : (N j).type ≠ T_DIR) : T j = none := by
  by_contra hd
  obtain ⟨x, hx⟩ := Option.ne_none_iff_exists'.mp hd
  exact hj (h.dir j x hx).1

theorem links_cases (h : Tree E N T) (hj : 0 < T.links j) :
    (N j).type ≠ 0 ∧ ((N j).type = T_DIR → T j ≠ none) := by
  rcases h.wf.links_cases hj with hd | ⟨d, x, hx, hu⟩
  · obtain ⟨x, hx⟩ := Option.ne_none_iff_exists'.mp hd
    rw [(h.dir j x hx).1]
    exact ⟨by decide, fun _ => hd⟩
  · obtain ⟨nm, mem⟩ := uses_pos.mp hu
    exact h.entry d x j nm hx mem

theorem links_free (h : Tree E N T) (hj : (N j).type = 0) : T.links j = 0 := by
  by_contra hl
  exact (h.links_cases (Nat.pos_of_ne_zero hl)).1 hj

/-- What a directory names has a link. -/
theorem links_pos (h : Tree E N T) (hd : T d = some x) (hj : some (j, nm) ∈ entries d x) :
    0 < T.links j := by
  rcases List.mem_cons.mp hj with he | hj
  · cases he
    exact h.wf.links_pos (by rw [hd]; exact nofun)
  rcases List.mem_cons.mp hj with he | hj
  · cases he
    exact h.wf.links_pos (h.wf.parent_ne hd)
  · exact DirTree.links_pos h.wf hd (uses_pos.mpr ⟨nm, hj⟩)

/-- The link count of an inode changes, and the contents of one that is no directory of the tree
    may. -/
theorem update (h : Tree E N T) (type : y.type = (N i).type ∨ T.links i = 0)
    (contents : T i ≠ none → y.type = (N i).type ∧ y.size = (N i).size ∧ y.byte = (N i).byte)
    (others : ∀ j, j ≠ i → E'.count j = E.count j)
    (nlink : y.type ≠ 0 → y.nlink = BitVec.ofNat 16 (T.links i + E'.count i)) :
    Tree E' (Function.update N i y) T where
  wf := h.wf
  dir := fun d x hd => by
    obtain ⟨hdir, lists⟩ := h.dir d x hd
    by_cases e : d = i
    · subst e
      obtain ⟨type, size, byte⟩ := contents (by rw [hd]; exact nofun)
      rw [Function.update_self]
      exact ⟨type.trans hdir, lists.congr size byte⟩
    · rw [Function.update_of_ne e]
      exact ⟨hdir, lists⟩
  entry := fun d x j nm hd hj => by
    have old := h.entry d x j nm hd hj
    by_cases e : j = i
    · subst e
      rw [Function.update_self]
      rcases type with type | unlinked
      · rwa [type]
      · have := DirTree.links_pos h.wf hd (uses_pos.mpr ⟨nm, hj⟩)
        unfold Dirs.links at unlinked
        omega
    · rwa [Function.update_of_ne e]
  distinct := h.distinct
  nlink := fun j hj => by
    by_cases e : j = i
    · subst e
      rw [Function.update_self] at hj ⊢
      exact nlink hj
    · rw [Function.update_of_ne e] at hj ⊢
      rw [others j e]
      exact h.nlink j hj

/-- `nlink++` of an inode in use. -/
theorem count (h : Tree E N T) (same : SameContents (N i) y) (hi : (N i).type ≠ 0)
    (nlink : y.nlink = (N i).nlink + 1) : Tree (i :: E) (Function.update N i y) T := by
  refine h.update (Or.inl same.type) (fun _ => ⟨same.type, same.size, same.byte⟩) (fun j hj => ?_)
    fun _ => ?_
  · rw [List.count_cons_of_ne (Ne.symm hj)]
  · rw [nlink, h.nlink i hi, List.count_cons_self, ← Nat.add_assoc, BitVec.ofNat_add _ 1]
    rfl

/-- `nlink--` of an inode whose links are one fewer than counted. -/
theorem uncount (h : Tree (i :: E) N T) (same : SameContents (N i) y) (hi : (N i).type ≠ 0)
    (nlink : y.nlink = (N i).nlink - 1) : Tree E (Function.update N i y) T := by
  refine h.update (Or.inl same.type) (fun _ => ⟨same.type, same.size, same.byte⟩) (fun j hj => ?_)
    fun _ => ?_
  · rw [List.count_cons_of_ne (Ne.symm hj)]
  · rw [nlink, h.nlink i hi, List.count_cons_self, ← Nat.add_assoc, BitVec.ofNat_add _ 1]
    exact BitVec.add_sub_cancel ..

/-- An inode that is not in the tree changes. -/
theorem outside (h : Tree E N T) (hi : T.links i = 0)
    (nlink : y.type ≠ 0 → y.nlink = BitVec.ofNat 16 (E'.count i))
    (others : ∀ j, j ≠ i → E'.count j = E.count j) : Tree E' (Function.update N i y) T := by
  refine h.update (Or.inr hi) (fun hd => ?_) others fun hy => ?_
  · have := h.wf.links_pos hd
    unfold Dirs.links at hi
    omega
  · rw [hi, Nat.zero_add, nlink hy]

/-- One directory changes, and keeps its names apart. -/
theorem distinct_update {z : Dir ℕ (List UInt8)} (h : Tree E N T) (hz : Distinct (entries d z)) :
    ∀ k w, Function.update T d (some z) k = some w → Distinct (entries k w) := by
  intro k w hk
  by_cases e : k = d
  · subst e
    rw [Function.update_self] at hk
    cases hk
    exact hz
  · rw [Function.update_of_ne e] at hk
    exact h.distinct k w hk

/-- The slots of a directory change, but not those of directories. -/
theorem slots (h : Tree E N T) (hd : T d = some x) (same : SameMeta (N d) y)
    (lists : y.Lists (entries d ⟨x.parent, es⟩)) (distinct : Distinct (entries d ⟨x.parent, es⟩))
    (dirs : ∀ j, T j ≠ none → uses es j = uses x.slots j)
    (names : ∀ j nm, some (j, nm) ∈ es →
      some (j, nm) ∈ x.slots ∨ (N j).type ≠ 0 ∧ (N j).type ≠ T_DIR)
    (count : ∀ j, uses es j + E'.count j = uses x.slots j + E.count j) :
    Tree E' (Function.update N d y) (Function.update T d (some ⟨x.parent, es⟩)) := by
  have type : ∀ j, (Function.update N d y j).type = (N j).type := by
    intro j
    by_cases e : j = d
    · rw [e, Function.update_self, same.type]
    · rw [Function.update_of_ne e]
  have tree : ∀ j, Function.update T d (some ⟨x.parent, es⟩) j ≠ none ↔ T j ≠ none := by
    intro j
    by_cases e : j = d
    · rw [e, Function.update_self, hd]
      simp
    · rw [Function.update_of_ne e]
  refine ⟨h.wf.slots hd dirs, fun k z hk => ?_, fun k z j nm hk hj => ?_, ?_, fun j hj => ?_⟩
  · by_cases e : k = d
    · subst e
      rw [Function.update_self] at hk ⊢
      cases hk
      exact ⟨same.type.trans (h.dir k x hd).1, lists⟩
    · rw [Function.update_of_ne e] at hk ⊢
      exact h.dir k z hk
  · rw [type, tree]
    by_cases e : k = d
    · subst e
      rw [Function.update_self] at hk
      cases hk
      rcases names j nm hj with old | ⟨inUse, file⟩
      · exact h.entry k x j nm hd old
      · exact ⟨inUse, fun hc => absurd hc file⟩
    · rw [Function.update_of_ne e] at hk
      exact h.entry k z j nm hk hj
  · exact h.distinct_update distinct
  · rw [type] at hj
    have links := T.links_update (h.wf.support d (by rw [hd]; exact nofun)) (some ⟨x.parent, es⟩) j
    rw [hd, DirTree.weight_some, DirTree.weight_some] at links
    have nlink : (Function.update N d y j).nlink = (N j).nlink := by
      by_cases e : j = d
      · rw [e, Function.update_self, same.nlink]
      · rw [Function.update_of_ne e]
    rw [nlink, h.nlink j hj]
    have := count j
    dsimp only at links
    refine congrArg (BitVec.ofNat 16) ?_
    omega

/-- A file gets a name. -/
theorem link (h : Tree (j :: E) N T) (hd : T d = some x) (same : SameMeta (N d) y)
    (lists : y.Lists (addSlot (j, nm) (entries d x))) (new : lookup (entries d x) nm = none)
    (hj : (N j).type ≠ 0) (file : (N j).type ≠ T_DIR) :
    Tree E (Function.update N d y) (Function.update T d (some ⟨x.parent, addSlot (j, nm) x.slots⟩)) := by
  have none := h.file file
  refine h.slots hd same lists ((h.distinct d x hd).add (lookup_eq_none_iff.mp new)) (fun i hi => ?_)
    (fun i nm' hi => ?_) fun i => ?_
  · rw [uses_addSlot, if_neg]
    · rfl
    · rintro rfl
      exact hi none
  · rcases mem_addSlot.mp hi with he | hi
    · cases he
      exact Or.inr ⟨hj, file⟩
    · exact Or.inl hi
  · rw [uses_addSlot, List.count_cons]
    simp only [beq_iff_eq]
    omega

/-- A file loses a name. -/
theorem unlink {m : ℕ} (h : Tree E N T) (hd : T d = some x) (same : SameMeta (N d) y)
    (lists : y.Lists (entries d ⟨x.parent, x.slots.set m none⟩))
    (named : x.slots[m]? = some (some (j, nm))) (file : (N j).type ≠ T_DIR) :
    Tree (j :: E) (Function.update N d y)
      (Function.update T d (some ⟨x.parent, x.slots.set m none⟩)) := by
  have none := h.file file
  refine h.slots hd same lists ((h.distinct d x hd).clear (m + 2)) (fun i hi => ?_)
    (fun i nm' hi => ?_) fun i => ?_
  · rw [← uses_set_none named, if_neg]
    · rfl
    · rintro rfl
      exact hi none
  · rcases List.mem_or_eq_of_mem_set hi with hi | hi
    · exact Or.inl hi
    · cases hi
  · rw [← uses_set_none named, List.count_cons]
    simp only [beq_iff_eq]
    omega

/-- A new directory gets its name. -/
theorem mkdir {z : Dir ℕ (List UInt8)} (h : Tree (j :: d :: E) N T) (hd : T d = some x)
    (same : SameMeta (N d) y) (lists : y.Lists (addSlot (j, nm) (entries d x)))
    (new : lookup (entries d x) nm = none) (hj : T j = none)
    (mem : j ∈ inums) (fresh : T.links j = 0) (type : (N j).type = T_DIR)
    (hz : z = ⟨d, []⟩) (dots : (N j).Lists (entries j z)) :
    Tree E (Function.update N d y)
      (Function.update (Function.update T d (some ⟨x.parent, addSlot (j, nm) x.slots⟩)) j (some z)) := by
  subst hz
  have hjd : j ≠ d := by
    rintro rfl
    rw [hd] at hj
    cases hj
  have types : ∀ i, (Function.update N d y i).type = (N i).type := by
    intro i
    by_cases e : i = d
    · rw [e, Function.update_self, same.type]
    · rw [Function.update_of_ne e]
  have tree : ∀ i, T i ≠ none → Function.update (Function.update T d
      (some ⟨x.parent, addSlot (j, nm) x.slots⟩)) j (some ⟨d, []⟩) i ≠ none := by
    intro i hi
    by_cases e : i = j
    · rw [e, Function.update_self]
      exact nofun
    · rw [Function.update_of_ne e]
      by_cases e' : i = d
      · rw [e', Function.update_self]
        exact nofun
      · rwa [Function.update_of_ne e']
  refine ⟨h.wf.mkdir hd hj mem fresh fun i => uses_addSlot (j, nm) x.slots i, fun k w hk => ?_,
    fun k w i nm' hk hi => ?_, fun k w hk => ?_, fun i hi => ?_⟩
  · by_cases e : k = j
    · subst e
      rw [Function.update_self] at hk
      cases hk
      rw [Function.update_of_ne hjd]
      exact ⟨type, dots⟩
    rw [Function.update_of_ne e] at hk
    by_cases e : k = d
    · subst e
      rw [Function.update_self] at hk ⊢
      cases hk
      exact ⟨same.type.trans (h.dir k x hd).1, lists⟩
    · rw [Function.update_of_ne e] at hk ⊢
      exact h.dir k w hk
  · rw [types]
    by_cases e : k = j
    · subst e
      rw [Function.update_self] at hk
      cases hk
      cases hi
    rw [Function.update_of_ne e] at hk
    have old : ∀ v, T k = some v → some (i, nm') ∈ v.slots → (N i).type ≠ 0 ∧ ((N i).type = T_DIR →
        Function.update (Function.update T d (some ⟨x.parent, addSlot (j, nm) x.slots⟩)) j
          (some ⟨d, []⟩) i ≠ none) := by
      intro v hv mem'
      have := h.entry k v i nm' hv mem'
      exact ⟨this.1, fun ht => tree i (this.2 ht)⟩
    by_cases e : k = d
    · subst e
      rw [Function.update_self] at hk
      cases hk
      rcases mem_addSlot.mp hi with he | hi
      · cases he
        rw [type, Function.update_self]
        exact ⟨by decide, fun _ => nofun⟩
      · exact old x hd hi
    · rw [Function.update_of_ne e] at hk
      exact old w hk hi
  · by_cases e : k = j
    · subst e
      rw [Function.update_self] at hk
      cases hk
      exact distinct_dots k d
    · rw [Function.update_of_ne e] at hk
      exact h.distinct_update (z := ⟨x.parent, addSlot (j, nm) x.slots⟩)
        ((h.distinct d x hd).add (lookup_eq_none_iff.mp new)) k w hk
  · rw [types] at hi
    have first := T.links_update (h.wf.support d (by rw [hd]; exact nofun))
      (some ⟨x.parent, addSlot (j, nm) x.slots⟩) i
    have second := Dirs.links_update (Function.update T d
      (some ⟨x.parent, addSlot (j, nm) x.slots⟩)) mem (some ⟨d, []⟩) i
    rw [hd, DirTree.weight_some, DirTree.weight_some, uses_addSlot] at first
    rw [Function.update_of_ne hjd, hj, DirTree.weight_none, DirTree.weight_some, uses_nil] at second
    have nlink : (Function.update N d y i).nlink = (N i).nlink := by
      by_cases e : i = d
      · rw [e, Function.update_self, same.nlink]
      · rw [Function.update_of_ne e]
    rw [nlink, h.nlink i hi, List.count_cons, List.count_cons]
    dsimp only at first second
    simp only [beq_iff_eq]
    refine congrArg (BitVec.ofNat 16) ?_
    omega

/-- An empty directory loses its name. -/
theorem rmdir {m : ℕ} {z : Dir ℕ (List UInt8)} (h : Tree E N T) (hd : T d = some x)
    (same : SameMeta (N d) y) (lists : y.Lists (entries d ⟨x.parent, x.slots.set m none⟩))
    (named : x.slots[m]? = some (some (j, nm))) (hj : T j = some z)
    (empty : ∀ e ∈ z.slots, e = none) :
    Tree (d :: j :: E) (Function.update N d y) (Function.update (Function.update T d
      (some ⟨x.parent, x.slots.set m none⟩)) j none) := by
  have used : 0 < uses x.slots j := uses_pos.mpr ⟨nm, List.mem_of_getElem? named⟩
  have hroot : j ≠ ROOTINO := by
    rintro rfl
    have := h.wf.unnamed d x hd
    omega
  have none' : ∀ i, uses z.slots i = 0 := by
    intro i
    by_contra hu
    obtain ⟨nm', mem⟩ := uses_pos.mp (Nat.pos_of_ne_zero hu)
    cases empty _ mem
  obtain ⟨wf, parent⟩ := h.wf.rmdir hd hj hroot none' used (uses_set_none named)
  have types : ∀ i, (Function.update N d y i).type = (N i).type := by
    intro i
    by_cases e : i = d
    · rw [e, Function.update_self, same.type]
    · rw [Function.update_of_ne e]
  have hjd : j ≠ d := by
    rintro rfl
    obtain ⟨rank, hrank⟩ := h.wf.rank
    have := hrank j z hj hroot
    rw [parent] at this
    exact absurd this (Nat.lt_irrefl _)
  refine ⟨wf, fun k w hk => ?_, fun k w i nm' hk hi => ?_, fun k w hk => ?_, fun i hi => ?_⟩
  · by_cases e : k = j
    · rw [e, Function.update_self] at hk
      cases hk
    rw [Function.update_of_ne e] at hk
    by_cases e : k = d
    · subst e
      rw [Function.update_self] at hk ⊢
      cases hk
      exact ⟨same.type.trans (h.dir k x hd).1, lists⟩
    · rw [Function.update_of_ne e] at hk ⊢
      exact h.dir k w hk
  · rw [types]
    have notj : i ≠ j := by
      rintro rfl
      have pos := uses_pos.mpr ⟨nm', hi⟩
      by_cases e : k = i
      · rw [e, Function.update_self] at hk
        cases hk
      rw [Function.update_of_ne e] at hk
      by_cases e' : k = d
      · rw [e', Function.update_self] at hk
        cases hk
        have gone := uses_set_none named i
        rw [if_pos rfl] at gone
        obtain ⟨x', hx', one⟩ := h.wf.named i z hj hroot
        rw [parent, hd] at hx'
        cases hx'
        dsimp only at pos
        omega
      · rw [Function.update_of_ne e'] at hk
        exact e' ((h.wf.up k w i z hk pos hj).symm.trans parent)
    by_cases e : k = j
    · rw [e, Function.update_self] at hk
      cases hk
    rw [Function.update_of_ne e] at hk
    rw [Function.update_of_ne notj]
    have tree : T i ≠ none → Function.update T d (some ⟨x.parent, x.slots.set m none⟩) i ≠ none := by
      intro hi
      by_cases e : i = d
      · rw [e, Function.update_self]
        exact nofun
      · rwa [Function.update_of_ne e]
    by_cases e : k = d
    · subst e
      rw [Function.update_self] at hk
      cases hk
      rcases List.mem_or_eq_of_mem_set hi with hi | hi
      · have := h.entry k x i nm' hd hi
        exact ⟨this.1, fun ht => tree (this.2 ht)⟩
      · cases hi
    · rw [Function.update_of_ne e] at hk
      have := h.entry k w i nm' hk hi
      exact ⟨this.1, fun ht => tree (this.2 ht)⟩
  · by_cases e : k = j
    · rw [e, Function.update_self] at hk
      cases hk
    · rw [Function.update_of_ne e] at hk
      exact h.distinct_update (z := ⟨x.parent, x.slots.set m none⟩)
        ((h.distinct d x hd).clear (m + 2)) k w hk
  · rw [types] at hi
    have first := T.links_update (h.wf.support d (by rw [hd]; exact nofun))
      (some ⟨x.parent, x.slots.set m none⟩) i
    have second := Dirs.links_update (Function.update T d (some ⟨x.parent, x.slots.set m none⟩))
      (h.wf.support j (by rw [hj]; exact nofun)) none i
    have gone := uses_set_none named i
    rw [hd, DirTree.weight_some, DirTree.weight_some] at first
    rw [Function.update_of_ne hjd, hj, DirTree.weight_none, DirTree.weight_some, none' i, parent] at second
    have nlink : (Function.update N d y i).nlink = (N i).nlink := by
      by_cases e : i = d
      · rw [e, Function.update_self, same.nlink]
      · rw [Function.update_of_ne e]
    rw [nlink, h.nlink i hi, List.count_cons, List.count_cons]
    dsimp only at first gone
    simp only [beq_iff_eq]
    refine congrArg (BitVec.ofNat 16) ?_
    omega

end Tree

namespace Vol

variable {o : ℤ} {k : ℕ} {N : ℕ → Node} {R : List Ref} {L : List (Fin NINODE)} {s : Vol} {T : Dirs}
  {E : List ℕ} {j : ℕ}

/-- There are fewer links than a link count can hold. -/
theorem Fsys.links_le (h : Fsys o k N R L s) (tree : Tree E N T) (j : ℕ) : T.links j ≤ 40704 := by
  obtain ⟨V, D, l, at', rfl, -⟩ := h.shows
  have space := at'.ok.laid.space
  have slots : ∀ d ∈ inums, (T d).elim 0 (fun x => x.slots.length + 2) * DIRENT_SIZE ≤
      ((nodes V D d).size + (BSIZE - 1)) / BSIZE * BSIZE := by
    intro d _
    cases hd : T d with
    | none =>
      rw [Option.elim_none, Nat.zero_mul]
      exact Nat.zero_le _
    | some x =>
      rw [Option.elim_some, (tree.dir d x hd).2.size]
      change _ ≤ (DIRENT_SIZE * (x.slots.length + 2) + _) / _ * _
      simp only [BSIZE, DIRENT_SIZE]
      omega
  have total := Finset.sum_le_sum slots
  rw [← Finset.sum_mul, ← Finset.sum_mul] at total
  have le := tree.wf.links_le j
  have blocks := Nat.mul_le_mul_right BSIZE space
  unfold DirTree.total at le
  unfold Dirs.links
  simp only [BSIZE, DIRENT_SIZE, FSSIZE, BITMAP] at *
  omega

end Vol

end EasyXv6.Fs
