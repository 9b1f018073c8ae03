import EasyXv6.Fs.Tree

set_option autoImplicit false

/-!
# Path walks

A walk follows the names of a path from directory to directory, and holds one reference at a time.
-/
namespace EasyXv6.Fs
open Lib

/-- The elements of a path. -/
def elements (path : List UInt8) : List (List UInt8) :=
  match _h : skipelem path with
  | none => []
  | some (rest, name) => name :: elements rest
termination_by path.length
decreasing_by exact skipelem_lt ‹_›

/-- The characters of a name that a directory entry has room for. -/
def key (name : List UInt8) : List UInt8 := cstr (nameOf name) DIRSIZ

/-- Where the names lead to from the inode `i`. With `parent` the last one is not looked up. -/
def walk (T : Dirs) (parent : Bool) : (i : ℕ) → List (List UInt8) → Option (ℕ × List UInt8)
  | i, [] => if parent then none else some (i, [])
  | i, name :: rest =>
    match T i with
    | none => none
    | some x =>
      if parent ∧ rest = [] then some (i, name)
      else match lookup (entries i x) (key name) with
        | none => none
        | some (j, _) => walk T parent j rest

/-- A walk to the parent ends at a directory. -/
theorem walk_parent {T : Dirs} {i j : ℕ} {names : List (List UInt8)} {name : List UInt8}
    (h : walk T true i names = some (j, name)) : ∃ x, T j = some x := by
  induction names generalizing i with
  | nil => cases h
  | cons nm rest ih =>
    rw [walk] at h
    split at h
    · cases h
    next x hx =>
    split at h
    · cases h
      exact ⟨x, hx⟩
    split at h
    · cases h
    · exact ih h

theorem elements_none {path : List UInt8} (h : skipelem path = none) : elements path = [] := by
  rw [elements]
  split
  next => rfl
  next he =>
    rw [h] at he
    cases he

theorem elements_some {path rest name : List UInt8} (h : skipelem path = some (rest, name)) :
    elements path = name :: elements rest := by
  rw [elements]
  split
  next he =>
    rw [h] at he
    cases he
  next he =>
    rw [h] at he
    cases he
    rfl

/-- What is left of a path is empty or has an element. -/
theorem elements_rest {path rest name : List UInt8} (h : skipelem path = some (rest, name)) :
    elements rest = [] ↔ rest = [] := by
  constructor
  · intro he
    by_contra hne
    have head : rest.head hne ≠ SLASH := by
      unfold skipelem at h
      dsimp only at h
      split at h
      · cases h
      · cases h
        have := List.head_dropWhile_not (p := (· = SLASH)) hne
        simpa using this
    have drop : rest.dropWhile (· = SLASH) = rest := by
      obtain ⟨c, cs, rfl⟩ := List.exists_cons_of_ne_nil hne
      exact List.dropWhile_cons_of_neg (by simpa using head)
    have some' : skipelem rest = some ((rest.dropWhile (· ≠ SLASH)).dropWhile (· = SLASH),
        (rest.takeWhile (· ≠ SLASH)).take (DIRSIZ - 1)) := by
      unfold skipelem
      dsimp only
      rw [drop, if_neg hne]
    rw [elements_some some'] at he
    cases he
  · rintro rfl
    exact elements_none rfl

theorem Tree.named {T : Dirs} {E : List ℕ} {N : ℕ → Node} (tree : Tree E N T) {d : ℕ} {x : Dir ℕ (List UInt8)}
    (hd : T d = some x) : ∀ j nm, some (j, nm) ∈ entries d x → (N j).type ≠ 0 :=
  fun _ _ hj => (tree.links_cases (tree.links_pos hd hj)).1

/-- The root is in use. -/
theorem Tree.root_type {T : Dirs} {E : List ℕ} {N : ℕ → Node} (tree : Tree E N T) :
    (N ROOTINO).type ≠ 0 :=
  (tree.links_cases (DirTree.links_root_pos inums T)).1

namespace Vol

variable {o : ℤ} {k cap : ℕ} {full : Prop} {N : ℕ → Node} {R : List Ref} {L M : List (Fin NINODE)}
  {s : Vol} {T : Dirs} {E : List ℕ} {ip : Fin NINODE} {i j : ℕ} {parent : Bool} {path : List UInt8}

/-- The link count of an inode is zero only if it has no links. -/
theorem Fsys.nlink_zero (h : Fsys o k N R L s) (tree : Tree E N T) (hE : E.length ≤ 3)
    (hj : (N j).type ≠ 0) : (N j).nlink = 0 ↔ T.links j + E.count j = 0 := by
  have le := h.links_le tree j
  have count : E.count j ≤ E.length := List.count_le_length
  rw [tree.nlink j hj, ← BitVec.toNat_inj, BitVec.toNat_ofNat, Nat.mod_eq_of_lt (by omega)]
  rfl

/-- A reference to an inode that has links is dropped. -/
theorem iput_linked_sat (h : Fsys o k N ((ip, i) :: R) L s) (tree : Tree E N T) (hE : E.length ≤ 3)
    (linked : 0 < T.links i + E.count i) (hL : ∀ jp ∈ M, jp ∈ L ∧ jp ∈ R.map Prod.fst) :
    Comp.Sat (iput ip) s (Limit cap full) fun _ s' => Fsys o k N R M s' ∧ Looked M s s' := by
  have alloc := h.alloc List.mem_cons_self
  refine (iput_keep_sat h hL (Or.inr (Or.inl fun h0 => ?_))).post fun _ _ hs => ⟨hs.1, hs.2.2⟩
  have := (h.nlink_zero tree hE alloc.2.2).mp h0
  omega

theorem iunlockput_linked_sat (h : Fsys o k N ((ip, i) :: R) L s) (tree : Tree E N T)
    (hE : E.length ≤ 3) (linked : 0 < T.links i + E.count i)
    (hL : ∀ jp ∈ M, jp ∈ L ∧ jp ∈ R.map Prod.fst) :
    Comp.Sat (iunlockput ip) s (Limit cap full) fun _ s' => Fsys o k N R M s' ∧
      Looked M s s' := by
  unfold iunlockput
  refine .call (iunlock_sat h List.mem_cons_self) ?_
  rintro _ _ rfl
  exact iput_linked_sat h tree hE linked hL

theorem namexLoop_sat (tree : Tree E N T) (hE : E.length ≤ 3) (sub : ∀ jp ∈ L, jp ∈ R.map Prod.fst)
    (hcap : used R + 1 ≤ cap) (h : Fsys o k N ((ip, i) :: R) L s) (linked : 0 < T.links i) :
    Comp.Sat (namexLoop parent ip path) s (Limit cap full) fun r s' => Looked L s s' ∧ match r with
      | none => walk T parent i (elements path) = none ∧ Fsys o k N R L s'
      | some (jp, name) => ∃ j, walk T parent i (elements path) = some (j, name) ∧
          0 < T.links j ∧ Fsys o k N ((jp, j) :: R) L s' := by
  induction hn : path.length using Nat.strong_induction_on generalizing path ip i s with
  | _ n ih =>
    have hL : ∀ jp ∈ L, jp ∈ ip :: L ∧ jp ∈ R.map Prod.fst :=
      fun jp hj => ⟨List.mem_cons_of_mem _ hj, sub jp hj⟩
    have linked' : 0 < T.links i + E.count i := by omega
    rw [namexLoop]
    split
    next he =>
      rw [elements_none he, walk]
      refine .ite (fun hp => ?_) fun hp => .pure ⟨.refl L s, i, if_neg hp, linked, h⟩
      refine .call (iput_linked_sat h tree hE linked' fun jp hj => ⟨hj, sub jp hj⟩) ?_
      rintro _ t ⟨ht, look⟩
      exact .pure ⟨look, if_pos hp, ht⟩
    next rest name he =>
      rw [elements_some he, walk]
      refine .call (ilock_sat h List.mem_cons_self) ?_
      rintro _ t ⟨ht, -, look₁⟩
      refine .gets (.ite (fun file => ?_) fun dir => ?_)
      · rw [ht.type List.mem_cons_self List.mem_cons_self] at file
        rw [tree.file file]
        refine .call (iunlockput_linked_sat ht tree hE linked' hL) ?_
        rintro _ u ⟨hu, look₂⟩
        exact .pure ⟨look₁.trans look₂, rfl, hu⟩
      rw [ht.type List.mem_cons_self List.mem_cons_self, not_not] at dir
      obtain ⟨x, hx⟩ := Option.ne_none_iff_exists'.mp ((tree.links_cases linked).2 dir)
      rw [hx]
      simp only [elements_rest he]
      refine .ite (fun last => ?_) fun more => ?_
      · refine .call (iunlock_sat ht List.mem_cons_self) ?_
        rintro _ _ rfl
        exact .pure ⟨look₁, i, if_pos last, linked,
          ht.weaken fun jp hj => List.mem_cons_of_mem _ hj⟩
      rw [if_neg more]
      refine .call (dirlookup_sat ht List.mem_cons_self List.mem_cons_self dir (tree.dir i x hx).2
        (tree.named hx) (Nat.le_trans (used_cons_le _ _) hcap)) ?_
      rintro (_ | ⟨next, off⟩) u hu
      · obtain ⟨none, hu, look₂⟩ := hu
        refine .call (iunlockput_linked_sat hu tree hE linked' hL) ?_
        rintro _ v ⟨hv, look₃⟩
        refine .pure ⟨look₁.trans ((look₂.mono fun jp hj => (hL jp hj).1).trans look₃), ?_, hv⟩
        unfold key
        rw [none]
      · obtain ⟨j, m, found, -, hu, look₂⟩ := hu
        have hu' := hu.perm (List.Perm.swap (ip, i) (next, j) R)
        have hL' : ∀ jp ∈ L, jp ∈ ip :: L ∧ jp ∈ ((next, j) :: R).map Prod.fst :=
          fun jp hj => ⟨List.mem_cons_of_mem _ hj, List.mem_cons_of_mem _ (sub jp hj)⟩
        refine .call (iunlockput_linked_sat hu' tree hE linked' hL') ?_
        rintro _ v ⟨hv, look₃⟩
        have pos : 0 < T.links j := tree.links_pos hx (List.mem_of_getElem? (lookup_some found))
        have look := look₁.trans ((look₂.mono fun jp hj => (hL jp hj).1).trans look₃)
        unfold key
        rw [found]
        refine (ih rest.length (hn ▸ skipelem_lt he) hv pos rfl).post fun r w hw => ?_
        exact ⟨look.trans hw.1, hw.2⟩

/-- The references that the walk of a path leaves behind: one to the root, unless the path starts
    there. -/
def leak (rp : Fin NINODE) (path : List UInt8) : List Ref :=
  if path.head? = some SLASH then [] else [(rp, ROOTINO)]

theorem leak_length_le (rp : Fin NINODE) (path : List UInt8) : (leak rp path).length ≤ 1 := by
  unfold leak
  split
  · exact Nat.zero_le 1
  · exact Nat.le_refl 1

theorem used_append_le (Q R : List Ref) : used (Q ++ R) ≤ Q.length + used R := by
  induction Q with
  | nil => exact (Nat.zero_add _).symm.le
  | cons x Q ih =>
    rw [List.cons_append, List.length_cons]
    have := used_cons_le x (Q ++ R)
    omega

/-- What a walk finds, and the references that it leaves. -/
def Walked (o : ℤ) (k : ℕ) (N : ℕ → Node) (T : Dirs) (parent : Bool) (path : List UInt8)
    (R : List Ref) (L : List (Fin NINODE)) (r : Option (Fin NINODE × List UInt8)) (s : Vol) : Prop :=
  match r with
  | none => walk T parent ROOTINO (elements path) = none ∧ Fsys o k N R L s
  | some (jp, name) => ∃ j, walk T parent ROOTINO (elements path) = some (j, name) ∧
      0 < T.links j ∧ Fsys o k N ((jp, j) :: R) L s

theorem namex_sat (tree : Tree E N T) (hE : E.length ≤ 3) (sub : ∀ jp ∈ L, jp ∈ R.map Prod.fst)
    (hcap : used R + 2 ≤ cap) (h : Fsys o k N R L s) :
    Comp.Sat (namex parent path) s (Limit cap full) fun r s' => Looked L s s' ∧
      ∃ rp, Walked o k N T parent path (leak rp path ++ R) L r s' := by
  have linked : 0 < T.links ROOTINO := DirTree.links_root_pos inums T
  unfold namex
  refine .call (iget_sat h tree.root_type (by omega)) ?_
  rintro rp t ⟨ht, -, look₁⟩
  refine .call (P := fun ip u => ip = rp ∧ Fsys o k N ((rp, ROOTINO) :: (leak rp path ++ R)) L u ∧
    Looked L s u) ?_ ?_
  · unfold leak
    refine .ite (fun abs => ?_) fun rel => ?_
    · rw [if_pos abs]
      exact .pure ⟨rfl, ht, look₁⟩
    · rw [if_neg rel]
      refine (idup_sat ht List.mem_cons_self).post ?_
      rintro ip u ⟨rfl, hu, -, look₂⟩
      exact ⟨rfl, hu, look₁.trans look₂⟩
  · rintro ip u ⟨he, hu, look⟩
    rw [← he] at hu
    have room := used_append_le (leak ip path) R
    have short := leak_length_le ip path
    refine (namexLoop_sat tree hE (fun jp hj => ?_) (by omega) hu linked).post fun r v hv =>
      ⟨look.trans hv.1, ip, ?_⟩
    · rw [List.map_append]
      exact List.mem_append_right _ (sub jp hj)
    · exact hv.2

theorem namei_sat (tree : Tree E N T) (hE : E.length ≤ 3) (sub : ∀ jp ∈ L, jp ∈ R.map Prod.fst)
    (hcap : used R + 2 ≤ cap) (h : Fsys o k N R L s) :
    Comp.Sat (namei path) s (Limit cap full) fun r s' => Looked L s s' ∧ ∃ rp, match r with
      | none => walk T false ROOTINO (elements path) = none ∧ Fsys o k N (leak rp path ++ R) L s'
      | some jp => ∃ j name, walk T false ROOTINO (elements path) = some (j, name) ∧
          0 < T.links j ∧ Fsys o k N ((jp, j) :: (leak rp path ++ R)) L s' := by
  unfold namei
  refine .call (namex_sat tree hE sub hcap h) ?_
  rintro (_ | ⟨jp, name⟩) t ⟨look, rp, ht⟩
  · exact .pure ⟨look, rp, ht⟩
  · obtain ⟨j, found, linked, ht⟩ := ht
    exact .pure ⟨look, rp, j, name, found, linked, ht⟩

end Vol

end EasyXv6.Fs
