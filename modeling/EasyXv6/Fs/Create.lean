import EasyXv6.Fs.Names
import EasyXv6.Fs.Walk

set_option autoImplicit false

/-!
# Making files and directories

What the parts of `create` do to the tree. A call keeps at most 11 blocks besides the bitmap and the
inodes in its transaction.
-/
namespace EasyXv6.Fs.Vol
open Lib

variable {k cap : ℕ} {full : Prop} {N : ℕ → Node} {R : List Ref} {L : List (Fin NINODE)} {s : Vol}
  {T : Dirs} {E : List ℕ} {ip dp : Fin NINODE} {i j d : ℕ} {es : List DirSlot} {name : List UInt8}
  {type : BitVec 16} {path : List UInt8}

theorem sameContents_of_fields {V : Image} {e : Dinode} {f : Dinode → Dinode}
    (type : (f e).type = e.type) (size : (f e).size = e.size) (addrs : (f e).addrs = e.addrs) :
    SameContents (V.node e) (V.node (f e)) := by
  refine ⟨type, congrArg BitVec.toNat size, byteAt_congr size (fun n _ => ?_) fun _ _ => rfl⟩
  refine Image.ref_congr (fun k _ => ?_) _
  unfold Dinode.addr
  rw [addrs]

/-- `nlink += by; iupdate` -/
theorem addLink_sat {by' : BitVec 16} (h : Fsys 1 k N R L s) (hk : k ≤ 14) (hi : (ip, i) ∈ R)
    (hL : ip ∈ L) : Comp.Sat (addLink ip by') s (Limit cap full) fun _ s' => (∃ y,
      SameContents (N i) y ∧ y.nlink = (N i).nlink + by' ∧
        Fsys 1 k (Function.update N i y) R L s') ∧
          Saved ip i { (s.inode ip).d with nlink := (s.inode ip).d.nlink + by' } s s' ∧
            ∀ jp ∈ L, ∀ b, Owns s' jp b ↔ Owns s jp b := by
  unfold addLink modInode
  refine .modify ((setFields_sat (f := fun d => { d with nlink := d.nlink + by' }) h hk hi hL
    (fun _ => rfl) (fun _ => rfl) fun _ => rfl).post ?_)
  rintro _ t ⟨V, node, ht, saved⟩
  refine ⟨⟨_, ?_, ?_, ht⟩, saved⟩
  · rw [node]
    exact sameContents_of_fields (f := fun d => { d with nlink := d.nlink + by' }) rfl rfl rfl
  · rw [node]
    rfl

/-- The link counts of the inodes that a directory names. -/
theorem Fsys.nlink_entries {o : ℤ} {x : Dir ℕ (List UInt8)} (h : Fsys o k N R L s)
    (tree : Tree E N T) (hE : E.length ≤ 3) (hd : T d = some x) :
    ∀ j nm, some (j, nm) ∈ entries d x → (N j).nlink ≠ 0 ∨ j = ROOTINO := by
  intro j nm hj
  have pos := tree.links_pos hd hj
  have type := (tree.links_cases pos).1
  refine Or.inl fun h0 => ?_
  have := (h.nlink_zero tree hE type).mp h0
  omega

variable (es) in
/-- `dirlink` of a name that the directory does not have. -/
theorem mustLink_sat (h : Fsys 1 k N R L s) (hk : k ≤ 11) (hi : (ip, i) ∈ R) (hL : ip ∈ L)
    (type : (N i).type = T_DIR) (lists : (N i).Lists es)
    (named : ∀ j nm, some (j, nm) ∈ es → (N j).type ≠ 0)
    (linked : ∀ j nm, some (j, nm) ∈ es → (N j).nlink ≠ 0 ∨ j = ROOTINO)
    (new : lookup es (key name) = none) (h0 : j ≠ 0) (hj : j < NINODES) (hcap : used R ≤ cap)
    (hfull : full) (why : String) :
    Comp.Sat (mustLink ip name j why) s (Limit cap full) fun _ s' => ∃ x, SameMeta (N i) x ∧
      x.Lists (addSlot (j, key name) es) ∧ Fsys 1 (k + 3) (Function.update N i x) R L s' := by
  unfold mustLink
  refine .call (dirlink_sat h hk hi hL type lists named linked h0 hj hcap hfull) ?_
  rintro r t (⟨-, there, -, -⟩ | ⟨rfl, -, x, same, lists', ht⟩)
  · exact absurd new there
  · refine .ite (fun neg => absurd neg (by decide)) fun _ => .pure ⟨x, same, lists', ht⟩

theorem lookup_dot : lookup [some (j, DOT)] DOTDOT = none := by
  rw [lookup]
  rfl

/-- A write to an inode that is not in the tree, and that keeps its link count. -/
theorem Tree.rewrite (tree : Tree E N T) (fresh : T.links j = 0) {y : Node} (same : SameMeta (N j) y) :
    Tree E (Function.update N j y) T := by
  refine tree.outside fresh (fun used => ?_) fun _ _ => rfl
  rw [same.nlink, tree.nlink j (by rwa [← same.type]), fresh, Nat.zero_add]

/-- The entries `.` and `..` of the new directory `j` in `d`. -/
theorem makeDots_sat (h : Fsys 1 0 N R L s) (tree : Tree [j] N T) (hd : (dp, d) ∈ R) (hdL : dp ∈ L)
    (hi : (ip, j) ∈ R) (hL : ip ∈ L) (linked : 0 < T.links d) (type : (N j).type = T_DIR)
    (empty : (N j).Lists []) (fresh : T.links j = 0) (hcap : used R ≤ cap) (hfull : full) :
    Comp.Sat (makeDots dp ip) s (Limit cap full) fun _ s' => ∃ y z, SameContents (N d) y ∧
      SameMeta (N j) z ∧ z.Lists (entries j ⟨d, []⟩) ∧
        Tree [j, d] (Function.update (Function.update N d y) j z) T ∧
          Fsys 1 6 (Function.update (Function.update N d y) j z) R L s' := by
  have hjd : d ≠ j := by
    rintro rfl
    omega
  have hj := h.alloc hi
  have hd' := h.alloc hd
  unfold makeDots
  refine .call (addLink_sat h (by omega) hd hdL) ?_
  rintro _ t ⟨⟨y, same, nlink, ht⟩, -⟩
  have tree₁ := tree.count same hd'.2.2 nlink
  have node₁ : Function.update N d y j = N j := Function.update_of_ne (Ne.symm hjd) ..
  refine .get ?_
  rw [ht.inum hi]
  refine .call (mustLink_sat [] ht (by omega) hi hL (by rwa [node₁]) (by rwa [node₁]) nofun
    nofun rfl (by omega) hj.2.1 hcap hfull _) ?_
  rintro _ u ⟨z, same₂, lists₂, hu⟩
  have tree₂ := Tree.rewrite tree₁ fresh same₂
  rw [ht.inum hd]
  have named : ∀ i nm, some (i, nm) ∈ addSlot (j, key [46]) [] →
      (Function.update (Function.update N d y) j z i).type ≠ 0 ∧
        (Function.update (Function.update N d y) j z i).nlink ≠ 0 := by
    intro i nm hm
    obtain ⟨rfl, -⟩ : i = j ∧ nm = key [46] := by simpa [addSlot] using hm
    have used : (Function.update (Function.update N d y) i z i).type ≠ 0 := by
      rw [Function.update_self, same₂.type, node₁, type]
      decide
    refine ⟨used, ?_⟩
    rw [tree₂.nlink i used, fresh, List.count_cons_of_ne hjd, List.count_cons_self]
    exact (by decide : BitVec.ofNat 16 1 ≠ 0)
  refine (mustLink_sat (addSlot (j, key [46]) []) hu (by omega) hi hL ?_ ?_
    (fun i nm hm => (named i nm hm).1) (fun i nm hm => Or.inl (named i nm hm).2) ?_ (by omega) hd'.2.1
    hcap hfull _).post ?_
  · rw [Function.update_self, same₂.type, node₁, type]
  · rwa [Function.update_self]
  · refine lookup_none fun i hm => ?_
    obtain ⟨-, same⟩ : i = j ∧ key [46, 46] = key [46] := by simpa [addSlot] using hm
    exact absurd same (by decide)
  · rintro _ v ⟨w, same₃, lists₃, hv⟩
    rw [Function.update_idem] at hv
    have tree₃ := Tree.rewrite tree₂ fresh same₃
    rw [Function.update_idem] at tree₃
    rw [Function.update_self] at same₃
    refine ⟨y, w, same, ?_, lists₃, tree₃.perm (List.Perm.swap j d []), hv⟩
    rw [node₁] at same₂
    exact ⟨same₃.type.trans same₂.type, same₃.major.trans same₂.major, same₃.minor.trans same₂.minor,
      same₃.nlink.trans same₂.nlink⟩

/-- The tree in which the directory `d` has got the name of `j`. -/
def linkIn (T : Dirs) (d j : ℕ) (x : Dir ℕ (List UInt8)) (nm : List UInt8) : Dirs :=
  Function.update T d (some ⟨x.parent, addSlot (j, nm) x.slots⟩)

theorem links_linkIn {x : Dir ℕ (List UInt8)} (nm : List UInt8) (tree : Tree E N T) (hd : T d = some x)
    (i : ℕ) : (linkIn T d j x nm).links i = T.links i + if j = i then 1 else 0 := by
  have links := T.links_update (tree.wf.support d (by rw [hd]; exact nofun))
    (some ⟨x.parent, addSlot (j, nm) x.slots⟩) i
  rw [hd, DirTree.weight_some, DirTree.weight_some, uses_addSlot] at links
  unfold linkIn
  dsimp only at links
  omega

/-- What a call that frees nothing may do to the files and to the tree. -/
structure Grows (N N' : ℕ → Node) (T T' : Dirs) : Prop where
  type : ∀ i, (N i).type ≠ 0 → (N' i).type = (N i).type
  new : ∀ i, (N i).type = 0 → (N' i).type ≠ 0 → 0 < T'.links i
  links : ∀ i, 0 < T.links i → 0 < T'.links i

theorem Grows.refl (N : ℕ → Node) (T : Dirs) : Grows N N T T :=
  ⟨fun _ _ => rfl, fun _ h h' => absurd h h', fun _ h => h⟩

theorem createNew_sat {major minor : BitVec 16} {x : Dir ℕ (List UInt8)}
    (h : Fsys 1 0 N ((dp, d) :: R) (dp :: L) s) (tree : Tree [] N T) (hd : T d = some x)
    (new : lookup (entries d x) (key name) = none) (ht : type = T_DIR ∨ type = T_FILE)
    (sub : ∀ jp ∈ L, jp ∈ R.map Prod.fst) (hcap : used R + 2 ≤ cap) (hfull : full) :
    Comp.Sat (createNew dp name type major minor) s (Limit cap full) fun ip s' => ∃ j N' T',
      Tree [] N' T' ∧ Grows N N' T T' ∧ 0 < T'.links j ∧ (N j).type = 0 ∧ (N' j).type = type ∧
        Fsys 1 9 N' ((ip, j) :: R) (ip :: L) s' := by
  have linked : 0 < T.links d := tree.wf.links_pos (by rw [hd]; exact nofun)
  have room := used_cons_le (dp, d) R
  have type0 : type ≠ 0 := by
    rcases ht with rfl | rfl <;> decide
  unfold createNew
  refine .gets ?_
  rw [h.dev List.mem_cons_self]
  refine .call (ialloc_sat h (by omega) ht (Nat.le_trans room (by omega)) hfull) ?_
  rintro ip t ⟨j, h1, hj, free, out, ht'⟩
  have room' := used_cons_le (ip, j) ((dp, d) :: R)
  have fresh : T.links j = 0 := tree.links_free (by rw [free]; rfl)
  have hjd : d ≠ j := by
    rintro rfl
    omega
  refine .call (ilock_sat ht' List.mem_cons_self) ?_
  rintro _ u ⟨hu, -⟩
  unfold modInode
  refine .modify (.call (setFields_sat
    (f := fun e => { e with major := major, minor := minor, nlink := 1 }) hu (by omega)
    List.mem_cons_self List.mem_cons_self (fun _ => rfl) (fun _ => rfl) fun _ => rfl) ?_)
  rintro _ v ⟨V, node, hv, -⟩
  obtain ⟨e, he⟩ : ∃ e, e = (u.inode ip).d := ⟨_, rfl⟩
  rw [← he] at node hv
  obtain ⟨y, hy⟩ : ∃ y, y = V.node { e with major := major, minor := minor, nlink := 1 } := ⟨_, rfl⟩
  have same : SameContents (.fresh type) y := by
    rw [← Function.update_self (f := N) (a := j) (v := Node.fresh type), node, hy]
    exact sameContents_of_fields (f := fun e => { e with major := major, minor := minor, nlink := 1 })
      rfl rfl rfl
  have one : y.nlink = 1 := by rw [hy]; rfl
  rw [← hy, Function.update_idem] at hv
  have tree₁ : Tree [j] (Function.update N j y) T := by
    refine tree.outside fresh (fun _ => ?_) fun i hi => List.count_cons_of_ne (Ne.symm hi)
    rw [one, List.count_cons_self]
    rfl
  have nodeD : Function.update N j y d = N d := Function.update_of_ne hjd ..
  have dir := tree.dir d x hd
  -- the entries of a new directory
  refine .call (P := fun _ w => ∃ N₂, Tree (if type = T_DIR then [j, d] else [j]) N₂ T ∧
    (type = T_DIR → (N₂ j).Lists (entries j ⟨d, []⟩)) ∧ (N₂ j).type = type ∧
      SameContents (N d) (N₂ d) ∧ (∀ i, i ≠ j → (N₂ i).type = (N i).type) ∧
        Fsys 1 6 N₂ ((ip, j) :: (dp, d) :: R) (ip :: dp :: L) w) ?_ ?_
  · refine .ite (fun isDir => ?_) fun isFile => ?_
    · refine (makeDots_sat hv tree₁ (List.mem_cons_of_mem _ List.mem_cons_self)
        (List.mem_cons_of_mem _ (List.mem_cons_of_mem _ List.mem_cons_self)) List.mem_cons_self
        List.mem_cons_self linked ?_ ?_ fresh (by omega) hfull).post ?_
      · rw [Function.update_self, same.type]
        exact isDir
      · rw [Function.update_self]
        exact ⟨same.size, nofun⟩
      rintro _ w ⟨y', z, same', same'', dots, tree₂, hw⟩
      refine ⟨_, ?_, fun _ => ?_, ?_, ?_, fun i hi => ?_, hw.weaken fun jp hjp => ?_⟩
      · rwa [if_pos isDir]
      · rwa [Function.update_self]
      · rw [Function.update_self, same''.type, Function.update_self, same.type]
        rfl
      · rw [Function.update_of_ne hjd, Function.update_self, ← nodeD]
        exact same'
      · rw [Function.update_of_ne hi]
        by_cases hid : i = d
        · rw [hid, Function.update_self, same'.type, nodeD]
        · rw [Function.update_of_ne hid, Function.update_of_ne hi]
      · exact List.mem_cons_of_mem _ hjp
    · refine .pure ⟨_, ?_, fun isDir => absurd isDir isFile, ?_, ?_, fun i hi => ?_,
        (hv.mono (by omega)).weaken fun jp hjp => List.mem_cons_of_mem _ hjp⟩
      · rwa [if_neg isFile]
      · rw [Function.update_self, same.type]
        rfl
      · rw [nodeD]
        exact ⟨rfl, rfl, rfl⟩
      · rw [Function.update_of_ne hi]
  · rintro _ w ⟨N₂, tree₂, dots, typeJ, sameD, types, hw⟩
    have few : (if type = T_DIR then [j, d] else [j]).length ≤ 3 := by
      split
      · exact Nat.le_succ 2
      · exact Nat.le_add_left 1 2
    refine .gets ?_
    rw [hw.inum List.mem_cons_self]
    refine .call (mustLink_sat _ hw (by omega) (List.mem_cons_of_mem _ List.mem_cons_self)
      (List.mem_cons_of_mem _ List.mem_cons_self) (sameD.type.trans dir.1)
      (dir.2.congr sameD.size sameD.byte) (tree₂.named hd) (hw.nlink_entries tree₂ few hd) new
      (by omega) hj (by omega) hfull _) ?_
    rintro _ v ⟨z, sameZ, lists, hv⟩
    have typeZ : ∀ i, (Function.update N₂ d z i).type = (N₂ i).type := by
      intro i
      by_cases hid : i = d
      · rw [hid, Function.update_self, sameZ.type]
      · rw [Function.update_of_ne hid]
    have noDir : T j = none := tree.file (by rw [free]; decide)
    have mem : j ∈ inums := Finset.mem_Ico.mpr ⟨h1, hj⟩
    -- the tree with the new name
    obtain ⟨T', tree', more, here⟩ : ∃ T', Tree [] (Function.update N₂ d z) T' ∧
        (∀ i, T.links i ≤ T'.links i) ∧ 0 < T'.links j := by
      have counts := links_linkIn (j := j) (key name) tree hd
      have countJ := counts j
      rw [if_pos rfl] at countJ
      by_cases isDir : type = T_DIR
      · rw [if_pos isDir] at tree₂
        have absent : linkIn T d j x (key name) j = none :=
          (Function.update_of_ne (Ne.symm hjd) ..).trans noDir
        have more : ∀ i, (linkIn T d j x (key name)).links i ≤ Dirs.links (Function.update
            (linkIn T d j x (key name)) j (some (⟨d, []⟩ : Dir ℕ (List UInt8)))) i := by
          intro i
          have := Dirs.links_update (linkIn T d j x (key name)) mem
            (some (⟨d, []⟩ : Dir ℕ (List UInt8))) i
          rw [absent, DirTree.weight_none] at this
          omega
        refine ⟨_, tree₂.mkdir (z := ⟨d, []⟩) hd sameZ lists new noDir mem fresh (typeJ.trans isDir)
          rfl (dots isDir), fun i => Nat.le_trans ?_ (more i), Nat.lt_of_lt_of_le ?_ (more j)⟩
        · exact (Nat.le_add_right ..).trans (counts i).symm.le
        · exact Nat.lt_of_lt_of_le (Nat.succ_pos _) countJ.symm.le
      · rw [if_neg isDir] at tree₂
        refine ⟨_, tree₂.link hd sameZ lists new (by rwa [typeJ]) (by rwa [typeJ]), fun i => ?_, ?_⟩
        · exact (Nat.le_add_right ..).trans (counts i).symm.le
        · exact Nat.lt_of_lt_of_le (Nat.succ_pos _) countJ.symm.le
    have hv' := hv.perm (List.Perm.swap (dp, d) (ip, j) R)
    refine .call (iunlockput_linked_sat (M := ip :: L) hv' tree' (by decide)
      (Nat.lt_of_lt_of_le linked (Nat.le_trans (more d) (Nat.le_add_right ..))) fun jp hjp => ?_) ?_
    · rcases List.mem_cons.mp hjp with rfl | hjp
      · exact ⟨List.mem_cons_self, List.mem_cons_self⟩
      · exact ⟨List.mem_cons_of_mem _ (List.mem_cons_of_mem _ hjp),
          List.mem_cons_of_mem _ (sub jp hjp)⟩
    rintro _ z' ⟨hz, -⟩
    refine .pure ⟨j, _, T', tree', ⟨fun i hi => ?_, fun i h0 hi => ?_, fun i hi => ?_⟩, here,
      by rw [free]; rfl, ?_, hz⟩
    · rw [typeZ, types]
      rintro rfl
      rw [free] at hi
      exact hi rfl
    · by_cases hij : i = j
      · rwa [hij]
      · rw [typeZ, types i hij] at hi
        exact absurd h0 hi
    · exact Nat.lt_of_lt_of_le hi (more i)
    · rw [typeZ, typeJ]

/-- What `create` has found at the path or made there. -/
structure Created (N N' : ℕ → Node) (T T' : Dirs) (type : BitVec 16) (path : List UInt8)
    (L : List (Fin NINODE)) (j : ℕ) (s s' : Vol) : Prop where
  tree : Tree [] N' T'
  grows : Grows N N' T T'
  linked : 0 < T'.links j
  file : type = T_FILE → (N' j).type ≠ T_DIR
  found : ∃ d x name, walk T true ROOTINO (elements path) = some (d, name) ∧ T d = some x ∧
    (lookup (entries d x) (key name) = none ∧ (N j).type = 0 ∨
      lookup (entries d x) (key name) ≠ none ∧ N' = N ∧ T' = T ∧ Looked L s s')

/-- The path has a parent directory that does not have its last name. -/
def Missing (T : Dirs) (path : List UInt8) : Prop :=
  ∃ d x name, walk T true ROOTINO (elements path) = some (d, name) ∧ T d = some x ∧
    lookup (entries d x) (key name) = none

theorem missing_iff {x : Dir ℕ (List UInt8)}
    (found : walk T true ROOTINO (elements path) = some (d, name)) (hx : T d = some x) :
    Missing T path ↔ lookup (entries d x) (key name) = none := by
  refine ⟨?_, fun none => ⟨d, x, name, found, hx, none⟩⟩
  rintro ⟨d', x', name', found', hx', none⟩
  rw [found, Option.some.injEq, Prod.mk.injEq] at found'
  obtain ⟨rfl, rfl⟩ := found'
  rw [hx, Option.some.injEq] at hx'
  rwa [hx']

theorem create_sat {major minor : BitVec 16} (h : Fsys 1 0 N R L s) (tree : Tree [] N T)
    (ht : type = T_DIR ∨ type = T_FILE) (sub : ∀ jp ∈ L, jp ∈ R.map Prod.fst)
    (hcap : used R + 3 ≤ cap) (hfull : full) :
    Comp.Sat (create path type major minor) s (Limit cap full) fun r s' => ∃ rp, match r with
      | none => Fsys 1 0 N (leak rp path ++ R) L s' ∧ Looked L s s' ∧ ¬ Missing T path
      | some ip => ∃ j N' T', Created N N' T T' type path L j s s' ∧
          Fsys 1 9 N' ((ip, j) :: (leak rp path ++ R)) (ip :: L) s' := by
  unfold create
  refine .call (namex_sat tree (by decide) sub (by omega) h) ?_
  rintro (_ | ⟨dp, name⟩) t ⟨look₁, rp, ht'⟩
  · refine .pure ⟨rp, ht'.2, look₁, ?_⟩
    rintro ⟨d, x, name, found, -⟩
    rw [ht'.1] at found
    cases found
  obtain ⟨d, found, linked, ht'⟩ := ht'
  obtain ⟨x, hx⟩ := walk_parent found
  have linked' : 0 < T.links d + [].count d := Nat.add_pos_left linked _
  have dir := tree.dir d x hx
  have room := used_append_le (leak rp path) R
  have short := leak_length_le rp path
  have room' := used_cons_le (dp, d) (leak rp path ++ R)
  have sub' : ∀ jp ∈ L, jp ∈ (leak rp path ++ R).map Prod.fst := fun jp hj => by
    rw [List.map_append]
    exact List.mem_append_right _ (sub jp hj)
  have tail : ∀ jp ∈ L, jp ∈ dp :: L := fun jp hj => List.mem_cons_of_mem _ hj
  refine .call (ilock_sat ht' List.mem_cons_self) ?_
  rintro _ u ⟨hu, -, look₂⟩
  refine .call (dirlookup_sat hu List.mem_cons_self List.mem_cons_self dir.1 dir.2 (tree.named hx)
    (by omega)) ?_
  rintro (_ | ⟨ip, off⟩) v hv
  · obtain ⟨new, hv, -⟩ := hv
    refine .call (createNew_sat hv tree hx new ht sub' (by omega) hfull) ?_
    rintro ip w ⟨j, N', T', tree', grows, linked, fresh, type, hw⟩
    refine .pure ⟨rp, j, N', T', ⟨tree', grows, linked, fun file => ?_, d, x, name, found, hx,
      Or.inl ⟨new, fresh⟩⟩, hw⟩
    rw [type, file]
    decide
  · obtain ⟨j, m, there, -, hv, look₃⟩ := hv
    have pos := tree.links_pos hx (List.mem_of_getElem? (lookup_some there))
    have hv' := hv.perm (List.Perm.swap (dp, d) (ip, j) (leak rp path ++ R))
    refine .call (iunlockput_linked_sat (M := L) hv' tree (by decide) linked' fun jp hj =>
      ⟨List.mem_cons_of_mem _ hj, List.mem_cons_of_mem _ (sub' jp hj)⟩) ?_
    rintro _ w ⟨hw, look₄⟩
    have look := look₁.trans (look₂.trans ((look₃.mono tail).trans look₄))
    refine .call (ilock_sat hw List.mem_cons_self) ?_
    rintro _ z ⟨hz, -, look₅⟩
    refine .gets (.ite (fun same => ?_) fun other => ?_)
    · refine .pure ⟨rp, j, N, T, ⟨tree, .refl N T, pos, fun _ => ?_, d, x, name, found, hx,
        Or.inr ⟨?_, rfl, rfl, look.trans look₅⟩⟩, hz.mono (by omega)⟩
      · rw [← hz.type List.mem_cons_self List.mem_cons_self]
        rcases same.2 with file | device
        · rw [file]
          decide
        · rw [device]
          decide
      · unfold key
        rw [there]
        exact nofun
    · refine .call (iunlockput_linked_sat (M := L) hz tree (by decide)
        (Nat.add_pos_left pos _) fun jp hj => ⟨List.mem_cons_of_mem _ hj, sub' jp hj⟩) ?_
      rintro _ y ⟨hy, look₆⟩
      refine .pure ⟨rp, hy, look.trans (look₅.trans look₆), ?_⟩
      rw [missing_iff found hx, key, there]
      exact nofun

end EasyXv6.Fs.Vol
