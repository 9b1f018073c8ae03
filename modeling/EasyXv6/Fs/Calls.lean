import EasyXv6.Fs.Create

set_option autoImplicit false

/-!
# The calls on names

What `sys_mkdir`, `sys_unlink`, `sys_link` and the search of `sys_open` do to the tree, and the end
of an inode.
-/
namespace EasyXv6.Fs.Vol
open Lib

variable {k cap : ℕ} {full : Prop} {N N' : ℕ → Node} {R R' Q : List Ref} {L L' : List (Fin NINODE)}
  {s : Vol} {T T' : Dirs} {ip dp : Fin NINODE} {i j d : ℕ} {path : List UInt8}

/-- The tree between two calls: an inode without links is one that a slot of `L` holds. -/
structure World (N : ℕ → Node) (T : Dirs) (R : List Ref) (L : List (Fin NINODE)) : Prop where
  tree : Tree [] N T
  live : ∀ i, (N i).type ≠ 0 → 0 < T.links i ∨ ∃ ip ∈ L, (ip, i) ∈ R

/-- The inodes of the references keep their types. -/
def Kinds (R : List Ref) (N N' : ℕ → Node) : Prop := ∀ x ∈ R, (N' x.2).type = (N x.2).type

/-- References to the root that walks of the paths have left behind. -/
structure Strays (paths : List (List UInt8)) (Q : List Ref) : Prop where
  root : ∀ x ∈ Q, x.2 = ROOTINO
  absolute : (∀ p ∈ paths, p.head? = some SLASH) → Q = []

section World

theorem World.mono (h : World N T R L) (hR : R ⊆ R') (hL : L ⊆ L') : World N T R' L' :=
  ⟨h.tree, fun i hi => (h.live i hi).imp_right fun ⟨ip, hip, hx⟩ => ⟨ip, hL hip, hR hx⟩⟩

theorem World.grows (h : World N T R L) (tree : Tree [] N' T') (grows : Grows N N' T T') :
    World N' T' R L := by
  refine ⟨tree, fun i hi => ?_⟩
  by_cases h0 : (N i).type = 0
  · exact Or.inl (grows.new i h0 hi)
  · exact (h.live i h0).imp_left (grows.links i)

theorem Fsys.kinds {o : ℤ} (h : Fsys o k N R L s) (grows : Grows N N' T T') : Kinds R N N' :=
  fun x hx => grows.type x.2 (h.alloc (show (x.1, x.2) ∈ R from hx)).2.2

theorem Kinds.refl (R : List Ref) (N : ℕ → Node) : Kinds R N N := fun _ _ => rfl

theorem leak_strays (rp : Fin NINODE) (path : List UInt8) : Strays [path] (leak rp path) := by
  unfold leak
  split
  next abs => exact ⟨nofun, fun _ => rfl⟩
  next rel =>
    refine ⟨fun x hx => ?_, fun abs => absurd (abs path List.mem_cons_self) rel⟩
    rw [List.mem_singleton.mp hx]

theorem Strays.mono {ps qs : List (List UInt8)} (h : Strays ps Q) (sub : ps ⊆ qs) : Strays qs Q :=
  ⟨h.root, fun abs => h.absolute fun p hp => abs p (sub hp)⟩

theorem Strays.append {ps qs : List (List UInt8)} {P : List Ref} (h : Strays ps P) (h' : Strays qs Q) :
    Strays (ps ++ qs) (P ++ Q) := by
  refine ⟨fun x hx => ?_, fun abs => ?_⟩
  · exact (List.mem_append.mp hx).elim (h.root x) (h'.root x)
  · rw [h.absolute fun p hp => abs p (List.mem_append_left _ hp),
      h'.absolute fun p hp => abs p (List.mem_append_right _ hp)]
    rfl

end World

/-- What the end of a reference does: nothing to the files, or it frees the inode. -/
def Dropped (s : Vol) (ip : Fin NINODE) (i : ℕ) (T : Dirs) (R : List Ref) (N N' : ℕ → Node)
    (s' : Vol) : Prop :=
  N' = N ∧ ((ip, i) ∈ R ∨ 0 < T.links i) ∨
    N' = Function.update N i .free ∧ T.links i = 0 ∧ ip ∉ R.map Prod.fst ∧
      ∀ b, InUse s' b ↔ InUse s b ∧ ¬ Owns s ip b

/-- `iput` of a loaded inode. -/
theorem iput_sat (h : Fsys 1 k N ((ip, i) :: R) (ip :: L) s) (hk : k ≤ 14) (tree : Tree [] N T)
    (sub : ∀ jp ∈ L, jp ∈ R.map Prod.fst) :
    Comp.Sat (iput ip) s (Limit cap full) fun _ s' => ∃ N', Fsys 1 k N' R L s' ∧
      Tree [] N' T ∧ Dropped s ip i T R N N' s' := by
  have alloc := h.alloc List.mem_cons_self
  have hL : ∀ jp ∈ L, jp ∈ ip :: L ∧ jp ∈ R.map Prod.fst :=
    fun jp hj => ⟨List.mem_cons_of_mem _ hj, sub jp hj⟩
  have zero := h.nlink_zero tree (by decide) alloc.2.2
  rw [List.count_nil, Nat.add_zero] at zero
  by_cases more : ip ∈ R.map Prod.fst
  · obtain ⟨x, hx, rfl⟩ := List.mem_map.mp more
    have same := h.inum_eq List.mem_cons_self (List.mem_cons_of_mem _ hx)
    refine (iput_keep_sat h hL (Or.inl more)).post fun _ t ht => ⟨N, ht.1, tree, Or.inl ⟨rfl, ?_⟩⟩
    exact Or.inl (same ▸ hx)
  · by_cases linked : 0 < T.links i
    · refine (iput_keep_sat h hL (Or.inr (Or.inl fun h0 => ?_))).post fun _ t ht =>
        ⟨N, ht.1, tree, Or.inl ⟨rfl, Or.inr linked⟩⟩
      have := zero.mp h0
      omega
    · have unlinked : T.links i = 0 := Nat.eq_zero_of_not_pos linked
      have notRoot : i ≠ ROOTINO := by
        rintro rfl
        exact linked (DirTree.links_root_pos inums T)
      refine (iput_free_sat h hk hL more List.mem_cons_self (zero.mpr unlinked) notRoot).post ?_
      rintro _ t ⟨ht, bits⟩
      refine ⟨_, ht, ?_, Or.inr ⟨rfl, unlinked, more, bits⟩⟩
      exact tree.outside unlinked (fun used => absurd rfl used) fun _ _ => rfl

/-- What is left when a slot has given up a reference. -/
theorem World.dropped {s' : Vol} (h : World N T ((ip, i) :: R) (ip :: L)) (tree : Tree [] N' T)
    (held : ∀ x ∈ R, x.1 ∈ L ∨ x.2 = ROOTINO) (drop : Dropped s ip i T R N N' s') :
    World N' T R L := by
  have root : 0 < T.links ROOTINO := DirTree.links_root_pos inums T
  have kept : ∀ jp j, (jp, j) ∈ R → 0 < T.links j ∨ ∃ ip ∈ L, (ip, j) ∈ R := by
    intro jp j hx
    rcases held _ hx with hL | rfl
    · exact Or.inr ⟨jp, hL, hx⟩
    · exact Or.inl root
  refine ⟨tree, fun j hj => ?_⟩
  rcases drop with ⟨rfl, more⟩ | ⟨rfl, -, -, -⟩
  · rcases h.live j hj with linked | ⟨jp, -, hx⟩
    · exact Or.inl linked
    rcases List.mem_cons.mp hx with he | hx
    · cases he
      exact more.elim (kept _ _) Or.inl
    · exact kept jp j hx
  · have hji : j ≠ i := by
      rintro rfl
      rw [Function.update_self] at hj
      exact hj rfl
    rw [Function.update_of_ne hji] at hj
    rcases h.live j hj with linked | ⟨jp, -, hx⟩
    · exact Or.inl linked
    rcases List.mem_cons.mp hx with he | hx
    · cases he
      exact absurd rfl hji
    · exact kept jp j hx

theorem mkdir_sat (h : Fsys 1 0 N R L s) (world : World N T R L)
    (sub : ∀ jp ∈ L, jp ∈ R.map Prod.fst) (hcap : used R + 3 ≤ cap) (hfull : full) :
    Comp.Sat (mkdir path) s (Limit cap full) fun r s' => ∃ Q, Strays [path] Q ∧
      (r = -1 ∧ Fsys 1 0 N (Q ++ R) L s' ∧ Looked L s s' ∨
        r = 0 ∧ ∃ N' T', World N' T' R L ∧ Kinds R N N' ∧ Fsys 1 9 N' (Q ++ R) L s') := by
  unfold mkdir
  refine .call (create_sat h world.tree (Or.inl rfl) sub hcap hfull) ?_
  rintro (_ | ip) t ⟨rp, ht⟩
  · exact .pure ⟨_, leak_strays rp path, Or.inl ⟨rfl, ht.1, ht.2.1⟩⟩
  obtain ⟨j, N', T', made, ht⟩ := ht
  refine .call (iunlockput_linked_sat (M := L) ht made.tree (by decide)
    (Nat.add_pos_left made.linked _) fun jp hj => ⟨List.mem_cons_of_mem _ hj, ?_⟩) ?_
  · rw [List.map_append]
    exact List.mem_append_right _ (sub jp hj)
  rintro _ u ⟨hu, -⟩
  exact .pure ⟨_, leak_strays rp path, Or.inr ⟨rfl, N', T', world.grows made.tree made.grows,
    h.kinds made.grows, hu⟩⟩

/-- Only the inode `i` has been written, and its block now holds the copy that the kernel goes by. -/
structure Resaved (i : ℕ) (L : List (Fin NINODE)) (s s' : Vol) : Prop where
  disk : s'.blk.bio.disk = s.blk.bio.disk
  logged : Log.LogCtx.logged s'.blk.ctx = noted (INODES + i / IPB) (Log.LogCtx.logged s.blk.ctx)
  stored : ∀ j < NINODES, j ≠ i → s'.stored j = s.stored j
  keep : ∀ jp ∈ L, (s'.inode jp).d = (s.inode jp).d
  fresh : ∃ ip t, Looked L s t ∧ Loaded t ip ∧ (t.inode ip).inum = i ∧
    s'.stored i = (t.inode ip).d
  own : ∀ jp ∈ L, (s.inode jp).inum = i → s'.stored i = (s.inode jp).d

theorem resaved {s t u v w x : Vol} {by' : BitVec 16} (hi : i < NINODES) (look : Looked L s t)
    (ht : Loaded t ip) (inum : (t.inode ip).inum = i)
    (saved : Saved ip i { (t.inode ip).d with nlink := (t.inode ip).d.nlink + by' } t u)
    (look₁ : Looked (ip :: L) u v)
    (saved₁ : Saved ip i { (v.inode ip).d with nlink := (v.inode ip).d.nlink + -by' } v w)
    (look₂ : Looked L w x) (sole : ∀ jp ∈ L, (s.inode jp).inum = i → jp = ip) :
    Resaved i L s x := by
  have block : noted (INODES + i / IPB) (noted (INODES + i / IPB) (Log.LogCtx.logged s.blk.ctx)) =
      noted (INODES + i / IPB) (Log.LogCtx.logged s.blk.ctx) :=
    if_pos (mem_noted.mpr (Or.inl rfl))
  have copy : (v.inode ip).d = { (t.inode ip).d with nlink := (t.inode ip).d.nlink + by' } := by
    rw [look₁.keep ip List.mem_cons_self, saved.inode, Function.update_self]
  have back : ({ (v.inode ip).d with nlink := (v.inode ip).d.nlink + -by' } : Dinode) =
      (t.inode ip).d := by
    rw [copy]
    dsimp only
    rw [BitVec.add_neg_eq_sub, BitVec.add_sub_cancel]
  rw [back] at saved₁
  have last : x.stored i = (t.inode ip).d := by rw [look₂.stored hi, saved₁.stored_self]
  refine ⟨?_, ?_, fun j hj hne => ?_, fun jp hj => ?_, ⟨ip, t, look, ht, inum, last⟩,
    fun jp hj he => ?_⟩
  · rw [look₂.disk, saved₁.disk, look₁.disk, saved.disk, look.disk]
  · rw [look₂.ctx, saved₁.logged, look₁.ctx, saved.logged, look.ctx, block]
  · rw [look₂.stored hj, saved₁.stored_of_ne hj hne, look₁.stored hj, saved.stored_of_ne hj hne,
      look.stored hj]
  · rw [look₂.keep jp hj, saved₁.inode]
    by_cases he : jp = ip
    · subst he
      rw [Function.update_self, look.keep jp hj]
    · rw [Function.update_of_ne he, look₁.keep jp (List.mem_cons_of_mem _ hj), saved.inode,
        Function.update_of_ne he, look.keep jp hj]
  · rw [last, ← sole jp hj he, look.keep jp hj]

/-- `bad:` of `sys_link`: the link that was counted is none. -/
theorem unlinkBack_sat (h : Fsys 1 k N ((ip, i) :: R) (ip :: L) s) (hk : k ≤ 14)
    (tree : Tree [i] N T) (linked : 0 < T.links i) (sub : ∀ jp ∈ L, jp ∈ R.map Prod.fst) :
    Comp.Sat (unlinkBack ip) s (Limit cap full) fun r s' => r = -1 ∧ ∃ y t u, SameContents (N i) y ∧
      Tree [] (Function.update N i y) T ∧ Fsys 1 k (Function.update N i y) R L s' ∧
        Looked (ip :: L) s t ∧
          Saved ip i { (t.inode ip).d with nlink := (t.inode ip).d.nlink + -1 } t u ∧
            Looked L u s' := by
  have alloc := h.alloc List.mem_cons_self
  unfold unlinkBack
  refine .call (ilock_sat h List.mem_cons_self) ?_
  rintro _ t ⟨ht, -, look⟩
  refine .call (addLink_sat ht hk List.mem_cons_self List.mem_cons_self) ?_
  rintro _ u ⟨⟨y, same, nlink, hu⟩, saved, -⟩
  have tree' := tree.uncount same alloc.2.2 (nlink.trans (BitVec.add_neg_eq_sub ..))
  refine .call (iunlockput_linked_sat (M := L) hu tree' (by decide) (Nat.add_pos_left linked _)
    fun jp hj => ⟨List.mem_cons_of_mem _ (List.mem_cons_of_mem _ hj), sub jp hj⟩) ?_
  rintro _ v ⟨hv, look'⟩
  exact .pure ⟨rfl, y, t, u, same, tree', hv, look, saved, look'⟩

/-- The inode that `sys_link` gives another name is a file. -/
def LinkSource (N : ℕ → Node) (T : Dirs) (oldpath : List UInt8) (i : ℕ) : Prop :=
  (∃ name, walk T false ROOTINO (elements oldpath) = some (i, name)) ∧ (N i).type ≠ T_DIR

theorem link_sat {oldpath newpath : List UInt8} (h : Fsys 1 0 N R L s) (world : World N T R L)
    (sub : ∀ jp ∈ L, jp ∈ R.map Prod.fst) (hcap : used R + 4 ≤ cap) (hfull : full) :
    Comp.Sat (link oldpath newpath) s (Limit cap full) fun r s' => ∃ Q N' T',
      Strays [oldpath, newpath] Q ∧ World N' T' R L ∧ Kinds R N N' ∧ Fsys 1 9 N' (Q ++ R) L s' ∧
        (r = -1 ∧ (Looked L s s' ∧ (∀ i, ¬ LinkSource N T oldpath i) ∨
          ∃ i, LinkSource N T oldpath i ∧ Resaved i L s s') ∨ r = 0) := by
  have tree := world.tree
  unfold link
  refine .call (namei_sat tree (by decide) sub (by omega) h) ?_
  rintro (_ | ip) t ⟨look, rp, ht⟩
  · refine .pure ⟨_, N, T, (leak_strays rp oldpath).mono (by simp), world, .refl R N,
      ht.2.mono (by omega), Or.inl ⟨rfl, Or.inl ⟨look, ?_⟩⟩⟩
    rintro i ⟨⟨name, found⟩, -⟩
    rw [ht.1] at found
    cases found
  obtain ⟨i, name, found, linked, ht⟩ := ht
  obtain ⟨Q, hQ⟩ : ∃ Q, Q = leak rp oldpath := ⟨_, rfl⟩
  have strays : Strays [oldpath] Q := hQ ▸ leak_strays rp oldpath
  have short : Q.length ≤ 1 := hQ ▸ leak_length_le rp oldpath
  rw [← hQ] at ht
  have room := used_append_le Q R
  have sub₁ : ∀ jp ∈ L, jp ∈ (Q ++ R).map Prod.fst := fun jp hj => by
    rw [List.map_append]
    exact List.mem_append_right _ (sub jp hj)
  have alloc := ht.alloc List.mem_cons_self
  have sole : ∀ jp ∈ L, (s.inode jp).inum = i → jp = ip := by
    intro jp hj he
    obtain ⟨⟨_, j⟩, mem, rfl⟩ := List.mem_map.mp (h.refs.loaded jp hj).1
    rw [h.inum mem] at he
    exact ht.slot_eq (List.mem_cons_of_mem _ (List.mem_append_right Q (he ▸ mem)))
      List.mem_cons_self
  refine .call (ilock_sat ht List.mem_cons_self) ?_
  rintro _ u ⟨hu, -, look'⟩
  have look := look.trans look'
  refine .gets (.ite (fun dir => ?_) fun file => ?_)
  · rw [hu.type List.mem_cons_self List.mem_cons_self] at dir
    refine .call (iunlockput_linked_sat (M := L) hu tree (by decide) (Nat.add_pos_left linked _)
      fun jp hj => ⟨List.mem_cons_of_mem _ hj, sub₁ jp hj⟩) ?_
    rintro _ v ⟨hv, look₁⟩
    refine .pure ⟨_, N, T, strays.mono (by simp), world, .refl R N, hv.mono (by omega),
      Or.inl ⟨rfl, Or.inl ⟨look.trans look₁, ?_⟩⟩⟩
    rintro j ⟨⟨name', found'⟩, file⟩
    rw [found] at found'
    cases found'
    exact file dir
  have hi := hu.inum List.mem_cons_self
  have loaded := hu.isLoaded List.mem_cons_self
  rw [hu.type List.mem_cons_self List.mem_cons_self] at file
  have source : LinkSource N T oldpath i := ⟨⟨name, found⟩, file⟩
  rw [hu.dev List.mem_cons_self, hi]
  refine .call (addLink_sat hu (by omega) List.mem_cons_self List.mem_cons_self) ?_
  rintro _ v ⟨⟨y, same, nlink, hv⟩, saved, -⟩
  have tree₁ := tree.count same alloc.2.2 nlink
  obtain ⟨N₁, hN₁⟩ : ∃ N₁, N₁ = Function.update N i y := ⟨_, rfl⟩
  rw [← hN₁] at hv tree₁
  have types : ∀ j, (N₁ j).type = (N j).type := by
    intro j
    rw [hN₁]
    by_cases hj : j = i
    · rw [hj, Function.update_self, same.type]
    · rw [Function.update_of_ne hj]
  refine .call (iunlock_sat hv List.mem_cons_self) ?_
  rintro _ v' hv'
  rw [hv']
  have sub₂ : ∀ jp ∈ ip :: L, jp ∈ ((ip, i) :: (Q ++ R)).map Prod.fst := by
    intro jp hj
    rcases List.mem_cons.mp hj with rfl | hj
    · exact List.mem_cons_self
    · exact List.mem_cons_of_mem _ (sub₁ jp hj)
  have room₁ := used_cons_le (ip, i) (Q ++ R)
  have few : [i].length ≤ 3 := Nat.le_add_left 1 2
  -- the new name
  refine .call (namex_sat tree₁ few sub₂ (by omega) hv) ?_
  rintro r w ⟨look₁, rp', hw⟩
  obtain ⟨P, hP⟩ : ∃ P, P = leak rp' newpath := ⟨_, rfl⟩
  have strays' : Strays [oldpath, newpath] (P ++ Q) := by
    refine Strays.mono ((hP ▸ leak_strays rp' newpath : Strays [newpath] P).append strays) ?_
    simp
  have short' : P.length ≤ 1 := hP ▸ leak_length_le rp' newpath
  rw [← hP] at hw
  have middle : (P ++ (ip, i) :: (Q ++ R)).Perm ((ip, i) :: (P ++ Q ++ R)) := by
    rw [List.append_assoc]
    exact List.perm_middle
  have sub₃ : ∀ jp ∈ L, jp ∈ (P ++ Q ++ R).map Prod.fst := fun jp hj => by
    rw [List.append_assoc, List.map_append]
    exact List.mem_append_right _ (sub₁ jp hj)
  -- every failure from here on takes the link back
  have back : ∀ t, Fsys 1 0 N₁ ((ip, i) :: (P ++ Q ++ R)) (ip :: L) t → Looked (ip :: L) v t →
      Comp.Sat (unlinkBack ip) t (Limit cap full) fun r s' => ∃ Q N' T',
        Strays [oldpath, newpath] Q ∧ World N' T' R L ∧ Kinds R N N' ∧ Fsys 1 9 N' (Q ++ R) L s' ∧
          (r = -1 ∧ (Looked L s s' ∧ (∀ i, ¬ LinkSource N T oldpath i) ∨
            ∃ i, LinkSource N T oldpath i ∧ Resaved i L s s') ∨ r = 0) := by
    intro t ht look₂
    refine (unlinkBack_sat ht (by omega) tree₁ linked sub₃).post ?_
    rintro r u' ⟨rfl, z, t', w', same', tree₂, hu', look₃, saved', look₄⟩
    have types' : ∀ j, (Function.update N₁ i z j).type = (N j).type := by
      intro j
      by_cases hj : j = i
      · rw [hj, Function.update_self, same'.type, types]
      · rw [Function.update_of_ne hj, types]
    refine ⟨_, _, T, strays', ⟨tree₂, fun j hj => world.live j ?_⟩, fun x _ => types' x.2,
      hu'.mono (by omega), Or.inl ⟨rfl, Or.inr ⟨i, source, ?_⟩⟩⟩
    · rwa [types'] at hj
    · exact resaved alloc.2.1 look loaded hi saved (look₂.trans look₃) saved' look₄ sole
  obtain _ | ⟨dp, name'⟩ := r
  · exact back w (hw.2.perm middle) look₁
  obtain ⟨d, found', linked', hw⟩ := hw
  obtain ⟨x, hx⟩ := walk_parent found'
  have dir := tree₁.dir d x hx
  have front : ((dp, d) :: (P ++ (ip, i) :: (Q ++ R))).Perm ((ip, i) :: (dp, d) :: (P ++ Q ++ R)) :=
    (middle.cons _).trans (List.Perm.swap ..)
  have sub₄ : ∀ jp ∈ ip :: L, jp ∈ ((ip, i) :: (P ++ Q ++ R)).map Prod.fst := by
    intro jp hj
    rcases List.mem_cons.mp hj with rfl | hj
    · exact List.mem_cons_self
    · exact List.mem_cons_of_mem _ (sub₃ jp hj)
  have room₂ := used_cons_le (ip, i) ((dp, d) :: (P ++ Q ++ R))
  have room₃ := used_cons_le (dp, d) (P ++ Q ++ R)
  have room₄ := used_append_le (P ++ Q) R
  rw [List.length_append] at room₄
  refine .call (ilock_sat (hw.perm front) (List.mem_cons_of_mem _ List.mem_cons_self)) ?_
  rintro _ a ⟨ha, -, look₂⟩
  refine .gets ?_
  rw [ha.dev (List.mem_cons_of_mem _ List.mem_cons_self), if_neg (not_not.mpr rfl)]
  refine .call (dirlink_sat ha (by omega) (List.mem_cons_of_mem _ List.mem_cons_self)
    List.mem_cons_self dir.1 dir.2 (tree₁.named hx) (ha.nlink_entries tree₁ few hx) (by omega)
    alloc.2.1 (by omega) hfull) ?_
  rintro r b (⟨rfl, -, hb, look₃⟩ | ⟨rfl, new, z, same', lists, hb⟩)
  · refine .ite (fun _ => ?_) fun pos => absurd (by decide) pos
    refine .call (iunlockput_linked_sat (M := ip :: L) (hb.perm (List.Perm.swap ..)) tree₁ few
      (Nat.add_pos_left linked' _) fun jp hj => ⟨List.mem_cons_of_mem _ hj, sub₄ jp hj⟩) ?_
    rintro _ c ⟨hc, look₄⟩
    refine back c hc (look₁.trans (look₂.trans ((look₃.mono fun jp hj => ?_).trans look₄)))
    exact List.mem_cons_of_mem _ hj
  · refine .ite (fun neg => absurd neg (by decide)) fun _ => ?_
    have tree₂ := tree₁.link hx same' lists new (by rw [types]; exact alloc.2.2) (by rwa [types])
    have counts := links_linkIn (j := i) (key name') tree₁ hx
    have more : ∀ j, 0 < T.links j → 0 < (linkIn T d i x (key name')).links j := fun j hj =>
      Nat.lt_of_lt_of_le hj ((Nat.le_add_right ..).trans (counts j).symm.le)
    have types' : ∀ j, (Function.update N₁ d z j).type = (N j).type := by
      intro j
      by_cases hj : j = d
      · rw [hj, Function.update_self, same'.type, types]
      · rw [Function.update_of_ne hj, types]
    refine .call (iunlockput_linked_sat (M := ip :: L) (hb.perm (List.Perm.swap ..)) tree₂
      (by decide) (Nat.add_pos_left (more d linked') _)
      fun jp hj => ⟨List.mem_cons_of_mem _ hj, sub₄ jp hj⟩) ?_
    rintro _ c ⟨hc, -⟩
    refine .call (iput_linked_sat (M := L) hc tree₂ (by decide) (Nat.add_pos_left (more i linked) _)
      fun jp hj => ⟨List.mem_cons_of_mem _ hj, sub₃ jp hj⟩) ?_
    rintro _ e ⟨he, -⟩
    refine .pure ⟨_, _, _, strays', ⟨tree₂, fun j hj => ?_⟩, fun x _ => types' x.2,
      he.mono (by omega), Or.inr rfl⟩
    rw [types'] at hj
    exact (world.live j hj).imp_left (more j)

/-- `isdirempty` of a directory: whether all slots but the first two are free. -/
theorem isdirempty_sat {o : ℤ} {e₀ e₁ : DirSlot} {es : List DirSlot} (h : Fsys o k N R L s)
    (hi : (ip, i) ∈ R) (hL : ip ∈ L) (lists : (N i).Lists (e₀ :: e₁ :: es)) :
    Comp.Sat (isdirempty ip) s (Limit cap full) fun r s' => Fsys o k N R L s' ∧ Looked L s s' ∧
      (r = true ↔ ∀ e ∈ es, e = none) := by
  have length : (e₀ :: e₁ :: es).length - 2 = es.length := rfl
  unfold isdirempty
  refine .gets ?_
  rw [h.size hi hL, lists.slots_eq, length]
  refine .call (Comp.Sat.firstSome (P := fun r s' => Fsys o k N R L s' ∧ Looked L s s' ∧
    (r = none ↔ ∀ e ∈ es, e = none)) (fun xs t => ∃ m c, xs = List.range' (2 + m) c ∧
      m + c = es.length ∧ Fsys o k N R L t ∧ Looked L s t ∧ ∀ e ∈ es.take m, e = none) ?_ ?_ ?_) ?_
  · exact ⟨0, es.length, rfl, Nat.zero_add _, h, .refl L s, nofun⟩
  · rintro m rest t ⟨m', _ | c, range, len, ht, look, free⟩
    · cases range
    rw [List.range'_succ] at range
    obtain ⟨rfl, rfl⟩ := List.cons.inj range
    have hm : m' < es.length := by omega
    have hm' : 2 + m' < (e₀ :: e₁ :: es).length := by
      rw [List.length_cons, List.length_cons]
      omega
    have get : (e₀ :: e₁ :: es)[2 + m'] = es[m'] := by
      simp only [Nat.add_comm 2 m', List.getElem_cons_succ]
    unfold isdiremptyAt
    refine .call (readDirent_sat ht hi hL lists hm' _) ?_
    rintro de u ⟨hu, slot, look'⟩
    rw [get] at slot
    unfold slotOf at slot
    refine .ite (fun used => .pure ⟨hu, look.trans look', nofun, fun all => ?_⟩) fun zero =>
      .pure ⟨m' + 1, c, rfl, by omega, hu, look.trans look', fun e he => ?_⟩
    · rw [if_neg used, all _ (List.getElem_mem hm)] at slot
      cases slot
    · rw [not_not] at zero
      rw [if_pos zero] at slot
      rw [List.take_succ_eq_append_getElem hm, List.mem_append, List.mem_singleton] at he
      rcases he with he | rfl
      · exact free e he
      · exact slot.symm
  · rintro t ⟨m, _ | c, range, len, ht, look, free⟩
    · rw [Nat.add_zero] at len
      refine ⟨ht, look, fun _ => ?_, fun _ => rfl⟩
      rw [len, List.take_length] at free
      exact free
    · cases range
  · rintro r t ⟨ht, look, all⟩
    refine .pure ⟨ht, look, ?_⟩
    rw [Option.isNone_iff_eq_none]
    exact all

/-- The tree in which slot `m` of the directory `d` is free. -/
def unlinkIn (T : Dirs) (d m : ℕ) (x : Dir ℕ (List UInt8)) : Dirs :=
  Function.update T d (some ⟨x.parent, x.slots.set m none⟩)

section Unlink

variable {x : Dir ℕ (List UInt8)} {m : ℕ} {nm : List UInt8} {E : List ℕ}

theorem links_unlinkIn (tree : Tree E N T) (hd : T d = some x)
    (hm : x.slots[m]? = some (some (j, nm))) (i : ℕ) :
    (unlinkIn T d m x).links i + (if j = i then 1 else 0) = T.links i := by
  have links := T.links_update (tree.wf.support d (by rw [hd]; exact nofun))
    (some ⟨x.parent, x.slots.set m none⟩) i
  have uses := uses_set_none hm i
  rw [hd, DirTree.weight_some, DirTree.weight_some] at links
  unfold unlinkIn
  dsimp only at links uses
  omega

/-- An empty directory is taken out of the tree: the other links stay, but for the one to its
    parent. -/
theorem links_rmdir {z : Dir ℕ (List UInt8)} (tree : Tree E N T) (hd : T d = some x)
    (hm : x.slots[m]? = some (some (j, nm))) (hz : T j = some z) (empty : ∀ e ∈ z.slots, e = none)
    (hjd : j ≠ d) (i : ℕ) (hi : i ≠ j) (hid : i ≠ d) :
    Dirs.links (Function.update (unlinkIn T d m x) j none) i = T.links i := by
  have used : 0 < uses x.slots j := uses_pos.mpr ⟨nm, List.mem_of_getElem? hm⟩
  have parent := tree.wf.up d x j z hd used hz
  have none' : uses z.slots i = 0 := by
    by_contra hu
    obtain ⟨nm', mem⟩ := uses_pos.mp (Nat.pos_of_ne_zero hu)
    cases empty _ mem
  have here : unlinkIn T d m x j = some z := (Function.update_of_ne hjd ..).trans hz
  have first := links_unlinkIn tree hd hm i
  have second := Dirs.links_update (unlinkIn T d m x)
    (tree.wf.support j (by rw [hz]; exact nofun)) none i
  rw [if_neg (Ne.symm hi)] at first
  rw [here, DirTree.weight_none, DirTree.weight_some, none', parent, if_neg (Ne.symm hid)] at second
  omega

theorem slotOf_zero : slotOf (Bytes.zero : Bytes DIRENT_SIZE) = none :=
  if_pos (Bytes.num_zero ..)

/-- A slot that holds the inode `j` is the slot `ip`. -/
def Sole (s : Vol) (ip : Fin NINODE) (j : ℕ) : Prop :=
  ∀ jp, 0 < (s.inode jp).ref → (s.inode jp).inum = j → jp = ip

/-- What is left of the inode `j` in the slot `ip` when it has lost a name. -/
structure Unnamed (N N' : ℕ → Node) (R : List Ref) (ip : Fin NINODE) (j : ℕ) (s s' : Vol) : Prop where
  others : ∀ i, i ≠ j → (N' i).type = (N i).type
  kept : (N' j).type = 0 ∨ (N' j).type = (N j).type
  freed : (N' j).type = 0 → ip ∉ R.map Prod.fst ∧ ∀ b, Owns s ip b → ¬ InUse s' b

/-- The end of `sys_unlink`. -/
theorem unlinkEntry_sat (h : Fsys 1 0 N ((ip, j) :: (dp, d) :: R) (ip :: dp :: L) s)
    (world : World N T R L) (hd : T d = some x) (hm : x.slots[m]? = some (some (j, nm)))
    (empty : ∀ z, T j = some z → ∀ e ∈ z.slots, e = none) (sub : ∀ jp ∈ L, jp ∈ R.map Prod.fst)
    (held : ∀ y ∈ R, y.1 ∈ L ∨ y.2 = ROOTINO) :
    Comp.Sat (unlinkEntry dp ip (DIRENT_SIZE * (m + 2))) s (Limit cap full) fun _ s' =>
      ∃ N' T', World N' T' R L ∧ Unnamed N N' R ip j s s' ∧ Fsys 1 3 N' R L s' := by
  have tree := world.tree
  have memD : (dp, d) ∈ (ip, j) :: (dp, d) :: R := List.mem_cons_of_mem _ List.mem_cons_self
  have slotD : dp ∈ ip :: dp :: L := List.mem_cons_of_mem _ List.mem_cons_self
  have allocJ := h.alloc List.mem_cons_self
  have allocD := h.alloc memD
  have mem := List.mem_of_getElem? hm
  have entry := tree.entry d x j nm hd mem
  have dir := tree.dir d x hd
  have bound : m + 2 < (entries d x).length :=
    Nat.succ_lt_succ (Nat.succ_lt_succ (List.getElem?_eq_some_iff.mp hm).1)
  have hjd : j ≠ d := by
    rintro rfl
    cases empty x hd _ mem
  have hslots : ip ≠ dp := by
    rintro rfl
    exact hjd (h.inum_eq List.mem_cons_self memD)
  unfold unlinkEntry
  refine .modify ?_
  have h' : Fsys 1 0 N ((ip, j) :: (dp, d) :: R) (ip :: dp :: L) { s with de := Bytes.zero } := by
    obtain ⟨V, D, l, at', nodes, fits⟩ := h.shows
    exact ⟨⟨V, D, l, ⟨at'.blk.congr rfl rfl, at'.ok⟩, nodes, fits⟩, h.refs⟩
  refine .call (writeDirent_sat h' (by omega) memD slotD dir.2 (Nat.le_of_lt bound) slotOf_zero
    (Or.inr bound)) ?_
  rintro r t ⟨done, big, owns₁⟩
  have ok : r = DIRENT_SIZE := by
    by_contra bad
    exact absurd (big bad).1 (Nat.ne_of_lt bound)
  obtain ⟨y, same, lists, ht⟩ := done ok
  rw [if_pos bound] at lists
  have owns₁ : ∀ b, Owns t ip b ↔ Owns s ip b := owns₁ ip List.mem_cons_self hslots
  refine .ite (fun bad => absurd ok bad) fun _ => .gets ?_
  rw [ht.type List.mem_cons_self List.mem_cons_self, Function.update_of_ne hjd]
  -- a directory gives up its link to the one above
  refine .call (P := fun _ u => ∃ N₂ T', Tree [j] N₂ T' ∧ (∀ i, (N₂ i).type = (N i).type) ∧
    (∀ i, i ≠ j → 0 < T.links i → 0 < T'.links i) ∧ (∀ b, Owns u ip b ↔ Owns s ip b) ∧
      Fsys 1 3 N₂ ((ip, j) :: (dp, d) :: R) (ip :: dp :: L) u) ?_ ?_
  · have types : ∀ i, (Function.update N d y i).type = (N i).type := by
      intro i
      by_cases hi : i = d
      · rw [hi, Function.update_self, same.type]
      · rw [Function.update_of_ne hi]
    refine .ite (fun isDir => ?_) fun isFile => ?_
    · obtain ⟨z, hz⟩ := Option.ne_none_iff_exists'.mp (entry.2 isDir)
      have tree₁ := tree.rmdir hd same lists hm hz (empty z hz)
      refine (addLink_sat ht (by omega) memD slotD).post ?_
      rintro _ u ⟨⟨y', same', nlink', hu⟩, -, owns₂⟩
      have tree₂ := tree₁.uncount same' (by rw [types]; exact allocD.2.2)
        (nlink'.trans (BitVec.add_neg_eq_sub ..))
      refine ⟨_, _, tree₂, fun i => ?_, fun i hij hi => ?_, fun b => ?_, hu⟩
      · by_cases hid : i = d
        · rw [hid, Function.update_self, same'.type, types]
        · rw [Function.update_of_ne hid, types]
      · by_cases hid : i = d
        · rw [hid]
          refine tree₂.wf.links_pos ?_
          rw [Function.update_of_ne (Ne.symm hjd), Function.update_self]
          exact nofun
        · have same := links_rmdir tree hd hm hz (empty z hz) hjd i hij hid
          unfold unlinkIn at same
          rwa [same]
      · exact (owns₂ ip List.mem_cons_self b).trans (owns₁ b)
    · have tree₁ := tree.unlink hd same lists hm isFile
      refine .pure ⟨_, _, tree₁, types, fun i hij hi => ?_, owns₁, ht⟩
      have one := links_unlinkIn tree hd hm i
      rw [if_neg (Ne.symm hij), Nat.add_zero] at one
      unfold unlinkIn at one
      rwa [one]
  rintro _ u ⟨N₂, T', tree₂, types, links, owns₂, hu⟩
  have linkedD := links d (Ne.symm hjd) (tree.wf.links_pos (by rw [hd]; exact nofun))
  have sub' : ∀ jp ∈ ip :: L, jp ∈ ((ip, j) :: R).map Prod.fst := by
    intro jp hj
    rcases List.mem_cons.mp hj with rfl | hj
    · exact List.mem_cons_self
    · exact List.mem_cons_of_mem _ (sub jp hj)
  refine .call (iunlockput_linked_sat (M := ip :: L) (hu.perm (List.Perm.swap ..)) tree₂
    (Nat.le_add_left 1 2) (Nat.add_pos_left linkedD _) fun jp hj => ⟨?_, sub' jp hj⟩) ?_
  · rcases List.mem_cons.mp hj with rfl | hj
    · exact List.mem_cons_self
    · exact List.mem_cons_of_mem _ (List.mem_cons_of_mem _ hj)
  rintro _ v ⟨hv, look⟩
  refine .call (addLink_sat hv (by omega) List.mem_cons_self List.mem_cons_self) ?_
  rintro _ w ⟨⟨y', same', nlink', hw⟩, -, owns₃⟩
  have tree₃ := tree₂.uncount same' (by rw [types]; exact allocJ.2.2)
    (nlink'.trans (BitVec.add_neg_eq_sub ..))
  have types₃ : ∀ i, (Function.update N₂ j y' i).type = (N i).type := by
    intro i
    by_cases hi : i = j
    · rw [hi, Function.update_self, same'.type, types]
    · rw [Function.update_of_ne hi, types]
  have owns : ∀ b, Owns w ip b ↔ Owns s ip b := fun b =>
    ((owns₃ ip List.mem_cons_self b).trans (look.owns ip List.mem_cons_self b)).trans (owns₂ b)
  have world₃ : World (Function.update N₂ j y') T' ((ip, j) :: R) (ip :: L) := by
    refine ⟨tree₃, fun i hi => ?_⟩
    by_cases hij : i = j
    · exact Or.inr ⟨ip, List.mem_cons_self, hij ▸ List.mem_cons_self⟩
    rw [types₃] at hi
    rcases world.live i hi with linked | ⟨jp, hL, hR⟩
    · exact Or.inl (links i hij linked)
    · exact Or.inr ⟨jp, List.mem_cons_of_mem _ hL, List.mem_cons_of_mem _ hR⟩
  unfold iunlockput
  refine .call (iunlock_sat hw List.mem_cons_self) ?_
  rintro _ w' rfl
  refine (iput_sat hw (by omega) tree₃ sub).post ?_
  rintro _ z ⟨N', hz, tree', drop⟩
  refine ⟨N', T', world₃.dropped tree' held drop, ?_, hz⟩
  rcases drop with ⟨rfl, -⟩ | ⟨rfl, -, last, bits⟩
  · refine ⟨fun i _ => types₃ i, Or.inr (types₃ j), fun h0 => ?_⟩
    rw [types₃] at h0
    exact absurd h0 allocJ.2.2
  · refine ⟨fun i hi => ?_, Or.inl ?_, fun _ => ⟨last, fun b hb hu => ?_⟩⟩
    · rw [Function.update_of_ne hi, types₃]
    · rw [Function.update_self]
      rfl
    · exact ((bits b).mp hu).2 ((owns b).mpr hb)

/-- The panics of a call, with that of `sys_unlink` for a link count that is no positive `short`. -/
def Fails (cap : ℕ) (full many : Prop) (w : String) (s : Vol) : Prop :=
  Limit cap full w s ∨ w = "unlink: nlink < 1" ∧ many

theorem fails_of_limit {many : Prop} {α : Type} {m : Comp Vol α} {P : α → Vol → Prop}
    (h : Comp.Sat m s (Limit cap full) P) : Comp.Sat m s (Fails cap full many) P :=
  h.imp (fun _ _ => Or.inl) fun _ _ hp => hp

/-- The link count of an inode with fewer than `2 ^ 15` links is positive. -/
theorem nlink_pos (tree : Tree [] N T) (linked : 0 < T.links j) (small : T.links j < 2 ^ 15) :
    ¬ (N j).nlink.toInt < 1 := by
  have toNat : (BitVec.ofNat 16 (T.links j)).toNat = T.links j := by
    rw [BitVec.toNat_ofNat, Nat.mod_eq_of_lt (by omega)]
  rw [tree.nlink j (tree.links_cases linked).1, List.count_nil, Nat.add_zero,
    BitVec.toInt_eq_toNat_of_lt (by omega), toNat]
  omega

theorem unlink_sat (h : Fsys 1 0 N R L s) (world : World N T R L)
    (sub : ∀ jp ∈ L, jp ∈ R.map Prod.fst) (held : ∀ y ∈ R, y.1 ∈ L ∨ y.2 = ROOTINO)
    (hcap : used R + 3 ≤ cap) :
    Comp.Sat (unlink path) s (Fails cap full (∃ j, 2 ^ 15 ≤ T.links j)) fun r s' =>
      ∃ Q, Strays [path] Q ∧ (r = -1 ∧ Fsys 1 0 N (Q ++ R) L s' ∧ Looked L s s' ∨
        r = 0 ∧ ∃ N' T' ip j t, World N' T' (Q ++ R) L ∧ Fsys 1 3 N' (Q ++ R) L s' ∧ Looked L s t ∧
          Loaded t ip ∧ (t.inode ip).inum = j ∧ 0 < T.links j ∧ Sole s ip j ∧
            Unnamed N N' (Q ++ R) ip j t s') := by
  have tree := world.tree
  unfold unlink
  refine .call (fails_of_limit (namex_sat tree (by decide) sub (by omega) h)) ?_
  rintro (_ | ⟨dp, name⟩) t ⟨look₁, rp, ht⟩
  · exact .pure ⟨_, leak_strays rp path, Or.inl ⟨rfl, ht.2, look₁⟩⟩
  obtain ⟨d, found, linked, ht⟩ := ht
  obtain ⟨x, hx⟩ := walk_parent found
  obtain ⟨Q, hQ⟩ : ∃ Q, Q = leak rp path := ⟨_, rfl⟩
  have strays : Strays [path] Q := hQ ▸ leak_strays rp path
  have short : Q.length ≤ 1 := hQ ▸ leak_length_le rp path
  rw [← hQ] at ht
  have room := used_append_le Q R
  have room' := used_cons_le (dp, d) (Q ++ R)
  have sub' : ∀ jp ∈ L, jp ∈ (Q ++ R).map Prod.fst := fun jp hj => by
    rw [List.map_append]
    exact List.mem_append_right _ (sub jp hj)
  have tail : ∀ jp ∈ L, jp ∈ dp :: L := fun jp hj => List.mem_cons_of_mem _ hj
  have dir := tree.dir d x hx
  have linked' : 0 < T.links d + [].count d := Nat.add_pos_left linked _
  refine .call (fails_of_limit (ilock_sat ht List.mem_cons_self)) ?_
  rintro _ u ⟨hu, -, look₂⟩
  -- every failure puts the directory back
  have back : ∀ v, Fsys 1 0 N ((dp, d) :: (Q ++ R)) (dp :: L) v → Looked L s v →
      Comp.Sat (iunlockput dp >>= fun _ => pure (-1 : ℤ)) v
        (Fails cap full (∃ j, 2 ^ 15 ≤ T.links j)) fun r s' =>
          ∃ Q, Strays [path] Q ∧ (r = -1 ∧ Fsys 1 0 N (Q ++ R) L s' ∧ Looked L s s' ∨
            r = 0 ∧ ∃ N' T' ip j t, World N' T' (Q ++ R) L ∧ Fsys 1 3 N' (Q ++ R) L s' ∧
              Looked L s t ∧ Loaded t ip ∧ (t.inode ip).inum = j ∧ 0 < T.links j ∧ Sole s ip j ∧
                Unnamed N N' (Q ++ R) ip j t s') := by
    intro v hv look
    refine .call (fails_of_limit (iunlockput_linked_sat (M := L) hv tree (by decide) linked'
      fun jp hj => ⟨tail jp hj, sub' jp hj⟩)) ?_
    rintro _ w ⟨hw, look'⟩
    exact .pure ⟨Q, strays, Or.inl ⟨rfl, hw, look.trans look'⟩⟩
  refine .ite (fun _ => back u hu (look₁.trans look₂)) fun other => ?_
  rw [strncmp_eq_zero_iff, strncmp_eq_zero_iff, not_or] at other
  refine .call (fails_of_limit (dirlookup_sat hu List.mem_cons_self List.mem_cons_self dir.1 dir.2
    (tree.named hx) (by omega))) ?_
  rintro (_ | ⟨ip, off⟩) v hv
  · obtain ⟨-, hv, look₃⟩ := hv
    exact back v hv (look₁.trans (look₂.trans (look₃.mono tail)))
  obtain ⟨j, m, there, rfl, hv, look₃⟩ := hv
  have slot := lookup_some there
  have pos := tree.links_pos hx (List.mem_of_getElem? slot)
  obtain _ | _ | m := m
  · have same : DOT = cstr (nameOf name) DIRSIZ :=
      congrArg Prod.snd (Option.some.inj (Option.some.inj slot))
    exact absurd (same.symm.trans (by decide)) other.1
  · have same : DOTDOT = cstr (nameOf name) DIRSIZ :=
      congrArg Prod.snd (Option.some.inj (Option.some.inj slot))
    exact absurd (same.symm.trans (by decide)) other.2
  have slot : x.slots[m]? = some (some (j, key name)) := slot
  refine .call (fails_of_limit (ilock_sat hv List.mem_cons_self)) ?_
  rintro _ w ⟨hw, -, look₄⟩
  have look := look₁.trans (look₂.trans ((look₃.trans look₄).mono tail))
  refine .gets (.ite (fun low => .halt (Or.inr ⟨rfl, j, ?_⟩)) fun _ => ?_)
  · rw [hw.nlink List.mem_cons_self List.mem_cons_self] at low
    by_contra small
    exact nlink_pos tree pos (Nat.lt_of_not_le small) low
  rw [hw.type List.mem_cons_self List.mem_cons_self]
  have sub₂ : ∀ jp ∈ dp :: L, jp ∈ ((dp, d) :: (Q ++ R)).map Prod.fst := by
    intro jp hj
    rcases List.mem_cons.mp hj with rfl | hj
    · exact List.mem_cons_self
    · exact List.mem_cons_of_mem _ (sub' jp hj)
  refine .call (P := fun full' z => Fsys 1 0 N ((ip, j) :: (dp, d) :: (Q ++ R)) (ip :: dp :: L) z ∧
    Looked L s z ∧ (full' = false → ∀ z, T j = some z → ∀ e ∈ z.slots, e = none)) ?_ ?_
  · refine .ite (fun isDir => ?_) fun isFile => ?_
    · obtain ⟨z, hz⟩ := Option.ne_none_iff_exists'.mp ((tree.links_cases pos).2 isDir)
      refine .call (fails_of_limit (isdirempty_sat hw List.mem_cons_self List.mem_cons_self
        (tree.dir j z hz).2)) ?_
      rintro r y ⟨hy, look₅, all⟩
      refine .pure ⟨hy, look.trans (look₅.mono fun jp hj => List.mem_cons_of_mem _ (tail jp hj)),
        fun empty z' hz' => ?_⟩
      rw [hz] at hz'
      cases hz'
      exact all.mp (by simpa using empty)
    · refine .pure ⟨hw, look, fun _ z hz => ?_⟩
      rw [tree.file isFile] at hz
      cases hz
  rintro full' z ⟨hz, look', empty⟩
  refine .ite (fun _ => ?_) fun free => ?_
  · refine .call (fails_of_limit (iunlockput_linked_sat (M := dp :: L) hz tree (by decide)
      (Nat.add_pos_left pos _) fun jp hj => ⟨List.mem_cons_of_mem _ hj, sub₂ jp hj⟩)) ?_
    rintro _ y ⟨hy, look₅⟩
    exact back y hy (look'.trans (look₅.mono tail))
  · have world' : World N T (Q ++ R) L := world.mono (fun y hy => List.mem_append_right _ hy)
      fun _ hj => hj
    have loaded := hz.isLoaded List.mem_cons_self
    have inum := hz.inum List.mem_cons_self
    have sole : Sole s ip j := by
      intro jp live same
      have old := h.refs.mem live
      rw [same] at old
      exact hz.slot_eq (List.mem_cons_of_mem _ (List.mem_cons_of_mem _ (List.mem_append_right Q old)))
        List.mem_cons_self
    refine .call (fails_of_limit (unlinkEntry_sat hz world' hx slot
      (empty (by simpa using free)) sub' fun y hy => ?_)) ?_
    · exact (List.mem_append.mp hy).elim (fun hy => Or.inr (strays.root y hy)) (held y)
    rintro _ y ⟨N', T', world'', unnamed, hy⟩
    exact .pure ⟨Q, strays, Or.inr ⟨rfl, N', T', ip, j, z, world'', hy, look', loaded, inum, pos, sole,
      unnamed⟩⟩

end Unlink

end EasyXv6.Fs.Vol
