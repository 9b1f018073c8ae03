import EasyXv6.Fs.Image

set_option autoImplicit false

/-!
# Inodes as files

A node is what a user can see of an inode: its fields and its contents. `Cached` ties the inodes
that the kernel goes by to the inode cache and to the disk.
-/
namespace EasyXv6.Fs
open Lib

@[ext] structure Node where
  type : BitVec 16
  major : BitVec 16
  minor : BitVec 16
  nlink : BitVec 16
  size : ℕ
  byte : ℕ → Option UInt8

def Node.free : Node := ⟨0, 0, 0, 0, 0, fun _ => none⟩

/-- The node of a new inode. -/
def Node.fresh (type : BitVec 16) : Node := { Node.free with type := type }

/-- The node without contents. -/
def Node.empty (x : Node) : Node := { x with size := 0, byte := fun _ => none }

def Image.node (V : Image) (d : Dinode) : Node :=
  ⟨d.type, d.major, d.minor, d.nlink, d.size.toNat, V.byteAt d⟩

/-- The node of every inode number. -/
def nodes (V : Image) (D : ℕ → Dinode) (i : ℕ) : Node :=
  if Alloc D i then V.node (D i) else .free

/-- Two inodes that may only differ in their pointers. -/
structure SameFields (e d : Dinode) : Prop where
  type : e.type = d.type
  major : e.major = d.major
  minor : e.minor = d.minor
  nlink : e.nlink = d.nlink
  size : e.size = d.size

theorem SameFields.refl (d : Dinode) : SameFields d d := ⟨rfl, rfl, rfl, rfl, rfl⟩

/-- How the cached copy `d` of an inode may differ from the copy `e` on the disk: in blocks past
    its end. -/
structure Synced (e d : Dinode) : Prop where
  fields : SameFields e d
  addr : ∀ k ≤ NDIRECT, e.addr k = d.addr k ∨ e.addr k = 0 ∧ d.size.toNat ≤ k * BSIZE

theorem Synced.refl (d : Dinode) : Synced d d := ⟨.refl d, fun _ _ => Or.inl rfl⟩

structure Cached (V : Image) (D : ℕ → Dinode) (ic : Fin NINODE → Inode) : Prop where
  nonneg : ∀ ip, 0 ≤ (ic ip).ref
  dev : ∀ ip, 0 < (ic ip).ref → (ic ip).dev = ROOTDEV
  alloc : ∀ ip, 0 < (ic ip).ref → Alloc D (ic ip).inum
  unique : ∀ ip jp, 0 < (ic ip).ref → 0 < (ic jp).ref → (ic ip).inum = (ic jp).inum → ip = jp
  loaded : ∀ ip, 0 < (ic ip).ref → (ic ip).valid = true → D (ic ip).inum = (ic ip).d
  stored : ∀ i < NINODES, (∀ ip, 0 < (ic ip).ref → (ic ip).valid = true → (ic ip).inum ≠ i) →
    D i = V.dino i
  synced : ∀ i < NINODES, Synced (V.dino i) (D i)

/-- The state of the file system between two operations on its inodes. -/
structure Ok (V : Image) (D : ℕ → Dinode) (ic : Fin NINODE → Inode) : Prop where
  laid : Laid V D
  cached : Cached V D ic

section Node

variable {V V' : Image} {D D' : ℕ → Dinode} {d d' : Dinode} {i j : ℕ}

theorem nodes_of_alloc (h : Alloc D i) : nodes V D i = V.node (D i) := if_pos h

theorem nodes_of_free (h : ¬ Alloc D i) : nodes V D i = .free := if_neg h

theorem alloc_congr (h : (D' i).type = (D i).type) : Alloc D' i ↔ Alloc D i := by
  unfold Alloc
  rw [h]

theorem nodes_of_eq (h : D' i = D i) : nodes V D' i = nodes V D i := by
  have alloc : Alloc D' i ↔ Alloc D i := alloc_congr (by rw [h])
  by_cases hi : Alloc D i
  · rw [nodes_of_alloc hi, nodes_of_alloc (alloc.mpr hi), h]
  · rw [nodes_of_free hi, nodes_of_free (mt alloc.mp hi)]

/-- The node has a type exactly when the inode is in use. -/
theorem nodes_type_ne (h : (nodes V D i).type ≠ 0) : Alloc D i := by
  by_contra hn
  rw [nodes_of_free hn] at h
  exact h rfl

theorem Alloc.type_ne (h : Alloc D i) : (nodes V D i).type ≠ 0 := by
  rw [nodes_of_alloc h]
  exact h.2.2

theorem node_fresh (V : Image) (type : BitVec 16) : V.node (.fresh type) = .fresh type := by
  refine Node.ext rfl rfl rfl rfl rfl (funext fun n => ?_)
  change V.byteAt (.fresh type) n = none
  rw [Image.byteAt]
  exact if_neg (Nat.not_lt_zero n)

theorem byteAt_congr (size : d'.size = d.size)
    (refs : ∀ n, n * BSIZE < d.size.toNat → V'.ref d' (Image.dataRef n) = V.ref d (Image.dataRef n))
    (same : ∀ n, n * BSIZE < d.size.toNat →
      V' (V.ref d (Image.dataRef n)) = V (V.ref d (Image.dataRef n))) : V'.byteAt d' = V.byteAt d := by
  funext n
  unfold Image.byteAt Image.rawByte
  rw [size]
  split
  next hn =>
    have hb : n / BSIZE * BSIZE < d.size.toNat := Nat.lt_of_le_of_lt (Nat.div_mul_le_self _ _) hn
    rw [refs _ hb, same _ hb]
  next => rfl

/-- Nothing of a node is in the blocks past its end. -/
theorem node_congr (h : SameFields d' d)
    (refs : ∀ n, n * BSIZE < d.size.toNat → V'.ref d' (Image.dataRef n) = V.ref d (Image.dataRef n))
    (same : ∀ n, n * BSIZE < d.size.toNat →
      V' (V.ref d (Image.dataRef n)) = V (V.ref d (Image.dataRef n))) : V'.node d' = V.node d := by
  unfold Image.node
  rw [h.type, h.major, h.minor, h.nlink, h.size, byteAt_congr h.size refs same]

/-- Synced copies name the same blocks up to the end. -/
theorem Synced.dataRef (h : Synced d' d) {n : ℕ} (hn : n * BSIZE < d.size.toNat) :
    V.ref d' (Image.dataRef n) = V.ref d (Image.dataRef n) := by
  have same : ∀ k ≤ NDIRECT, k ≤ n → d'.addr k = d.addr k := by
    intro k hk hkn
    rcases h.addr k hk with h | ⟨-, h⟩
    · exact h
    · have : k * BSIZE ≤ n * BSIZE := Nat.mul_le_mul_right _ hkn
      omega
  unfold Image.dataRef
  split
  next hd =>
    rw [Image.ref_direct (Nat.le_of_lt hd), Image.ref_direct (Nat.le_of_lt hd),
      same n (Nat.le_of_lt hd) (Nat.le_refl _)]
  next hd =>
    have hk : ¬ n + 1 ≤ NDIRECT := by omega
    unfold Image.ref
    rw [if_neg hk, if_neg hk, same NDIRECT (Nat.le_refl _) (by omega)]

theorem Synced.node (h : Synced d' d) : V.node d' = V.node d :=
  node_congr h.fields (fun _ hn => h.dataRef hn) fun _ _ => rfl

end Node

section Slots

variable {V V' : Image} {D D' : ℕ → Dinode} {ic ic' : Fin NINODE → Inode} {ip : Fin NINODE}
  {x : Inode}

/-- No other slot has the inode of a live one. -/
theorem Cached.inum_ne (h : Cached V D ic) {jp : Fin NINODE} (hi : 0 < (ic ip).ref)
    (hj : 0 < (ic jp).ref) (hne : jp ≠ ip) : (ic jp).inum ≠ (ic ip).inum :=
  fun he => hne (h.unique jp ip hj hi he)

theorem Cached.lt (h : Cached V D ic) (hi : 0 < (ic ip).ref) : (ic ip).inum < NINODES :=
  (h.alloc ip hi).2.1

/-- The inodes on the disk stay. -/
theorem Cached.of_dino (h : Cached V D ic) (dino : ∀ i < NINODES, V'.dino i = V.dino i) :
    Cached V' D ic where
  nonneg := h.nonneg
  dev := h.dev
  alloc := h.alloc
  unique := h.unique
  loaded := h.loaded
  stored := fun i hi hn => by
    rw [dino i hi]
    exact h.stored i hi hn
  synced := fun i hi => by
    rw [dino i hi]
    exact h.synced i hi

/-- The slot `ip`, which has the inode `i` or none, changes to `x`, and with it perhaps the
    inode. -/
theorem Cached.update (h : Cached V D ic) {i : ℕ} (hi : i < NINODES)
    (others : ∀ j, j ≠ i → D' j = D j)
    (dino : ∀ j < NINODES, j ≠ i → V'.dino j = V.dino j)
    (mine : 0 < (ic ip).ref → (ic ip).inum = i)
    (sole : ∀ jp, jp ≠ ip → 0 < (ic jp).ref → (ic jp).inum ≠ i) (nonneg : 0 ≤ x.ref)
    (live : 0 < x.ref → x.dev = ROOTDEV ∧ x.inum = i ∧ Alloc D' i ∧ (x.valid = true → D' i = x.d))
    (stored : ¬ (0 < x.ref ∧ x.valid = true) → D' i = V'.dino i)
    (synced : Synced (V'.dino i) (D' i)) : Cached V' D' (Function.update ic ip x) where
  nonneg := fun jp => by
    by_cases hj : jp = ip
    · subst hj
      rwa [Function.update_self]
    · rw [Function.update_of_ne hj]
      exact h.nonneg jp
  dev := fun jp hr => by
    by_cases hj : jp = ip
    · subst hj
      rw [Function.update_self] at hr ⊢
      exact (live hr).1
    · rw [Function.update_of_ne hj] at hr ⊢
      exact h.dev jp hr
  alloc := fun jp hr => by
    by_cases hj : jp = ip
    · subst hj
      rw [Function.update_self] at hr ⊢
      rw [(live hr).2.1]
      exact (live hr).2.2.1
    · rw [Function.update_of_ne hj] at hr ⊢
      refine (alloc_congr ?_).mpr (h.alloc jp hr)
      rw [others _ (sole jp hj hr)]
  unique := fun jp kp hj hk he => by
    by_cases ej : jp = ip <;> by_cases ek : kp = ip
    · rw [ej, ek]
    · subst ej
      rw [Function.update_self] at hj he
      rw [Function.update_of_ne ek] at hk he
      exact absurd (he.symm.trans (live hj).2.1) (sole kp ek hk)
    · subst ek
      rw [Function.update_self] at hk he
      rw [Function.update_of_ne ej] at hj he
      exact absurd (he.trans (live hk).2.1) (sole jp ej hj)
    · rw [Function.update_of_ne ej] at hj he
      rw [Function.update_of_ne ek] at hk he
      exact h.unique jp kp hj hk he
  loaded := fun jp hr hv => by
    by_cases hj : jp = ip
    · subst hj
      rw [Function.update_self] at hr hv ⊢
      rw [(live hr).2.1]
      exact (live hr).2.2.2 hv
    · rw [Function.update_of_ne hj] at hr hv ⊢
      rw [others _ (sole jp hj hr)]
      exact h.loaded jp hr hv
  stored := fun j hlt hn => by
    by_cases hj : j = i
    · subst hj
      refine stored fun hx => hn ip ?_ ?_ ?_
      all_goals rw [Function.update_self]
      · exact hx.1
      · exact hx.2
      · exact (live hx.1).2.1
    · rw [others j hj, dino j hlt hj]
      refine h.stored j hlt fun kp hk hv he => ?_
      have hne : kp ≠ ip := by
        rintro rfl
        exact hj (he.symm.trans (mine hk))
      refine hn kp ?_ ?_ ?_
      all_goals rwa [Function.update_of_ne hne]
  synced := fun j hlt => by
    by_cases hj : j = i
    · subst hj
      exact synced
    · rw [others j hj, dino j hlt hj]
      exact h.synced j hlt

end Slots

end EasyXv6.Fs
