import EasyXv6.Fs.Held

set_option autoImplicit false

/-!
# What the blocks of a file system hold

The bitmap, the inodes and the blocks that they name, read out of an image. `D i` is the inode `i`
as the kernel goes by: its cached copy or else the one on the disk.
-/
namespace EasyXv6.Fs
open Lib

/-- The pointers of an inode: the direct ones, the indirect block and its entries. -/
abbrev NREF : ℕ := NDIRECT + 1 + NINDIRECT

/-- The bitmap block and the first block of inodes of the layout that `fs_init` chooses. -/
abbrev BITMAP : ℕ := 45
abbrev INODES : ℕ := 32
abbrev NINODES : ℕ := 200

namespace Image

def block (V : Image) (c : ℕ) : Block := (V c).getD Block.zero

def bit (V : Image) (b : ℕ) : Bool := (V.block BITMAP).bit b

def dino (V : Image) (i : ℕ) : Dinode := (V.block (INODES + i / IPB)).dinode (i % IPB)

/-- Pointer `k` of the inode `d`, 0 if there is none. -/
def ref (V : Image) (d : Dinode) (k : ℕ) : ℕ :=
  if k ≤ NDIRECT then d.addr k
  else if d.addr NDIRECT = 0 then 0
  else (V.block (d.addr NDIRECT)).entry (k - (NDIRECT + 1))

/-- The pointer to block `n` of the contents. -/
def dataRef (n : ℕ) : ℕ := if n < NDIRECT then n else n + 1

/-- Byte `n` of the blocks of an inode, if it is certain. -/
def rawByte (V : Image) (d : Dinode) (n : ℕ) : Option UInt8 :=
  (V (V.ref d (dataRef (n / BSIZE)))).map (·.byte (n % BSIZE))

/-- Byte `n` of the contents. -/
def byteAt (V : Image) (d : Dinode) (n : ℕ) : Option UInt8 :=
  if n < d.size.toNat then V.rawByte d n else none

theorem byteAt_some {V : Image} {d : Dinode} {n : ℕ} {a : UInt8} (h : V.byteAt d n = some a) :
    n < d.size.toNat ∧ V.rawByte d n = some a := by
  unfold byteAt at h
  split at h
  next hn => exact ⟨hn, h⟩
  next => cases h

section Decode

variable {V : Image} {b c i j k : ℕ} {d : Dinode} {x : Option Block} {e : Block}

theorem block_of (h : V c = some e) : V.block c = e := by rw [block, h, Option.getD_some]

theorem block_update_of_ne (h : c ≠ b) : Image.block (Function.update V b x) c = V.block c := by
  rw [block, Function.update_of_ne h, block]

@[simp] theorem block_update_self : Image.block (Function.update V b (some e)) b = e := by
  rw [block, Function.update_self, Option.getD_some]

theorem bit_update_of_ne (h : b ≠ BITMAP) (c : ℕ) :
    Image.bit (Function.update V b x) c = V.bit c := by
  rw [bit, block_update_of_ne h.symm, bit]

theorem bit_setBit (hb : b < BPB) (c : ℕ) :
    Image.bit (Function.update V BITMAP (some ((V.block BITMAP).setBit b))) c =
      if c = b then true else V.bit c := by
  rw [bit, block_update_self, Block.bit_setBit hb, bit]

theorem bit_clearBit (hb : b < BPB) (c : ℕ) :
    Image.bit (Function.update V BITMAP (some ((V.block BITMAP).clearBit b))) c =
      if c = b then false else V.bit c := by
  rw [bit, block_update_self, Block.bit_clearBit hb, bit]

/-- The blocks of inodes. -/
theorem inodeBlock_le (hi : i < NINODES) : INODES + i / IPB < BITMAP := by
  simp only [INODES, IPB, BITMAP, NINODES, BSIZE, DINODE_SIZE] at *
  omega

theorem dino_update_of_ne (h : b ≠ INODES + i / IPB) :
    Image.dino (Function.update V b x) i = V.dino i := by
  rw [dino, block_update_of_ne h.symm, dino]

theorem dino_update_of_le (hb : BITMAP ≤ b) (hi : i < NINODES) :
    Image.dino (Function.update V b x) i = V.dino i :=
  dino_update_of_ne (by have := inodeBlock_le hi; omega)

theorem dino_putDinode (j : ℕ) :
    Image.dino (Function.update V (INODES + i / IPB)
      (some ((V.block (INODES + i / IPB)).putDinode (i % IPB) d))) j =
        if j = i then d else V.dino j := by
  by_cases hb : j / IPB = i / IPB
  · rw [dino, hb, block_update_self]
    by_cases hj : j = i
    · subst hj
      rw [if_pos rfl, Block.dinode_putDinode_self (Nat.mod_lt _ (by decide))]
    · rw [if_neg hj, Block.dinode_putDinode_of_ne, dino, hb]
      intro hm
      apply hj
      rw [← Nat.div_add_mod j IPB, ← Nat.div_add_mod i IPB, hb, hm]
  · rw [dino_update_of_ne (by omega), if_neg]
    rintro rfl
    exact hb rfl

theorem dino_initDinode (type : BitVec 16) (j : ℕ) :
    Image.dino (Function.update V (INODES + i / IPB)
      (some ((V.block (INODES + i / IPB)).initDinode (i % IPB) type))) j =
        if j = i then .fresh type else V.dino j := by
  by_cases hb : j / IPB = i / IPB
  · rw [dino, hb, block_update_self]
    by_cases hj : j = i
    · subst hj
      rw [if_pos rfl, Block.dinode_initDinode_self (Nat.mod_lt _ (by decide))]
    · rw [if_neg hj, Block.dinode_initDinode_of_ne, dino, hb]
      intro hm
      apply hj
      rw [← Nat.div_add_mod j IPB, ← Nat.div_add_mod i IPB, hb, hm]
  · rw [dino_update_of_ne (by omega), if_neg]
    rintro rfl
    exact hb rfl

theorem ref_direct (hk : k ≤ NDIRECT) : V.ref d k = d.addr k := if_pos hk

theorem ref_entry (hk : NDIRECT < k) (hd : d.addr NDIRECT ≠ 0) :
    V.ref d k = (V.block (d.addr NDIRECT)).entry (k - (NDIRECT + 1)) := by
  rw [ref, if_neg (by omega), if_neg hd]

/-- Without an indirect block there are no entries. -/
theorem ref_entry_zero (hk : NDIRECT < k) (hd : d.addr NDIRECT = 0) : V.ref d k = 0 := by
  rw [ref, if_neg (by omega), if_pos hd]

theorem ref_update_of_ne (h : b ≠ d.addr NDIRECT) (k : ℕ) :
    Image.ref (Function.update V b x) d k = V.ref d k := by
  unfold ref
  rw [block_update_of_ne h.symm]

theorem ref_lt (V : Image) (d : Dinode) (k : ℕ) : V.ref d k < 2 ^ 32 := by
  unfold ref
  split
  · exact d.addr_lt k
  split
  · decide
  · exact Block.entry_lt ..

/-- Only the pointers of an inode matter to its references. -/
theorem ref_congr {d' : Dinode} (h : ∀ k ≤ NDIRECT, d'.addr k = d.addr k) (k : ℕ) :
    V.ref d' k = V.ref d k := by
  unfold ref
  split
  next hk => exact h k hk
  next => rw [h NDIRECT (Nat.le_refl _)]

theorem dataRef_lt {n : ℕ} (h : n < MAXFILE) : dataRef n < NREF := by
  unfold dataRef
  simp only [MAXFILE, NREF, NDIRECT, NINDIRECT, BSIZE] at *
  split <;> omega

theorem dataRef_ne (n : ℕ) : dataRef n ≠ NDIRECT := by
  unfold dataRef
  split <;> omega

theorem dataRef_inj {m n : ℕ} (h : dataRef m = dataRef n) : m = n := by
  unfold dataRef at h
  split at h <;> split at h <;> omega

end Decode

end Image

/-- The inode is one of the file system and in use. -/
def Alloc (D : ℕ → Dinode) (i : ℕ) : Prop := 1 ≤ i ∧ i < NINODES ∧ (D i).type ≠ 0

/-- The layout of a file system: its blocks are in use, each pointer has a block of its own and no
    file has holes. -/
structure Laid (V : Image) (D : ℕ → Dinode) : Prop where
  known : ∀ c, V c = none → BITMAP < c
  low : ∀ b ≤ BITMAP, V.bit b = true
  type : ∀ i, Alloc D i → (D i).type = T_DIR ∨ (D i).type = T_FILE
  size : ∀ i, Alloc D i → (D i).size.toNat ≤ MAXFILE * BSIZE
  own : ∀ i, Alloc D i → ∀ k < NREF, V.ref (D i) k ≠ 0 →
    BITMAP < V.ref (D i) k ∧ V.ref (D i) k < FSSIZE ∧ V.bit (V.ref (D i) k) = true
  inj : ∀ i j, Alloc D i → Alloc D j → ∀ k < NREF, ∀ m < NREF, V.ref (D i) k ≠ 0 →
    V.ref (D i) k = V.ref (D j) m → i = j ∧ k = m
  full : ∀ i, Alloc D i → ∀ n, n * BSIZE < (D i).size.toNat → V.ref (D i) (Image.dataRef n) ≠ 0
  sure : ∀ i, Alloc D i → ∀ k < NREF, k = NDIRECT ∨ (D i).type = T_DIR → V.ref (D i) k ≠ 0 →
    V (V.ref (D i) k) ≠ none

instance (D : ℕ → Dinode) (i : ℕ) : Decidable (Alloc D i) := by
  unfold Alloc
  infer_instance

/-- A block that `fs_alloc` has just handed out. -/
structure Fresh (V : Image) (D : ℕ → Dinode) (b : ℕ) : Prop where
  high : BITMAP < b
  lt : b < FSSIZE
  used : V.bit b = true
  zero : V b = some Block.zero
  apart : ∀ i, Alloc D i → ∀ k < NREF, V.ref (D i) k ≠ b

namespace Laid

variable {V V' : Image} {D D' : ℕ → Dinode} {i j k b : ℕ} {x : Option Block} {d : Dinode}

theorem addr_own (h : Laid V D) (hi : Alloc D i) (hk : k ≤ NDIRECT) (ha : (D i).addr k ≠ 0) :
    BITMAP < (D i).addr k ∧ (D i).addr k < FSSIZE ∧ V.bit ((D i).addr k) = true := by
  have href : V.ref (D i) k = (D i).addr k := Image.ref_direct hk
  have own := h.own i hi k (Nat.lt_of_le_of_lt hk (by decide)) (by rwa [href])
  rwa [href] at own

/-- The contents of an indirect block are certain. -/
theorem indirect_sure (h : Laid V D) (hi : Alloc D i) (ha : (D i).addr NDIRECT ≠ 0) :
    V ((D i).addr NDIRECT) ≠ none := by
  have href : V.ref (D i) NDIRECT = (D i).addr NDIRECT := Image.ref_direct (Nat.le_refl _)
  have sure := h.sure i hi NDIRECT (by decide) (Or.inl rfl) (by rwa [href])
  rwa [href] at sure

/-- The blocks up to the bitmap are no indirect blocks. -/
theorem indirect_ne_of_le (h : Laid V D) (hb0 : b ≠ 0) (hb : b ≤ BITMAP) (hi : Alloc D i) :
    b ≠ (D i).addr NDIRECT := by
  rintro rfl
  have := (h.addr_own hi (Nat.le_refl _) hb0).1
  omega

/-- A block that is not in use is named nowhere. -/
theorem ref_ne_of_clear (h : Laid V D) (hb : V.bit b = false) (hb0 : b ≠ 0) (hi : Alloc D i)
    (hk : k < NREF) : V.ref (D i) k ≠ b := by
  rintro rfl
  have := (h.own i hi k hk hb0).2.2
  rw [hb] at this
  cases this

theorem high_of_clear (h : Laid V D) (hb : V.bit b = false) : BITMAP < b := by
  by_contra hn
  have := h.low b (by omega)
  rw [hb] at this
  cases this

/-- A pointer other than that to the indirect block names no indirect block. -/
theorem data_ne_indirect (h : Laid V D) (hi : Alloc D i) (hk : k < NREF) (hne : k ≠ NDIRECT)
    (hr : V.ref (D i) k ≠ 0) (hj : Alloc D j) : V.ref (D i) k ≠ (D j).addr NDIRECT := by
  intro he
  have href : V.ref (D j) NDIRECT = (D j).addr NDIRECT := Image.ref_direct (Nat.le_refl _)
  exact hne (h.inj i j hi hj k hk NDIRECT (by decide) hr (he.trans href.symm)).2

/-- What stays laid out when pointers are dropped, and none is moved or added. -/
theorem of_sub (h : Laid V D) (alloc : ∀ j, Alloc D' j → Alloc D j)
    (type : ∀ j, Alloc D' j → (D' j).type = (D j).type)
    (refs : ∀ j, Alloc D' j → ∀ k < NREF, V'.ref (D' j) k ≠ 0 → V'.ref (D' j) k = V.ref (D j) k)
    (size : ∀ j, Alloc D' j → (D' j).size.toNat ≤ MAXFILE * BSIZE)
    (full : ∀ j, Alloc D' j → ∀ n, n * BSIZE < (D' j).size.toNat →
      V'.ref (D' j) (Image.dataRef n) ≠ 0)
    (known : ∀ c, V' c = none → BITMAP < c) (low : ∀ b ≤ BITMAP, V'.bit b = true)
    (bits : ∀ j, Alloc D' j → ∀ k < NREF, V'.ref (D' j) k ≠ 0 → V.bit (V.ref (D j) k) = true →
      V'.bit (V.ref (D j) k) = true)
    (sure : ∀ j, Alloc D' j → ∀ k < NREF, k = NDIRECT ∨ (D j).type = T_DIR →
      V'.ref (D' j) k ≠ 0 → V (V.ref (D j) k) ≠ none → V' (V.ref (D j) k) ≠ none) :
    Laid V' D' where
  known := known
  low := low
  type := fun j hj => by
    rw [type j hj]
    exact h.type j (alloc j hj)
  size := size
  own := fun j hj k hk hr => by
    have he := refs j hj k hk hr
    obtain ⟨h1, h2, h3⟩ := h.own j (alloc j hj) k hk (he ▸ hr)
    rw [he]
    exact ⟨h1, h2, bits j hj k hk hr h3⟩
  inj := fun i j hi hj k hk m hm hr he => by
    have hm' := refs j hj m hm (he ▸ hr)
    have hk' := refs i hi k hk hr
    rw [hk', hm'] at he
    rw [hk'] at hr
    exact h.inj i j (alloc i hi) (alloc j hj) k hk m hm hr he
  full := full
  sure := fun j hj k hk ht hr => by
    have he := refs j hj k hk hr
    rw [type j hj] at ht
    rw [he]
    exact sure j hj k hk ht hr (h.sure j (alloc j hj) k hk ht (he ▸ hr))

/-- What stays laid out when the pointers of all inodes stay. -/
theorem of_same (h : Laid V D) (refs : ∀ j, Alloc D j → ∀ k, V'.ref (D j) k = V.ref (D j) k)
    (known : ∀ c, V' c = none → BITMAP < c) (bits : ∀ b, V.bit b = true → V'.bit b = true)
    (sure : ∀ j, Alloc D j → ∀ k < NREF, k = NDIRECT ∨ (D j).type = T_DIR →
      V.ref (D j) k ≠ 0 → V (V.ref (D j) k) ≠ none → V' (V.ref (D j) k) ≠ none) :
    Laid V' D := by
  refine h.of_sub (fun _ hj => hj) (fun _ _ => rfl) (fun j hj k _ _ => refs j hj k)
    (fun j hj => h.size j hj) ?_ known (fun b hb => bits b (h.low b hb)) (fun j _ k _ _ => bits _)
    fun j hj k hk ht hr => sure j hj k hk ht (by rwa [refs j hj] at hr)
  intro j hj n hn
  rw [refs j hj]
  exact h.full j hj n hn

/-- An inode gets a block of its own for its pointer `k`, which was empty. -/
theorem assign (h : Laid V D) (fresh : Fresh V D b)
    (alloc : ∀ j, Alloc D' j ↔ Alloc D j)
    (type : ∀ j, (D' j).type = (D j).type) (size : ∀ j, (D' j).size = (D j).size)
    (refs : ∀ j, Alloc D j → ∀ m < NREF,
      V'.ref (D' j) m = if j = i ∧ m = k then b else V.ref (D j) m)
    (bits : ∀ b, V'.bit b = V.bit b)
    (sure : ∀ c, V' c = none → V c = none) : Laid V' D' where
  known := fun c hc => h.known c (sure c hc)
  low := fun c hc => by
    rw [bits]
    exact h.low c hc
  type := fun j hj => by
    rw [type]
    exact h.type j ((alloc j).mp hj)
  size := fun j hj => by
    rw [size]
    exact h.size j ((alloc j).mp hj)
  own := fun j hj m hm hr => by
    have hj' := (alloc j).mp hj
    rw [refs j hj' m hm] at hr ⊢
    rw [bits]
    split at hr
    next hjm =>
      rw [if_pos hjm]
      exact ⟨fresh.high, fresh.lt, fresh.used⟩
    next hjm =>
      rw [if_neg hjm]
      exact h.own j hj' m hm hr
  inj := fun j j' hj hj' m hm m' hm' hr he => by
    have aj := (alloc j).mp hj
    have aj' := (alloc j').mp hj'
    rw [refs j aj m hm] at hr he
    rw [refs j' aj' m' hm'] at he
    split at hr
    next hjm =>
      rw [if_pos hjm] at he
      split at he
      next hjm' => exact ⟨hjm.1.trans hjm'.1.symm, hjm.2.trans hjm'.2.symm⟩
      next => exact absurd he.symm (fresh.apart j' aj' m' hm')
    next hjm =>
      rw [if_neg hjm] at he
      split at he
      next => exact absurd he (fresh.apart j aj m hm)
      next => exact h.inj j j' aj aj' m hm m' hm' hr he
  full := fun j hj n hn => by
    have hj' := (alloc j).mp hj
    rw [size] at hn
    have hs := h.size j hj'
    rw [refs j hj' _ (Image.dataRef_lt (by simp only [BSIZE] at *; omega))]
    split
    · have := fresh.high
      omega
    · exact h.full j hj' n hn
  sure := fun j hj m hm ht hr hn => by
    have hj' := (alloc j).mp hj
    rw [refs j hj' m hm] at hr hn
    rw [type] at ht
    split at hr
    next hjm =>
      rw [if_pos hjm] at hn
      have := sure _ hn
      rw [fresh.zero] at this
      cases this
    next hjm =>
      rw [if_neg hjm] at hn
      exact h.sure j hj' m hm ht hr (sure _ hn)

end Laid

end EasyXv6.Fs
