import EasyXv6.Fs.Log

set_option autoImplicit false

/-!
# Inodes, directory entries and the bitmap on the disk (fs.h)
-/
namespace EasyXv6.Fs
open Lib

abbrev DINODE_SIZE : ℕ := 64
abbrev IPB : ℕ := BSIZE / DINODE_SIZE
abbrev BPB : ℕ := BSIZE * 8
abbrev DIRENT_SIZE : ℕ := 24
abbrev DIRSIZ : ℕ := 14
abbrev T_DIR : BitVec 16 := 1
abbrev T_FILE : BitVec 16 := 2
abbrev T_DEVICE : BitVec 16 := 3

def IBLOCK (i : ℕ) (sb : Superblock) : ℕ := i / IPB + sb.inodestart
def BBLOCK (b : ℕ) (sb : Superblock) : ℕ := b / BPB + sb.bmapstart

/-- `struct dinode` -/
structure Dinode where
  type : BitVec 16
  major : BitVec 16
  minor : BitVec 16
  nlink : BitVec 16
  size : BitVec 32
  addrs : Fin (NDIRECT + 1) → BitVec 32

namespace Dinode

@[ext] theorem ext' {d e : Dinode} (type : d.type = e.type) (major : d.major = e.major)
    (minor : d.minor = e.minor) (nlink : d.nlink = e.nlink) (size : d.size = e.size)
    (addrs : ∀ i, d.addrs i = e.addrs i) : d = e := by
  obtain ⟨t, ma, mi, nl, sz, a⟩ := d
  obtain ⟨t', ma', mi', nl', sz', a'⟩ := e
  dsimp only at *
  subst type major minor nlink size
  rw [funext addrs]

/-- What `ialloc` makes of a free inode. -/
def fresh (type : BitVec 16) : Dinode := ⟨type, 0, 0, 0, 0, fun _ => 0⟩

/-- `addrs[k]` as a block number. -/
def addr (d : Dinode) (k : ℕ) : ℕ :=
  if h : k < NDIRECT + 1 then (d.addrs ⟨k, h⟩).toNat else 0

/-- `addrs[k] = b` -/
def setAddr (d : Dinode) (k b : ℕ) : Dinode :=
  { d with addrs := fun i => if i.val = k then BitVec.ofNat 32 b else d.addrs i }

theorem addr_lt (d : Dinode) (k : ℕ) : d.addr k < 2 ^ 32 := by
  unfold addr
  split
  · exact BitVec.isLt _
  · decide

theorem addr_of_le (d : Dinode) {k : ℕ} (h : NDIRECT < k) : d.addr k = 0 :=
  dif_neg (by omega)

theorem addr_setAddr_self (d : Dinode) {k b : ℕ} (hk : k ≤ NDIRECT) (hb : b < 2 ^ 32) :
    (d.setAddr k b).addr k = b := by
  unfold addr setAddr
  rw [dif_pos (by omega)]
  dsimp only
  rw [if_pos rfl, BitVec.toNat_ofNat, Nat.mod_eq_of_lt hb]

theorem addr_setAddr_of_ne (d : Dinode) {k j b : ℕ} (h : j ≠ k) :
    (d.setAddr k b).addr j = d.addr j := by
  unfold addr setAddr
  split
  · dsimp only
    rw [if_neg h]
  · rfl

@[simp] theorem setAddr_type (d : Dinode) (k b : ℕ) : (d.setAddr k b).type = d.type := rfl
@[simp] theorem setAddr_major (d : Dinode) (k b : ℕ) : (d.setAddr k b).major = d.major := rfl
@[simp] theorem setAddr_minor (d : Dinode) (k b : ℕ) : (d.setAddr k b).minor = d.minor := rfl
@[simp] theorem setAddr_nlink (d : Dinode) (k b : ℕ) : (d.setAddr k b).nlink = d.nlink := rfl
@[simp] theorem setAddr_size (d : Dinode) (k b : ℕ) : (d.setAddr k b).size = d.size := rfl

@[simp] theorem addr_fresh (type : BitVec 16) (k : ℕ) : (fresh type).addr k = 0 := by
  unfold addr fresh
  split <;> rfl

end Dinode

namespace Block

/-- `(struct dinode *)b + k` -/
def dinode (b : Block) (k : ℕ) : Dinode where
  type := BitVec.ofNat 16 (b.num (DINODE_SIZE * k) 2)
  major := BitVec.ofNat 16 (b.num (DINODE_SIZE * k + 2) 2)
  minor := BitVec.ofNat 16 (b.num (DINODE_SIZE * k + 4) 2)
  nlink := BitVec.ofNat 16 (b.num (DINODE_SIZE * k + 6) 2)
  size := BitVec.ofNat 32 (b.num (DINODE_SIZE * k + 8) 4)
  addrs := fun i => BitVec.ofNat 32 (b.num (DINODE_SIZE * k + 12 + 4 * i) 4)

/-- The assignments to the fields of `(struct dinode *)b + k` in `iupdate`. -/
def putDinode (b : Block) (k : ℕ) (d : Dinode) : Block :=
  (((((b.putNum (DINODE_SIZE * k) 2 d.type.toNat).putNum (DINODE_SIZE * k + 2) 2
    d.major.toNat).putNum (DINODE_SIZE * k + 4) 2 d.minor.toNat).putNum (DINODE_SIZE * k + 6) 2
    d.nlink.toNat).putNum (DINODE_SIZE * k + 8) 4 d.size.toNat).put (DINODE_SIZE * k + 12) 52
    fun j => leByte (d.addr (j / 4)) (j % 4)

/-- `memset(dip, 0, sizeof(*dip)); dip->type = type` -/
def initDinode (b : Block) (k : ℕ) (type : BitVec 16) : Block :=
  (b.put (DINODE_SIZE * k) DINODE_SIZE fun _ => 0).putNum (DINODE_SIZE * k) 2 type.toNat

/-- Entry `j` of an indirect block. -/
def entry (b : Block) (j : ℕ) : ℕ := b.num (4 * j) 4

def setEntry (b : Block) (j v : ℕ) : Block := b.putNum (4 * j) 4 v

/-- `data[bi / 8] & m` with `m = 1 << (bi % 8)` -/
def bit (b : Block) (bi : ℕ) : Bool := (b.byte (bi / 8)).toBitVec.getLsbD (bi % 8)

/-- `data[bi / 8] |= m` -/
def setBit (b : Block) (bi : ℕ) : Block :=
  b.put (bi / 8) 1 fun _ => ⟨(b.byte (bi / 8)).toBitVec ||| 1#8 <<< (bi % 8)⟩

/-- `data[bi / 8] &= ~m` -/
def clearBit (b : Block) (bi : ℕ) : Block :=
  b.put (bi / 8) 1 fun _ => ⟨(b.byte (bi / 8)).toBitVec &&& ~~~(1#8 <<< (bi % 8))⟩

section Dinode

variable {b : Block} {k k' : ℕ} {d : Dinode}

private theorem num_addrs (hk : k < IPB) (i : Fin (NDIRECT + 1)) (c : Block) :
    (c.put (DINODE_SIZE * k + 12) 52 fun j => leByte (d.addr (j / 4)) (j % 4)).num
      (DINODE_SIZE * k + 12 + 4 * i) 4 = (d.addrs i).toNat := by
  have hi : i.val < 13 := i.isLt
  have hk' : k < 16 := hk
  have hv : d.addr i < 256 ^ 4 := d.addr_lt i
  rw [show (d.addrs i).toNat = d.addr i by rw [Dinode.addr, dif_pos i.isLt],
    ← Nat.mod_eq_of_lt hv, ← leVal_leByte]
  apply leVal_congr
  intro j hj
  rw [Bytes.byte_put _ _ _ _ _ (by simp only [BSIZE, DINODE_SIZE]; omega), if_pos (by omega),
    show DINODE_SIZE * k + 12 + 4 * i + j - (DINODE_SIZE * k + 12) = 4 * i + j by omega,
    show (4 * i.val + j) / 4 = i by omega, show (4 * i.val + j) % 4 = j by omega]

private theorem ofNat_toNat_mod {w n : ℕ} (v : BitVec w) (h : 256 ^ n = 2 ^ w) :
    BitVec.ofNat w (v.toNat % 256 ^ n) = v := by
  rw [h, Nat.mod_eq_of_lt v.isLt, BitVec.ofNat_toNat, BitVec.setWidth_eq]

theorem dinode_putDinode_self (hk : k < IPB) : (b.putDinode k d).dinode k = d := by
  have hk' : k < 16 := hk
  apply Dinode.ext'
  all_goals
    unfold dinode putDinode
    dsimp only
  · rw [Bytes.num_put_of_disjoint _ _ _ _ _ _ (by omega), Bytes.num_putNum_of_disjoint _ _ _ _ _ _
      (by omega), Bytes.num_putNum_of_disjoint _ _ _ _ _ _ (by omega),
      Bytes.num_putNum_of_disjoint _ _ _ _ _ _ (by omega),
      Bytes.num_putNum_of_disjoint _ _ _ _ _ _ (by omega),
      Bytes.num_putNum_self _ _ _ _ (by simp only [BSIZE, DINODE_SIZE]; omega),
      ofNat_toNat_mod _ rfl]
  · rw [Bytes.num_put_of_disjoint _ _ _ _ _ _ (by omega), Bytes.num_putNum_of_disjoint _ _ _ _ _ _
      (by omega), Bytes.num_putNum_of_disjoint _ _ _ _ _ _ (by omega),
      Bytes.num_putNum_of_disjoint _ _ _ _ _ _ (by omega),
      Bytes.num_putNum_self _ _ _ _ (by simp only [BSIZE, DINODE_SIZE]; omega),
      ofNat_toNat_mod _ rfl]
  · rw [Bytes.num_put_of_disjoint _ _ _ _ _ _ (by omega), Bytes.num_putNum_of_disjoint _ _ _ _ _ _
      (by omega), Bytes.num_putNum_of_disjoint _ _ _ _ _ _ (by omega),
      Bytes.num_putNum_self _ _ _ _ (by simp only [BSIZE, DINODE_SIZE]; omega),
      ofNat_toNat_mod _ rfl]
  · rw [Bytes.num_put_of_disjoint _ _ _ _ _ _ (by omega), Bytes.num_putNum_of_disjoint _ _ _ _ _ _
      (by omega), Bytes.num_putNum_self _ _ _ _ (by simp only [BSIZE, DINODE_SIZE]; omega),
      ofNat_toNat_mod _ rfl]
  · rw [Bytes.num_put_of_disjoint _ _ _ _ _ _ (by omega),
      Bytes.num_putNum_self _ _ _ _ (by simp only [BSIZE, DINODE_SIZE]; omega),
      ofNat_toNat_mod _ rfl]
  · intro i
    rw [num_addrs hk, BitVec.ofNat_toNat, BitVec.setWidth_eq]

/-- Bytes outside the `k`-th inode do not matter to it. -/
theorem dinode_congr {c : Block} (h : ∀ i, DINODE_SIZE * k ≤ i → i < DINODE_SIZE * k + DINODE_SIZE →
    c.byte i = b.byte i) : c.dinode k = b.dinode k := by
  have num : ∀ off n, DINODE_SIZE * k ≤ off → off + n ≤ DINODE_SIZE * k + 64 →
      c.num off n = b.num off n := by
    intro off n h0 h1
    exact leVal_congr fun i hi => h _ (by omega) (by simp only [DINODE_SIZE] at *; omega)
  unfold dinode
  rw [num _ 2 (by omega) (by omega), num _ 2 (by omega) (by omega), num _ 2 (by omega) (by omega),
    num _ 2 (by omega) (by omega), num _ 4 (by omega) (by omega)]
  congr 1
  funext i
  have hi : i.val < 13 := i.isLt
  rw [num _ 4 (by omega) (by omega)]

theorem dinode_putDinode_of_ne (h : k' ≠ k) : (b.putDinode k d).dinode k' = b.dinode k' := by
  apply dinode_congr
  intro i h0 h1
  have apart : i < DINODE_SIZE * k ∨ DINODE_SIZE * k + 64 ≤ i := by
    simp only [DINODE_SIZE] at *
    omega
  unfold putDinode
  rw [Bytes.byte_put_of_disjoint _ _ _ _ _ (by omega), Bytes.putNum, Bytes.putNum, Bytes.putNum,
    Bytes.putNum, Bytes.putNum, Bytes.byte_put_of_disjoint _ _ _ _ _ (by omega),
    Bytes.byte_put_of_disjoint _ _ _ _ _ (by omega), Bytes.byte_put_of_disjoint _ _ _ _ _ (by omega),
    Bytes.byte_put_of_disjoint _ _ _ _ _ (by omega), Bytes.byte_put_of_disjoint _ _ _ _ _ (by omega)]

theorem dinode_initDinode_self (hk : k < IPB) (type : BitVec 16) :
    (b.initDinode k type).dinode k = .fresh type := by
  have hk' : k < 16 := hk
  have zero : ∀ off n, DINODE_SIZE * k + 2 ≤ off → off + n ≤ DINODE_SIZE * k + 64 →
      (b.initDinode k type).num off n = 0 := by
    intro off n h0 h1
    unfold initDinode
    rw [Bytes.num_putNum_of_disjoint _ _ _ _ _ _ (by omega), ← leVal_zero n]
    apply leVal_congr
    intro i hi
    simp only [DINODE_SIZE] at *
    rw [Bytes.byte_put _ _ _ _ _ (by simp only [BSIZE]; omega), if_pos (by omega)]
  apply Dinode.ext'
  · unfold dinode initDinode
    dsimp only
    rw [Bytes.num_putNum_self _ _ _ _ (by simp only [BSIZE, DINODE_SIZE]; omega),
      ofNat_toNat_mod _ rfl]
    rfl
  · exact congrArg (BitVec.ofNat 16) (zero (DINODE_SIZE * k + 2) 2 (by omega) (by omega))
  · exact congrArg (BitVec.ofNat 16) (zero (DINODE_SIZE * k + 4) 2 (by omega) (by omega))
  · exact congrArg (BitVec.ofNat 16) (zero (DINODE_SIZE * k + 6) 2 (by omega) (by omega))
  · exact congrArg (BitVec.ofNat 32) (zero (DINODE_SIZE * k + 8) 4 (by omega) (by omega))
  · intro i
    have hi : i.val < 13 := i.isLt
    exact congrArg (BitVec.ofNat 32)
      (zero (DINODE_SIZE * k + 12 + 4 * i) 4 (by omega) (by omega))

theorem dinode_initDinode_of_ne (h : k' ≠ k) (type : BitVec 16) :
    (b.initDinode k type).dinode k' = b.dinode k' := by
  apply dinode_congr
  intro i h0 h1
  simp only [DINODE_SIZE] at h0 h1
  unfold initDinode
  rw [Bytes.putNum, Bytes.byte_put_of_disjoint _ _ _ _ _ (by simp only [DINODE_SIZE]; omega),
    Bytes.byte_put_of_disjoint _ _ _ _ _ (by simp only [DINODE_SIZE]; omega)]

end Dinode

section Entry

variable {b : Block} {j j' v : ℕ}

theorem entry_lt (b : Block) (j : ℕ) : b.entry j < 2 ^ 32 := Bytes.num_lt ..

theorem entry_setEntry_self (hj : j < NINDIRECT) (hv : v < 2 ^ 32) :
    (b.setEntry j v).entry j = v := by
  have hj' : j < 256 := hj
  unfold entry setEntry
  rw [Bytes.num_putNum_self _ _ _ _ (by simp only [BSIZE]; omega)]
  exact Nat.mod_eq_of_lt hv

theorem entry_setEntry_of_ne (h : j' ≠ j) : (b.setEntry j v).entry j' = b.entry j' :=
  Bytes.num_putNum_of_disjoint _ _ _ _ _ _ (by omega)

@[simp] theorem entry_zero (j : ℕ) : Block.zero.entry j = 0 := Bytes.num_zero ..

end Entry

section Bit

variable {b : Block} {bi bj : ℕ}

/-- A change of the byte of bit `bi` that only concerns that bit. -/
private theorem bit_put {f : BitVec 8} {v : Bool} (hi : bi < BPB)
    (hf : ∀ k < 8, f.getLsbD k = if k = bi % 8 then v else (b.byte (bi / 8)).toBitVec.getLsbD k)
    (bj : ℕ) : Block.bit (b.put (bi / 8) 1 fun _ => ⟨f⟩) bj = if bj = bi then v else b.bit bj := by
  have hi' : bi / 8 < BSIZE := by
    simp only [BSIZE, BPB] at *
    omega
  unfold bit
  by_cases h8 : bj / 8 = bi / 8
  · rw [h8, Bytes.byte_put _ _ _ _ _ hi', if_pos (by omega), hf _ (Nat.mod_lt _ (by decide))]
    exact if_congr (by omega) rfl rfl
  · rw [Bytes.byte_put_of_disjoint _ _ _ _ _ (by omega), if_neg]
    rintro rfl
    exact h8 rfl

private theorem getLsbD_one_shift {k n : ℕ} (hk : k < 8) :
    (1#8 <<< n).getLsbD k = decide (k = n) := by
  rw [BitVec.getLsbD_shiftLeft]
  simp only [hk, decide_true, Bool.true_and, BitVec.getLsbD_one]
  by_cases h : k < n
  · simp [h, Nat.ne_of_lt h]
  · simp only [h, decide_false, Bool.not_false, Bool.true_and]
    simp
    omega

theorem bit_setBit (hi : bi < BPB) (bj : ℕ) :
    (b.setBit bi).bit bj = if bj = bi then true else b.bit bj := by
  apply bit_put hi
  intro k hk
  rw [BitVec.getLsbD_or, getLsbD_one_shift hk]
  split <;> simp_all

theorem bit_clearBit (hi : bi < BPB) (bj : ℕ) :
    (b.clearBit bi).bit bj = if bj = bi then false else b.bit bj := by
  apply bit_put hi
  intro k hk
  rw [BitVec.getLsbD_and, BitVec.getLsbD_not, getLsbD_one_shift hk]
  split <;> simp_all

end Bit

end Block

end EasyXv6.Fs
