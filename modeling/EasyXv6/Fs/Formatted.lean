import EasyXv6.Fs.Image
import EasyXv6.Fs.Dir

set_option autoImplicit false

/-!
# A formatted disk

What `fs_init` leaves on a disk without a file system: an empty root directory.
-/
namespace EasyXv6.Fs
open Lib

/-- The inode of an empty root directory whose entries are in the block `r`. -/
def rootDinode (r : ℕ) : Dinode :=
  { Dinode.fresh T_DIR with
    nlink := 2
    size := 48
    addrs := fun k => if k.val = 0 then BitVec.ofNat 32 r else 0 }

/-- The file system on the disk is empty, and the entries of its root are in the block `r`. -/
structure Formatted (disk : ℕ → Block) (r : ℕ) : Prop where
  header : (disk 2).headerN = 0
  high : BITMAP < r
  lt : r < FSSIZE
  bits : ∀ b < BPB, (disk BITMAP).bit b = decide (b ≤ BITMAP ∨ b = r)
  root : (disk (INODES + ROOTINO / IPB)).dinode (ROOTINO % IPB) = rootDinode r
  free : ∀ i < NINODES, i ≠ ROOTINO → ((disk (INODES + i / IPB)).dinode (i % IPB)).type = 0
  dot : (disk r).num 0 8 = ROOTINO ∧ cstr (fun i => (disk r).byte (8 + i)) DIRSIZ = [46]
  dotdot : (disk r).num 24 8 = ROOTINO ∧ cstr (fun i => (disk r).byte (32 + i)) DIRSIZ = [46, 46]

/-- Bits `0` to `n - 1` set. -/
def Block.setBits (d : Block) (n : ℕ) : Block := (List.range n).foldl (fun d b => d.setBit b) d

theorem Block.bit_setBits (d : Block) {n : ℕ} (hn : n ≤ BPB) (b : ℕ) :
    (d.setBits n).bit b = if b < n then true else d.bit b := by
  induction n with
  | zero => rfl
  | succ n ih =>
    unfold setBits at ih ⊢
    rw [List.range_succ, List.foldl_append, List.foldl_cons, List.foldl_nil, bit_setBit hn,
      ih (Nat.le_of_succ_le hn)]
    by_cases hb : b = n
    · rw [if_pos hb, if_pos (by omega)]
    · rw [if_neg hb]
      exact if_congr (by omega) rfl rfl

/-- A disk with an empty file system and no other contents. -/
def emptyDisk (b : ℕ) : Block :=
  if b = INODES then Block.zero.putDinode ROOTINO (rootDinode 46)
  else if b = BITMAP then Block.zero.setBits 47
  else if b = 46 then
    (((Block.zero.putNum 0 8 ROOTINO).put 8 DIRSIZ (strncpy (nameOf [46]) DIRSIZ)).putNum 24 8
      ROOTINO).put 32 DIRSIZ (strncpy (nameOf [46, 46]) DIRSIZ)
  else Block.zero

theorem emptyDisk_bitmap : emptyDisk BITMAP = Block.zero.setBits 47 := by
  rw [emptyDisk, if_neg (by decide), if_pos rfl]

theorem emptyDisk_inodes : emptyDisk INODES = Block.zero.putDinode ROOTINO (rootDinode 46) := by
  rw [emptyDisk, if_pos rfl]

theorem emptyDisk_of_ne {b : ℕ} (h0 : b ≠ INODES) (h1 : b ≠ BITMAP) (h2 : b ≠ 46) :
    emptyDisk b = Block.zero := by
  rw [emptyDisk, if_neg h0, if_neg h1, if_neg h2]

theorem emptyDisk_formatted : Formatted emptyDisk 46 where
  header := by
    rw [emptyDisk_of_ne (by decide) (by decide) (by decide), Block.headerN, Block.zero,
      Bytes.num_zero]
    rfl
  high := by decide
  lt := by decide
  bits := by
    intro b hb
    rw [emptyDisk_bitmap, Block.bit_setBits _ (by decide)]
    have zero : Block.zero.bit b = false := by simp [Block.bit, Block.zero]
    rw [zero]
    by_cases h : b < 47
    · rw [if_pos h, eq_comm, decide_eq_true_eq]
      simp only [BITMAP]
      omega
    · rw [if_neg h, eq_comm, decide_eq_false_iff_not]
      simp only [BITMAP]
      omega
  root := by
    change (emptyDisk INODES).dinode ROOTINO = _
    rw [emptyDisk_inodes]
    exact Block.dinode_putDinode_self (by decide)
  free := by
    intro i hi hne
    have none : (Block.zero.dinode (i % IPB)).type = 0 := by simp [Block.dinode, Block.zero]
    by_cases h : INODES + i / IPB = INODES
    · rw [h, emptyDisk_inodes, Block.dinode_putDinode_of_ne, none]
      simp only [INODES, IPB, BSIZE, DINODE_SIZE, ROOTINO] at *
      omega
    · have := Image.inodeBlock_le hi
      rw [emptyDisk_of_ne h (by omega) (by simp only [BITMAP] at *; omega), none]
  dot := by decide +kernel
  dotdot := by decide +kernel

namespace Vol

/-- The memory of the kernel after it has mounted a formatted disk. -/
structure Mounted (s : Vol) : Prop where
  at0 : At 0 [] [] (fun c => some (s.blk.bio.disk c)) s
  disk : ∃ r, Formatted s.blk.bio.disk r
  refs : ∀ ip, (s.inode ip).ref = 0

/-- The volume right after power-on with a formatted disk. -/
def ofDisk (disk : ℕ → Block) : Vol where
  blk := ⟨Bio.bioInit disk, ⟨ROOTDEV, 2, 30, 0, false, ⟨0, fun _ => 0⟩⟩⟩
  sb := Log.formatted
  inode := fun _ => ⟨0, 0, 0, false, .fresh 0⟩
  user := fun _ => none
  de := Bytes.zero

theorem ofDisk_mounted {disk : ℕ → Block} {r : ℕ} (h : Formatted disk r) : Mounted (ofDisk disk) where
  at0 := by
    refine ⟨⟨?_, ⟨rfl, rfl, rfl, rfl, by simp⟩, List.nodup_nil, by simp, by simp, by simp⟩, by simp,
      ?_, rfl, rfl, rfl⟩
    · exact (Bio.bioInit_Inv disk).mono (Set.empty_subset _)
    · intro c d _ hd
      cases hd
      exact Bio.view_of_not_holds fun i hi => by simp [ofDisk, Bio.Holds, Bio.bioInit] at hi
  disk := ⟨r, h⟩
  refs := fun _ => rfl

end Vol

end EasyXv6.Fs
