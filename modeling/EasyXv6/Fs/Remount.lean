import EasyXv6.Fs.Linked
import EasyXv6.Fs.Recovered

set_option autoImplicit false

/-!
# The file system after a restart

What the disk alone says of the files is what the kernel said of them before, but for bytes that it
had in its cache only.
-/
namespace EasyXv6.Fs

namespace Log
open Lib Blk

variable {D d : ℕ → Block} {s : Blk}

/-- The state in which the recovery of a disk with the contents `D` leaves the cache and the log. -/
structure Restarted (D : ℕ → Block) (s : Blk) : Prop where
  inv : Inv ∅ [] [] s
  outstanding : s.ctx.outstanding = 0
  committing : s.ctx.committing = false
  clean : (s.bio.disk 2).headerN = 0
  disk : ∀ b, ¬ InLog b → s.bio.disk b = D b

theorem Recoverable.restarted (h : Recoverable D d) (r : Recovers d s) : Restarted D s := by
  induction r with
  | returned run =>
    obtain ⟨s', -, run', inv, outstanding, committing, -, -, clean, disk⟩ := logInit_returns h
    cases run'.symm.trans run
    exact ⟨inv, outstanding, committing, clean, disk⟩
  | crashed cut _ ih =>
    obtain ⟨s', ws, run', -, -, -, issued, safe, -⟩ := logInit_returns h
    obtain ⟨ws', hws, done⟩ := cut
    rw [run'] at hws
    cases List.append_cancel_left (issued.issued.symm.trans hws)
    apply ih
    rw [List.prefix_iff_eq_take.mp done]
    exact safe _

end Log

namespace Vol
open Lib

/-- Memory after a restart: the log has recovered to `b`, and no inode is cached. -/
def remount (b : Blk) : Vol := { ofDisk b.bio.disk with blk := b }

variable {N : ℕ → Node} {R : List Ref} {L : List (Fin NINODE)} {s : Vol} {V : Image} {D : ℕ → Dinode}
  {d : ℕ → Block} {T : Dirs} {i k n : ℕ} {b : Blk}

section Same

variable (h : FsAt 0 [] [] V D s) (same : ∀ c, ¬ Log.InLog c → d c = s.blk.bio.disk c)
include h same

theorem FsAt.whole_dino (hi : i < NINODES) : (whole d).dino i = V.dino i := by
  rw [← h.onDisk_eq hi, onDisk, ← same _ (not_inLog_of_high (Nat.le_add_right ..))]
  rfl

theorem FsAt.whole_fields (hi : i < NINODES) : SameFields ((whole d).dino i) (D i) := by
  rw [h.whole_dino same hi]
  exact (h.ok.cached.synced i hi).fields

theorem FsAt.whole_alloc : Alloc (whole d).dino i ↔ Alloc D i := by
  by_cases hi : i < NINODES
  · exact alloc_congr (h.whole_fields same hi).type
  · exact iff_of_false (fun used => hi used.2.1) fun used => hi used.2.1

/-- The disk has the blocks whose contents are certain. -/
theorem FsAt.whole_block {c : ℕ} (high : INODES ≤ c) (sure : V c ≠ none) : V c = some (d c) := by
  have home := not_inLog_of_high high
  have view : s.view c = s.blk.bio.disk c := h.blk.inv.bio.view_of_clean List.not_mem_nil sure
  obtain ⟨x, hx⟩ := Option.ne_none_iff_exists'.mp sure
  rw [hx, same c home, ← view, h.blk.view c x home hx]

/-- A pointer on the disk is the one that the kernel goes by, or none. -/
theorem FsAt.whole_ref (hi : Alloc D i) (k : ℕ) :
    (whole d).ref ((whole d).dino i) k = V.ref (D i) k ∨ (whole d).ref ((whole d).dino i) k = 0 := by
  have addr := (h.ok.cached.synced i hi.2.1).addr
  rw [← h.whole_dino same hi.2.1] at addr
  by_cases hk : k ≤ NDIRECT
  · rw [Image.ref_direct hk, Image.ref_direct hk]
    exact (addr k hk).imp_right fun none => none.1
  by_cases h0 : ((whole d).dino i).addr NDIRECT = 0
  · exact Or.inr (Image.ref_entry_zero (by omega) h0)
  · have own : ((whole d).dino i).addr NDIRECT = (D i).addr NDIRECT :=
      (addr NDIRECT (Nat.le_refl _)).resolve_right fun none => h0 none.1
    rw [own] at h0
    have high := (h.ok.laid.addr_own hi (Nat.le_refl _) h0).1
    have block := h.whole_block same (Nat.le_of_lt (Nat.lt_trans (by decide) high))
      (h.ok.laid.indirect_sure hi h0)
    left
    rw [Image.ref_entry (by omega) (by rwa [own]), Image.ref_entry (by omega) h0, own,
      Image.block_of block]
    rfl

theorem FsAt.whole_dataRef (hi : Alloc D i) (hn : n * BSIZE < (D i).size.toNat) :
    (whole d).ref ((whole d).dino i) (Image.dataRef n) = V.ref (D i) (Image.dataRef n) := by
  rw [h.ref_whole hi same hn, h.pointer_eq hi]

/-- The layout does not need what was in the cache. -/
theorem FsAt.whole_laid : Laid (whole d) (whole d).dino := by
  have laid := h.ok.laid
  have used : ∀ {i}, Alloc (whole d).dino i → Alloc D i := (h.whole_alloc same).mp
  have ref : ∀ {i}, Alloc D i → ∀ {k}, (whole d).ref ((whole d).dino i) k ≠ 0 →
      (whole d).ref ((whole d).dino i) k = V.ref (D i) k := fun hi k hk =>
    (h.whole_ref same hi k).resolve_right hk
  have bitmap : ∀ c, (whole d).bit c = V.bit c := by
    intro c
    have block := h.whole_block same (by decide) (known_low laid BITMAP (Nat.le_refl _))
    rw [Image.bit, Image.bit, Image.block_of block]
    rfl
  constructor
  · intro c hc
    cases hc
  · intro c hc
    rw [bitmap]
    exact laid.low c hc
  · intro i hi
    rw [(h.whole_fields same hi.2.1).type]
    exact laid.type i (used hi)
  · intro i hi
    rw [(h.whole_fields same hi.2.1).size]
    exact laid.size i (used hi)
  · intro i hi k hk h0
    rw [ref (used hi) h0, bitmap]
    rw [ref (used hi) h0] at h0
    exact laid.own i (used hi) k hk h0
  · intro i j hi hj k hk m hm h0 he
    have h0' := h0
    rw [he] at h0'
    rw [ref (used hi) h0, ref (used hj) h0'] at he
    rw [ref (used hi) h0] at h0
    exact laid.inj i j (used hi) (used hj) k hk m hm h0 he
  · intro i hi n hn
    rw [(h.whole_fields same hi.2.1).size] at hn
    rw [h.whole_dataRef same (used hi) hn]
    exact laid.full i (used hi) n hn
  · intro i hi k hk why h0 none
    cases none

/-- A directory has all its bytes on the disk. -/
theorem FsAt.whole_byte (hi : Alloc D i) (dir : (D i).type = T_DIR) :
    (whole d).byteAt ((whole d).dino i) = V.byteAt (D i) := by
  funext q
  have size := (h.whole_fields same hi.2.1).size
  unfold Image.byteAt
  rw [size]
  split
  next hq =>
    have below : q / BSIZE * BSIZE < (D i).size.toNat :=
      Nat.lt_of_le_of_lt (Nat.div_mul_le_self _ _) hq
    have full := h.ok.laid.full i hi _ below
    have own := h.ok.laid.own i hi _ (Image.dataRef_lt (h.ok.laid.index_lt hi below)) full
    have sure := h.ok.laid.sure i hi _ (Image.dataRef_lt (h.ok.laid.index_lt hi below)) (Or.inr dir) full
    have block := h.whole_block same (Nat.le_of_lt (Nat.lt_trans (by decide) own.1)) sure
    unfold Image.rawByte
    rw [h.whole_dataRef same hi below, block]
    rfl
  next => rfl

/-- The disk alone has the same tree. -/
theorem FsAt.whole_tree {E : List ℕ} (tree : Tree E (nodes V D) T) :
    Tree E (nodes (whole d) (whole d).dino) T := by
  have used : ∀ {i}, Alloc D i → Alloc (whole d).dino i := (h.whole_alloc same).mpr
  have type : ∀ i, (nodes (whole d) (whole d).dino i).type = (nodes V D i).type := by
    intro i
    by_cases hi : Alloc D i
    · rw [nodes_of_alloc hi, nodes_of_alloc (used hi)]
      exact (h.whole_fields same hi.2.1).type
    · rw [nodes_of_free hi, nodes_of_free (mt (h.whole_alloc same).mp hi)]
  constructor
  · exact tree.wf
  · intro e x he
    obtain ⟨dir, lists⟩ := tree.dir e x he
    have hi : Alloc D e := nodes_type_ne (by rw [dir]; decide)
    refine ⟨(type e).trans dir, ?_⟩
    rw [nodes_of_alloc (used hi)]
    rw [nodes_of_alloc hi] at lists dir
    apply lists.congr
    · exact congrArg BitVec.toNat (h.whole_fields same hi.2.1).size
    · exact h.whole_byte same hi dir
  · intro e x j nm he hj
    rw [type]
    exact tree.entry e x j nm he hj
  · exact tree.distinct
  · intro j hj
    rw [type] at hj
    have hi := nodes_type_ne hj
    rw [← tree.nlink j hj, nodes_of_alloc hi, nodes_of_alloc (used hi)]
    exact (h.whole_fields same hi.2.1).nlink

end Same

/-- After a restart from the disk of a state between two calls the tree is as it was. -/
theorem Between.remount (h : Between N R L s) (tree : Tree [] N T)
    (restarted : Log.Restarted s.blk.bio.disk b) : Between (nodes (whole b.bio.disk)
      (whole b.bio.disk).dino) [] [] (remount b) ∧
    Tree [] (nodes (whole b.bio.disk) (whole b.bio.disk).dino) T := by
  obtain ⟨V, D, at', rfl⟩ := h.at0
  have inv := restarted.inv
  have unsure : (whole b.bio.disk).unsure = ∅ := by
    ext c
    simp [Image.unsure, whole]
  have blk : At 0 [] [] (whole b.bio.disk) (Vol.remount b) := by
    refine ⟨?_, by simp, ?_, restarted.outstanding, restarted.committing, rfl⟩
    · rw [unsure]
      exact inv
    · intro c x _ hx
      cases hx
      exact inv.bio.view_of_clean List.not_mem_nil (Set.notMem_empty c)
  have ok : Ok (whole b.bio.disk) (whole b.bio.disk).dino (Vol.remount b).inode := by
    have none : ∀ ip, ¬ 0 < ((Vol.remount b).inode ip).ref := fun _ => Int.lt_irrefl 0
    exact ⟨at'.whole_laid restarted.disk, fun _ => Int.le_refl 0, fun ip hi => absurd hi (none ip),
      fun ip hi => absurd hi (none ip), fun ip _ hi => absurd hi (none ip),
      fun ip hi => absurd hi (none ip), fun _ _ _ => rfl, fun _ _ => .refl _⟩
  refine ⟨⟨⟨⟨_, _, [], ⟨blk, ok⟩, rfl, .nil META⟩, ?_⟩, inv.ctx.logged, restarted.clean⟩,
    at'.whole_tree restarted.disk tree⟩
  exact ⟨fun _ => rfl, by simp, by simp⟩

end Vol

end EasyXv6.Fs
