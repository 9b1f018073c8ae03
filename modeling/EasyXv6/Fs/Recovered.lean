import EasyXv6.Fs.Crash
import EasyXv6.Fs.Observed

set_option autoImplicit false

/-!
# Files after a crash

The recovery that a crash does not cut short leaves the files that the log and the disk said.
-/
namespace EasyXv6.Fs

namespace Log
open Lib Blk

/-- Recoveries from the disk `d`, each but the last cut short by a crash. -/
inductive Recovers : (ℕ → Block) → Blk → Prop
  | returned {d : ℕ → Block} {s : Blk} (h : (logInit ROOTDEV formatted).run (boot d) = .ok () s) :
      Recovers d s
  | crashed {d : ℕ → Block} {done : List (ℕ × Block)} {s : Blk}
      (h : CrashAfter (boot d) ((logInit ROOTDEV formatted).run (boot d)) done)
      (next : Recovers (applyWrites done d) s) : Recovers d s

variable {D d : ℕ → Block} {s : Blk}

theorem Recoverable.returns (h : Recoverable D d) : ∃ s, Recovers d s := by
  obtain ⟨s, -, run, -⟩ := logInit_returns h
  exact ⟨s, .returned run⟩

theorem Recoverable.disk (h : Recoverable D d) (r : Recovers d s) :
    ∀ b, ¬ InLog b → s.bio.disk b = D b := by
  induction r with
  | returned run =>
    obtain ⟨s', -, run', -, -, -, -, -, -, disk⟩ := logInit_returns h
    cases run'.symm.trans run
    exact disk
  | crashed cut _ ih =>
    obtain ⟨s', ws, run', -, -, -, issued, safe, -⟩ := logInit_returns h
    obtain ⟨ws', hws, done⟩ := cut
    rw [run'] at hws
    cases List.append_cancel_left (issued.issued.symm.trans hws)
    refine ih ?_
    rw [List.prefix_iff_eq_take.mp done]
    exact safe _

end Log

namespace Vol
open Lib

/-- The file of the inode `i` on the disk `d`. -/
def fileOn (d : ℕ → Block) (i : ℕ) : Node := (whole d).node ((whole d).dino i)

/-- Every byte of the file of the inode `i` is the same in the cache and on the disk. -/
def Clean (s : Vol) (i : ℕ) : Prop := ∀ q < (s.file i).size, ∃ a, s.Shows i q a

variable {N : ℕ → Node} {R : List Ref} {L : List (Fin NINODE)} {s : Vol} {V : Image}
  {D : ℕ → Dinode} {d : ℕ → Block} {i : ℕ}

/-- What a disk without a log says of an inode. -/
theorem FsAt.dino_whole (h : FsAt 0 [] [] V D s) (hi : Alloc D i)
    (same : ∀ b, ¬ Log.InLog b → d b = s.blk.bio.disk b) : (whole d).dino i = V.dino i := by
  rw [← h.onDisk_eq hi.2.1, onDisk, ← same _ (not_inLog_of_high (Nat.le_add_right ..))]
  rfl

theorem FsAt.ref_whole (h : FsAt 0 [] [] V D s) (hi : Alloc D i)
    (same : ∀ b, ¬ Log.InLog b → d b = s.blk.bio.disk b) {n : ℕ} (hn : n * BSIZE < (D i).size.toNat) :
    (whole d).ref ((whole d).dino i) (Image.dataRef n) = s.pointer i (Image.dataRef n) := by
  rw [h.dino_whole hi same, (h.ok.cached.synced i hi.2.1).dataRef hn, h.pointer_eq hi]
  by_cases hk : Image.dataRef n ≤ NDIRECT
  · rw [Image.ref_direct hk, Image.ref_direct hk]
  by_cases h0 : (D i).addr NDIRECT = 0
  · rw [Image.ref_entry_zero (by omega) h0, Image.ref_entry_zero (by omega) h0]
  · have high := Nat.le_of_lt (Nat.lt_trans (by decide)
      (h.ok.laid.addr_own hi (Nat.le_refl _) h0).1 : INODES < (D i).addr NDIRECT)
    have sure := h.ok.laid.indirect_sure hi h0
    have view : s.view _ = s.blk.bio.disk _ := h.blk.inv.bio.view_of_clean List.not_mem_nil sure
    rw [Image.ref_entry (by omega) h0, Image.ref_entry (by omega) h0, ← h.blk.block_eq high sure, view,
      ← same _ (not_inLog_of_high high)]
    rfl

/-- A file on the disk, byte by byte. -/
structure OnDisk (s : Vol) (i : ℕ) (x : Node) : Prop where
  type : x.type = (s.file i).type
  nlink : x.nlink = (s.file i).nlink
  size : x.size = (s.file i).size
  byte : ∀ q < (s.file i).size, x.byte q =
    some ((s.blk.bio.disk (s.pointer i (Image.dataRef (q / BSIZE)))).byte (q % BSIZE))

theorem byte_none (s : Vol) {i q : ℕ} (hq : ¬ q < (s.file i).size) : (s.file i).byte q = none := if_neg hq

theorem byte_some (s : Vol) {i q : ℕ} (hq : q < (s.file i).size) : (s.file i).byte q =
    some ((s.view (s.pointer i (Image.dataRef (q / BSIZE)))).byte (q % BSIZE)) := if_pos hq

theorem byte_fileOn_none (d : ℕ → Block) {i q : ℕ} (hq : ¬ q < (fileOn d i).size) :
    (fileOn d i).byte q = none := if_neg hq

/-- A disk that is that of `s` outside the log has its files. -/
theorem Between.fileOn_onDisk (h : Between N R L s) (used : s.Used i)
    (same : ∀ b, ¬ Log.InLog b → d b = s.blk.bio.disk b) : OnDisk s i (fileOn d i) := by
  obtain ⟨V, D, at', -⟩ := h.at0
  have alloc := at'.used_iff.mp used
  have current : s.current i = D i := at'.current_eq alloc.2.1
  have fields := (at'.ok.cached.synced i alloc.2.1).fields
  rw [← at'.dino_whole alloc same] at fields
  have size : (fileOn d i).size = (s.file i).size := by
    change ((whole d).dino i).size.toNat = (s.current i).size.toNat
    rw [fields.size, current]
  refine ⟨?_, ?_, size, fun q hq => ?_⟩
  · change ((whole d).dino i).type = (s.current i).type
    rw [fields.type, current]
  · change ((whole d).dino i).nlink = (s.current i).nlink
    rw [fields.nlink, current]
  · have hq' := hq
    change q < (s.current i).size.toNat at hq'
    rw [current] at hq'
    have below : q / BSIZE * BSIZE < (D i).size.toNat :=
      Nat.lt_of_le_of_lt (Nat.div_mul_le_self _ _) hq'
    have own := at'.ok.laid.own i alloc _ (Image.dataRef_lt (at'.ok.laid.index_lt alloc below))
      (at'.ok.laid.full i alloc _ below)
    rw [← at'.pointer_eq alloc] at own
    have home := not_inLog_of_high (Nat.le_of_lt (Nat.lt_trans (by decide) own.1))
    change (whole d).byteAt ((whole d).dino i) q = _
    have raw : (whole d).byteAt ((whole d).dino i) q = (whole d).rawByte ((whole d).dino i) q :=
      if_pos (size.symm ▸ hq : q < (fileOn d i).size)
    rw [raw, Image.rawByte, at'.ref_whole alloc same below, ← same _ home]
    rfl

theorem Clean.byte_eq (h : s.Clean i) {q : ℕ} (hq : q < (s.file i).size) :
    (s.blk.bio.disk (s.pointer i (Image.dataRef (q / BSIZE)))).byte (q % BSIZE) =
      (s.view (s.pointer i (Image.dataRef (q / BSIZE)))).byte (q % BSIZE) := by
  obtain ⟨a, hs⟩ := h q hq
  rw [hs.disk, hs.view]

/-- The contents on the disk are those in the cache exactly when every byte is. -/
theorem OnDisk.contents_iff {x : Node} (h : OnDisk s i x) (past : ∀ q, ¬ q < x.size → x.byte q = none) :
    x.byte = (s.file i).byte ↔ s.Clean i := by
  constructor
  · intro same q hq
    have byte := congrFun same q
    rw [h.byte q hq, s.byte_some hq] at byte
    exact ⟨_, rfl, Option.some.inj byte⟩
  · intro clean
    funext q
    by_cases hq : q < (s.file i).size
    · rw [h.byte q hq, s.byte_some hq, clean.byte_eq hq]
    · rw [s.byte_none hq, past q (by rwa [h.size])]

end Vol

end EasyXv6.Fs
