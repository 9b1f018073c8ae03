import EasyXv6.Fs.Format

set_option autoImplicit false

/-!
# Crashes of `fs_init`

The superblock is on the disk before the file system is. A crash in between leaves a disk that later
boots take for a file system although it has no root directory.
-/
namespace EasyXv6.Fs
open Lib

namespace Log

variable {W e d : ℕ → Block} {l l' : List ℕ} {ws : List (ℕ × Block)} {view : ℕ → Block}

theorem HeaderIs.unique {b : Block} (h : HeaderIs l b) (h' : HeaderIs l' b) : l = l' := by
  have len : l.length = l'.length := by
    have := h.n.symm.trans h'.n
    exact_mod_cast this
  apply List.ext_getElem len
  intro i hi hi'
  have := (h.block i hi).symm.trans (h'.block i hi')
  exact_mod_cast this

/-- The disk recovers to `W`, and the recovery leaves the superblock alone. -/
structure Pending (W e : ℕ → Block) : Prop where
  super : e 1 = W 1
  recoverable : Recoverable W e
  header : ∀ l, HeaderIs l (e 2) → 1 ∉ l

/-- Writes that leave the superblock alone and put a header of the blocks `l`, or an empty one. -/
def Spares (l : List ℕ) (ws : List (ℕ × Block)) : Prop :=
  ∀ w ∈ ws, w.1 ≠ 1 ∧ (w.1 = 2 → HeaderIs l w.2 ∨ HeaderIs [] w.2)

theorem Spares.atEveryCrash (h : Spares l ws) (hl : HeaderIs l (d 2) ∨ HeaderIs [] (d 2)) :
    AtEveryCrash (fun e => e 1 = d 1 ∧ (HeaderIs l (e 2) ∨ HeaderIs [] (e 2))) d ws := by
  apply AtEveryCrash.of_step
  · exact ⟨rfl, hl⟩
  · intro e w hw ⟨super, header⟩
    obtain ⟨h1, h2⟩ := h w hw
    constructor
    · rw [Function.update_of_ne (Ne.symm h1), super]
    · by_cases hw2 : w.1 = 2
      · rw [← hw2, Function.update_self]
        exact h2 hw2
      · rw [Function.update_of_ne (Ne.symm hw2)]
        exact header

theorem Pending.of_spares (h : Spares l ws) (hl : HeaderIs l (d 2) ∨ HeaderIs [] (d 2)) (out : 1 ∉ l)
    (super : d 1 = W 1) {k : ℕ} (recoverable : Recoverable W (applyWrites (ws.take k) d)) :
    Pending W (applyWrites (ws.take k) d) := by
  obtain ⟨same, header⟩ := h.atEveryCrash hl k
  refine ⟨same.trans super, recoverable, fun l' hl' => ?_⟩
  rcases header with header | header
  · rwa [hl'.unique header]
  · rw [hl'.unique header]
    exact List.not_mem_nil

/-- The writes of a recovery. -/
theorem spares_installs {clear : Block} (home : ∀ b ∈ l, ¬ InLog b) (out : 1 ∉ l) (hc : clear.headerN = 0) :
    Spares l (installs l e ++ [(2, clear)]) := by
  intro w hw
  rcases List.mem_append.mp hw with hw | hw
  · have mem : w.1 ∈ l := by
      rw [← installs_fst l e]
      exact List.mem_map_of_mem hw
    constructor
    · intro h1
      exact out (h1 ▸ mem)
    · intro h2
      exact absurd (by decide : InLog 2) (h2 ▸ home _ mem)
  · obtain rfl := List.mem_singleton.mp hw
    exact ⟨Nat.succ_ne_self 1, fun _ => Or.inr (.of_n hc)⟩

/-- The writes of a commit. -/
theorem CommitTrace.spares (h : CommitTrace l view ws) (home : ∀ b ∈ l, ¬ InLog b) (out : 1 ∉ l) :
    Spares l ws := by
  cases h with
  | empty _ =>
    intro w hw
    cases hw
  | full hd clear hh hc =>
    intro w hw
    rcases List.mem_append.mp hw with hw | hw
    · obtain ⟨i, _, hi⟩ := copies_fst (List.mem_map_of_mem hw)
      constructor
      · omega
      · omega
    rcases List.mem_cons.mp hw with rfl | hw
    · exact ⟨Nat.succ_ne_self 1, fun _ => Or.inl hh⟩
    rcases List.mem_append.mp hw with hw | hw
    · obtain ⟨b, hb, rfl⟩ := List.mem_map.mp hw
      constructor
      · intro h1
        exact out (h1 ▸ hb)
      · intro h2
        exact absurd (by decide : InLog 2) (h2 ▸ home _ hb)
    · obtain rfl := List.mem_singleton.mp hw
      exact ⟨Nat.succ_ne_self 1, fun _ => Or.inr (.of_n hc)⟩

/-- A commit of `n` blocks makes `2 * n + 2` writes; the header is the one after the copies. -/
theorem CommitTrace.length (h : CommitTrace l view ws) (hl : l ≠ []) : ws.length = 2 * l.length + 2 := by
  cases h with
  | empty h => exact absurd h hl
  | full hd clear _ _ =>
    simp only [copies, List.length_append, List.length_cons, List.length_map, List.length_mapIdx,
      List.length_nil]
    omega

theorem CommitTrace.atCommitPoint_iff (h : CommitTrace l view ws) (hl : l ≠ []) (k : ℕ) :
    atCommitPoint (ws.take k) = true ↔ l.length < k := by
  cases h with
  | empty h => exact absurd h hl
  | full hd clear _ _ =>
    have len : (copies l view).length = l.length := by simp [copies]
    constructor
    · intro hc
      by_contra hk
      rw [List.take_append_of_le_length (by omega),
        not_atCommitPoint_of_copies (fun w => List.mem_of_mem_take)] at hc
      cases hc
    · intro hk
      obtain ⟨j, hj⟩ : ∃ j, k - (copies l view).length = j + 1 := ⟨_, (Nat.succ_pred (by omega)).symm⟩
      rw [List.take_append, List.take_of_length_le (by omega), hj, List.take_succ_cons]
      exact atCommitPoint_of_mem (d := hd) (by simp)

theorem Pending.congr {V : ℕ → Block} (h : Pending W e) (same : ∀ b, ¬ InLog b → W b = V b) :
    Pending V e :=
  ⟨h.super.trans (same 1 (by decide)), h.recoverable.congr same, h.header⟩

/-- A disk whose log is empty. -/
theorem Pending.of_clean (hn : (e 2).headerN = 0) : Pending e e := by
  refine ⟨rfl, .of_clean hn fun _ _ => rfl, fun l hl => ?_⟩
  rw [hl.unique (.of_n hn)]
  exact List.not_mem_nil

end Log

namespace Vol
open Log

variable {d W F : ℕ → Block} {s t : Vol} {r : ℕ} {E : String → Vol → Prop}

/-- The disk once the superblock is on it. -/
def supered (d : ℕ → Block) : ℕ → Block := Function.update d 1 ((d 1).putSuperblock newSuper)

theorem supered_super (d : ℕ → Block) : (supered d 1).superblock = formatted := by
  rw [supered, Function.update_self]
  exact Block.superblock_putSuperblock _ (by decide) (by decide) (by decide) (by decide) (by decide)
    (by decide) (by decide) (by decide)

theorem supered_of_ne {b : ℕ} (hb : b ≠ 1) : supered d b = d b := Function.update_of_ne hb ..

/-- What a crash of a transaction leaves. -/
theorem Committed.pending {l : List ℕ} {ws : List (ℕ × Block)} (h : Committed l W s t ws) (hl : l ≠ [])
    (home : ∀ b ∈ l, INODES ≤ b) (clean : (s.blk.bio.disk 2).headerN = 0) (k : ℕ) :
    Pending (if l.length < k then t.blk.bio.disk else s.blk.bio.disk)
      (applyWrites (ws.take k) s.blk.bio.disk) := by
  obtain ⟨view, trace⟩ := h.trace
  have out : 1 ∉ l := fun hm => absurd (home 1 hm) (by decide)
  have away : ∀ b ∈ l, ¬ InLog b := fun b hb => not_inLog_of_high (home b hb)
  have spares := trace.spares away out
  have start : HeaderIs l (s.blk.bio.disk 2) ∨ HeaderIs [] (s.blk.bio.disk 2) := Or.inr (.of_n clean)
  have super : t.blk.bio.disk 1 = s.blk.bio.disk 1 := by
    have last := (spares.atEveryCrash start).last
    rw [h.issued.disk]
    exact last.1
  have crash := h.crash k
  have point := trace.atCommitPoint_iff hl k
  refine Pending.of_spares spares start out ?_ ?_
  · split
    next => exact super.symm
    next => rfl
  · by_cases hk : l.length < k
    · rw [if_pos (point.mpr hk)] at crash
      rwa [if_pos hk]
    · rw [if_neg fun hc => hk (point.mp hc)] at crash
      rwa [if_neg hk]

/-- What a crash after `k` writes leaves: up to the tenth the disk has a superblock but no root. -/
def Left (d F : ℕ → Block) (k : ℕ) (e : ℕ → Block) : Prop :=
  if k = 0 then e = d
  else if k < 10 then Pending (supered d) e ∨ Pending (afterMark (supered d)) e
  else Pending F e

/-- The state before the second transaction of `fs_init`, with the writes that led to it. -/
structure Prepared (d : ℕ → Block) (s₂ s₃ : Vol) (clear : Block) (ws₁ : List (ℕ × Block)) : Prop where
  idle₂ : Idle s₂
  issued₂ : Issued [(1, (d 1).putSuperblock newSuper), (2, clear)] (boot d) s₂.blk
  idle₃ : Idle s₃
  done₁ : Committed [BITMAP] (afterMark s₂.blk.bio.disk) s₂ s₃ ws₁

section Prepared

variable {s₂ s₃ : Vol} {clear : Block} {ws₁ : List (ℕ × Block)} (h : Prepared d s₂ s₃ clear ws₁)
include h

theorem Prepared.disk₂ : s₂.blk.bio.disk = Function.update (supered d) 2 clear := h.issued₂.disk

theorem Prepared.same₂ {b : ℕ} (hb : ¬ InLog b) : s₂.blk.bio.disk b = supered d b := by
  rw [h.disk₂, Function.update_of_ne]
  rintro rfl
  exact hb (by decide)

theorem Prepared.disk₃ (b : ℕ) (hb : ¬ InLog b) : s₃.blk.bio.disk b = afterMark (supered d) b := by
  rw [h.done₁.disk b hb]
  exact afterMark_congr (fun _ => h.same₂) b hb

theorem Prepared.inodes : s₃.blk.bio.disk INODES = d INODES := by
  rw [h.disk₃ INODES (by decide), afterMark, Function.update_of_ne (by decide), supered_of_ne (by decide)]

theorem Prepared.bit (b : ℕ) :
    (s₃.blk.bio.disk BITMAP).bit b = if b ≤ BITMAP then true else (d BITMAP).bit b := by
  rw [h.disk₃ BITMAP (by decide), afterMark, Function.update_self, bit_markLow, supered_of_ne (by decide)]

end Prepared

/-- `fs_init` on a disk without a file system, up to its second transaction. -/
theorem fsInit_prepared (magic : (d 1).superblock.magic ≠ FSMAGIC) (header : (d 2).headerN = 0)
    {Q : Unit → Vol → Prop} (next : ∀ s₂ s₃ clear ws₁, Prepared d s₂ s₃ clear ws₁ →
      Comp.Sat (beginOp >>= fun _ => makeRoot ROOTDEV >>= fun _ => endOp) s₃ E Q) :
    Comp.Sat (fsInit ROOTDEV) (powerOn d) E Q := by
  unfold fsInit
  refine .call readSuper_sat ?_
  intro _ s ⟨early, sb⟩
  refine .get (.ite (fun _ => ?_) fun bad => ?_)
  · refine .call (writeSuper_sat early) ?_
    intro _ s₁ ⟨early₁, sb₁⟩
    have clean₁ : (applyWrites [(1, (d 1).putSuperblock newSuper)] d 2).headerN = 0 := header
    refine .call (logInit_sat early₁ sb₁ (.of_n clean₁) (by simp) (by simp)) ?_
    intro _ s₂ ⟨idle₂, _, clear, _, issued₂⟩
    refine open_known (P := fun l W => l = [BITMAP] ∧ W = afterMark s₂.blk.bio.disk) idle₂
      (markSystem_silent ROOTDEV) (fun t ht refs => (markSystem_sat ht).post fun _ u hu =>
        ⟨⟨_, _, ⟨rfl, rfl⟩, hu.1⟩, fun jp => by rw [hu.2.inode]; exact refs jp⟩) ?_
    intro u l V ⟨hl, hV⟩ hu refs quiet
    subst hl hV
    refine .call (close_known idle₂ hu refs quiet) ?_
    intro _ s₃ ⟨idle₃, ws₁, done₁⟩
    exact next s₂ s₃ clear ws₁ ⟨idle₂, issued₂, idle₃, done₁⟩
  · rw [sb] at bad
    exact absurd (not_not.mp bad) magic

/-- `fs_init` on a disk without a file system. -/
theorem fsInit_new_sat (magic : (d 1).superblock.magic ≠ FSMAGIC) (header : (d 2).headerN = 0)
    (free : ((d INODES).dinode ROOTINO).type = 0)
    (room : (∃ b < FSSIZE, BITMAP < b ∧ (d BITMAP).bit b = false) ∨ ∀ w t, E w t) :
    Comp.Sat (fsInit ROOTDEV) (powerOn d) E fun _ t => Idle t ∧ ∃ r F ws,
      Rooted (afterMark (supered d)) r F ∧ (∀ b, ¬ InLog b → t.blk.bio.disk b = F b) ∧
        Issued ws (boot d) t.blk ∧ ∀ k, Left d F k (applyWrites (ws.take k) d) := by
  refine fsInit_prepared magic header ?_
  intro s₂ s₃ clear ws₁ h
  refine open_known (P := fun l W => ∃ r, Rooted s₃.blk.bio.disk r W ∧ l = [INODES, BITMAP, r]) h.idle₃
    (makeRoot_silent ROOTDEV) (fun t ht refs => (makeRoot_sat ht refs (fun b hb => by rw [h.bit, if_pos hb])
      (h.inodes ▸ free) (room.imp ?_ id)).post fun _ u hu => ⟨?_, hu.2⟩) ?_
  · intro ⟨b, lt, high, unused⟩
    exact ⟨b, lt, by rwa [h.bit, if_neg (by omega)]⟩
  · obtain ⟨⟨r, F, hF, at'⟩, _⟩ := hu
    exact ⟨_, F, ⟨r, hF, rfl⟩, at'⟩
  intro u l F ⟨r, hF, hl⟩ hu refs quiet
  subst hl
  refine (close_known h.idle₃ hu refs quiet).post ?_
  intro _ t ⟨idle, ws₂, done₂⟩
  refine ⟨idle, r, F, _, hF.congr h.disk₃, done₂.disk,
    h.issued₂.append (h.done₁.issued.append done₂.issued), fun k => ?_⟩
  obtain ⟨view₁, trace₁⟩ := h.done₁.trace
  have len₁ : ws₁.length = 4 := trace₁.length (by simp)
  have crash₁ := h.done₁.pending (by simp) (by decide) h.idle₂.clean
  have home : ∀ b ∈ [INODES, BITMAP, r], INODES ≤ b := by
    have := hF.high
    simp only [List.mem_cons, List.not_mem_nil, or_false, INODES, BITMAP] at *
    omega
  have crash₂ := done₂.pending (by simp) home h.idle₃.clean
  rcases k with _ | _ | k
  · exact (if_pos rfl).mpr rfl
  · exact Or.inl (.of_clean (show (supered d 2).headerN = 0 from header))
  -- the superblock and the empty header are on the disk
  change Left d F (k + 2) (applyWrites ((ws₁ ++ ws₂).take k)
    (Function.update (supered d) 2 clear))
  rw [← h.disk₂]
  by_cases hk : k ≤ 4
  · rw [List.take_append_of_le_length (by omega), Left, if_neg (by omega), if_pos (by omega)]
    have at₁ := crash₁ k
    split at at₁
    next => exact Or.inr (at₁.congr h.disk₃)
    next => exact Or.inl (at₁.congr fun _ => h.same₂)
  · rw [List.take_append, List.take_of_length_le (by omega), applyWrites_append, ← h.done₁.issued.disk, len₁,
      Left, if_neg (by omega)]
    have at₂ := crash₂ (k - 4)
    split at at₂
    next late =>
      have late : 3 < k - 4 := late
      rw [if_neg (by omega)]
      exact at₂.congr done₂.disk
    next early =>
      have early : ¬ 3 < k - 4 := early
      rw [if_pos (by omega)]
      exact Or.inr (at₂.congr h.disk₃)

/-- `fs_init` on a disk that recovers to `W`, with the superblock. -/
theorem fsInit_pending_sat (h : Pending W d) (super : (W 1).superblock = formatted) :
    Comp.Sat (fsInit ROOTDEV) (powerOn d) E fun _ t => Idle t ∧
      (∀ b, ¬ InLog b → t.blk.bio.disk b = W b) ∧ ∃ ws, Issued ws (boot d) t.blk ∧
        ∀ k, Pending W (applyWrites (ws.take k) d) := by
  obtain ⟨l, hl, short, home, same⟩ := h.recoverable
  have away : ∀ b ∈ l, ¬ InLog b := fun b hb => (home b hb).2
  refine (fsInit_mount_sat (h.super ▸ super) hl short home).post ?_
  intro _ t ⟨idle, _, clear, hclear, issued⟩
  have crash := (crash_installing hl short home hclear).imp fun e he => he.congr same
  have spares := spares_installs (e := d) away (h.header l hl) hclear
  refine ⟨idle, fun b hb => ?_, _, issued, fun k => ?_⟩
  · rw [issued.disk, applyWrites_append, applyWrites_cons, applyWrites_nil, Function.update_of_ne]
    · exact same b hb
    · rintro rfl
      exact hb (show InLog 2 by decide)
  · exact .of_spares spares (Or.inl hl) (h.header l hl) h.super (crash k)

/-- Boots from the disk `d`, all but the last cut short by a crash; `cuts` are the numbers of writes
    that came before the crashes. -/
inductive Inits : (ℕ → Block) → List ℕ → Vol → Prop
  | returned {d : ℕ → Block} {s : Vol} (h : (fsInit ROOTDEV).run (powerOn d) = .ok () s) : Inits d [] s
  | crashed {d : ℕ → Block} {done : List (ℕ × Block)} {cuts : List ℕ} {s : Vol}
      (h : done <+: ((fsInit ROOTDEV).run (powerOn d)).state.blk.bio.issued)
      (next : Inits (applyWrites done d) cuts s) : Inits d (done.length :: cuts) s

/-- Every later boot leads to the contents that the disk recovers to. -/
theorem Inits.pending {cuts : List ℕ} (h : Inits d cuts s) (pending : Pending W d)
    (super : (W 1).superblock = formatted) : Idle s ∧ ∀ b, ¬ InLog b → s.blk.bio.disk b = W b := by
  induction h with
  | returned run =>
    have spec : Comp.Sat _ _ (fun _ _ => False) _ := fsInit_pending_sat pending super
    obtain ⟨idle, disk, -⟩ := spec.ok run
    exact ⟨idle, disk⟩
  | @crashed d done cuts s cut _ ih =>
    apply ih
    have spec : Comp.Sat _ _ (fun _ _ => False) _ := fsInit_pending_sat pending super
    obtain ⟨_, t, run, -, -, ws, issued, crash⟩ := spec.returns fun _ _ => id
    rw [run] at cut
    have all : t.blk.bio.issued = ws := issued.issued
    have part : done <+: ws := all ▸ cut
    rw [List.prefix_iff_eq_take.mp part]
    exact crash _

/-- A disk without a file system, on which no inode and no block past the bitmap is in use. -/
structure Clear (d : ℕ → Block) : Prop where
  magic : (d 1).superblock.magic ≠ FSMAGIC
  header : (d 2).headerN = 0
  bits : ∀ b, BITMAP < b → b < BPB → (d BITMAP).bit b = false
  free : ∀ i < NINODES, ((d (INODES + i / IPB)).dinode (i % IPB)).type = 0

/-- What the blocks of a new file system are like once the log is installed. -/
theorem Rooted.isFormatted (h : Rooted (afterMark (supered d)) r F)
    (bits : ∀ b, BITMAP < b → b < BPB → (d BITMAP).bit b = false)
    (free : ∀ i < NINODES, i ≠ ROOTINO → ((d (INODES + i / IPB)).dinode (i % IPB)).type = 0)
    {D : ℕ → Block} (header : (D 2).headerN = 0) (same : ∀ b, ¬ InLog b → D b = F b) : Formatted D r := by
  have bitmap : afterMark (supered d) BITMAP = markLow BITMAP (d BITMAP) := by
    rw [afterMark, Function.update_self, supered_of_ne (by decide)]
  have low : ∀ b, b ≠ BITMAP → b ≠ 1 → afterMark (supered d) b = d b := by
    intro b hb h1
    rw [afterMark, Function.update_of_ne hb, supered_of_ne h1]
  have high := h.high
  have home : INODES ≤ r := by
    simp only [INODES, BITMAP] at *
    omega
  have inodes : F INODES = D INODES := (same INODES (by decide)).symm
  have entry : ∀ off nm, slotOf (entryAt (F r) off) = some (ROOTINO, nm) →
      (D r).num off 8 = ROOTINO ∧ cstr (fun i => (D r).byte (off + 8 + i)) DIRSIZ = nm := by
    intro off nm hs
    rw [slotOf_entryAt, ← same r (not_inLog_of_high home)] at hs
    by_cases h0 : (D r).num off 8 = 0
    · rw [if_pos h0] at hs
      exact (Option.some_ne_none _ hs.symm).elim
    · rw [if_neg h0, Option.some.injEq, Prod.mk.injEq] at hs
      exact hs
  refine ⟨header, high, h.lt, fun b hb => ?_, inodes ▸ h.root, fun i hi hne => ?_, ?_, ?_⟩
  · have lt := Nat.lt_trans h.lt (by decide : FSSIZE < BPB)
    rw [same BITMAP (by decide), h.bitmap, bitmap, Block.bit_setBit lt, bit_markLow]
    by_cases h1 : b = r
    · simp [h1]
    · by_cases h2 : b ≤ BITMAP
      · simp [h2]
      · simp [h1, h2, bits b (by omega) hb]
  · have below := Image.inodeBlock_le hi
    have apart : INODES + i / IPB ≠ r ∧ INODES + i / IPB ≠ BITMAP ∧ INODES + i / IPB ≠ 1 :=
      ⟨Nat.ne_of_lt (Nat.lt_trans below high), Nat.ne_of_lt below,
        Nat.ne_of_gt (Nat.lt_of_lt_of_le (by decide) (Nat.le_add_right INODES _))⟩
    by_cases hb : INODES + i / IPB = INODES
    · have k : i % IPB ≠ ROOTINO := by
        simp only [INODES, IPB, BSIZE, DINODE_SIZE, ROOTINO] at *
        omega
      have old := free i hi hne
      rw [hb] at old ⊢
      rw [← inodes, h.inodes _ k, low INODES (by decide) (by decide)]
      exact old
    · have out := not_inLog_of_high (Nat.le_add_right INODES (i / IPB))
      rw [same _ out, h.others _ out hb apart.2.1 apart.1, low _ apart.2.1 apart.2.2]
      exact free i hi hne
  · simpa using entry 0 _ h.dot
  · simpa using entry DIRENT_SIZE _ h.dotdot

theorem Rooted.super (h : Rooted (afterMark (supered d)) r F) : (F 1).superblock = formatted := by
  have apart : 1 ≠ r := Nat.ne_of_lt (Nat.lt_trans (by decide) h.high)
  rw [h.others 1 (by decide) (by decide) (by decide) apart, afterMark, Function.update_of_ne (by decide),
    supered_super]

/-- Without the root directory nothing can be mounted. -/
theorem not_mounted_of_free (free : ((s.blk.bio.disk INODES).dinode ROOTINO).type = 0) : ¬ Mounted s := by
  intro h
  obtain ⟨r, formatted⟩ := h.disk
  have root : ((s.blk.bio.disk INODES).dinode ROOTINO).type = T_DIR := congrArg Dinode.type formatted.root
  exact absurd (root.symm.trans free) (by decide)

/-- The disk that recovers to one with a superblock but no root stays so. -/
theorem Inits.not_mounted {cuts : List ℕ} (h : Inits d cuts s) (pending : Pending W d)
    (super : (W 1).superblock = formatted) (free : ((W INODES).dinode ROOTINO).type = 0) : ¬ Mounted s := by
  obtain ⟨-, disk⟩ := h.pending pending super
  apply not_mounted_of_free
  rw [disk INODES (by decide)]
  exact free

theorem Clear.returns (h : Clear d) : ∃ t, (fsInit ROOTDEV).run (powerOn d) = .ok () t ∧ Idle t ∧ ∃ r F ws,
    Rooted (afterMark (supered d)) r F ∧ (∀ b, ¬ InLog b → t.blk.bio.disk b = F b) ∧
      Issued ws (boot d) t.blk ∧ ∀ k, Left d F k (applyWrites (ws.take k) d) := by
  have room : ∃ b < FSSIZE, BITMAP < b ∧ (d BITMAP).bit b = false :=
    ⟨46, by decide, by decide, h.bits 46 (by decide) (by decide)⟩
  have spec : Comp.Sat _ _ (fun _ _ => False) _ :=
    fsInit_new_sat h.magic h.header (h.free ROOTINO (by decide)) (Or.inl room)
  obtain ⟨_, t, run, post⟩ := spec.returns fun _ _ => id
  exact ⟨t, run, post⟩

/-- However often crashes cut `fs_init` short on an empty disk, the boot that completes mounts a file
    system exactly if the first crash that came after a write came after the tenth. -/
theorem format_crash_iff {cuts : List ℕ} (clear : Clear d) (h : Inits d cuts s) :
    Mounted s ↔ ∀ k, cuts.find? (0 < ·) = some k → 10 ≤ k := by
  induction h with
  | returned run =>
    obtain ⟨t, run', idle, r, F, ws, root, disk, -⟩ := clear.returns
    cases run.symm.trans run'
    have formatted := root.isFormatted clear.bits (fun i hi _ => clear.free i hi) idle.clean disk
    constructor
    · intro _ k hk
      cases hk
    · intro _
      exact ⟨idle.at0, ⟨r, formatted⟩, idle.refs⟩
  | @crashed d done cuts s cut next ih =>
    by_cases none : done = []
    · subst none
      exact ih clear
    have pos : 0 < done.length := List.length_pos_of_ne_nil none
    have first : ∀ k, (done.length :: cuts).find? (0 < ·) = some k ↔ done.length = k := by
      intro k
      rw [List.find?_cons_of_pos (by simpa using pos), Option.some.injEq]
    obtain ⟨t, run, idle, r, F, ws, root, disk, issued, left⟩ := clear.returns
    rw [run] at cut
    have all : t.blk.bio.issued = ws := issued.issued
    have part : done <+: ws := all ▸ cut
    have crash := left done.length
    rw [← List.prefix_iff_eq_take.mp part, Left, if_neg (by omega)] at crash
    have inode : ((supered d INODES).dinode ROOTINO).type = 0 := by
      rw [supered_of_ne (by decide)]
      exact clear.free ROOTINO (by decide)
    by_cases late : done.length < 10
    · have bare : ¬ Mounted s := by
        rw [if_pos late] at crash
        rcases crash with pending | pending
        · exact next.not_mounted pending (supered_super d) inode
        · refine next.not_mounted pending ?_ ?_
          · rw [afterMark, Function.update_of_ne (by decide), supered_super]
          · rw [afterMark, Function.update_of_ne (by decide)]
            exact inode
      constructor
      · intro mounted
        exact absurd mounted bare
      · intro all
        exact absurd (all _ ((first _).mpr rfl)) (by omega)
    · rw [if_neg late] at crash
      obtain ⟨idle', disk'⟩ := next.pending crash root.super
      have formatted := root.isFormatted clear.bits (fun i hi _ => clear.free i hi) idle'.clean disk'
      constructor
      · intro _ k hk
        rw [← (first k).mp hk]
        omega
      · intro _
        exact ⟨idle'.at0, ⟨r, formatted⟩, idle'.refs⟩

section Leftover

theorem any_sat {α : Type} (m : Comp Vol α) (s : Vol) : Comp.Sat m s (fun _ _ => True) fun _ _ => True :=
  .of_outcome (fun _ _ _ => trivial) fun _ _ _ => trivial

/-- The inode that a round of `ialloc` returns is that of the round. -/
theorem iallocAt_inum (dev : ℕ) (type : BitVec 16) (i : ℕ) : Comp.Sat (iallocAt dev type i) s
    (fun _ _ => True) fun x t => ∀ ip, x = some ip → (t.inode ip).inum = i := by
  have got : ∀ t, Comp.Sat (iget dev i) t (fun _ _ => True) fun ip u => (u.inode ip).inum = i := by
    intro t
    unfold iget
    refine .get ?_
    split
    next ip hip =>
      have found : 0 < (t.inode ip).ref ∧ (t.inode ip).dev = dev ∧ (t.inode ip).inum = i := by
        simpa using List.find?_some hip
      refine .modify (.pure ?_)
      rw [setInode_self]
      exact found.2.2
    next =>
      split
      next ip _ =>
        refine .modify (.pure ?_)
        rw [setInode_self]
      next => exact .halt trivial
  unfold iallocAt
  refine .get (.call (any_sat _ _) fun bp t _ => .call (any_sat _ _) fun b u _ =>
    .ite (fun _ => ?_) fun _ => ?_)
  · refine .call (any_sat _ _) fun _ v _ => .call (any_sat _ _) fun _ v _ => .call (any_sat _ _) fun _ v _ =>
      ?_
    refine .call (got v) fun ip w hw => .modify (.pure ?_)
    intro jp hj
    cases hj
    rw [setInode_self]
    exact hw
  · refine .call (any_sat _ _) fun _ v _ => .pure fun ip hip => ?_
    cases hip

/-- Where the first inode is in use, `ialloc` returns another. -/
theorem ialloc_other (h : At 1 [] [] (whole W) s) (used : ((W INODES).dinode ROOTINO).type ≠ 0) :
    Comp.Sat (ialloc ROOTDEV T_DIR) s (fun _ _ => True) fun ip t => (t.inode ip).inum ≠ ROOTINO := by
  have block : IBLOCK ROOTINO s.sb = INODES := by
    rw [h.sb]
    rfl
  have inodes : List.range' 1 (s.sb.ninodes - 1) = ROOTINO :: List.range' 2 198 := by
    rw [h.sb]
    rfl
  have first : Comp.Sat (iallocAt ROOTDEV T_DIR ROOTINO) s (fun _ _ => True) fun x t => x = none := by
    unfold iallocAt
    refine .get ?_
    rw [block]
    refine peek_sat h (by decide) (by decide) (by decide) ?_
    intro bp s₁ h₁ only₁
    refine .ite (fun bad => absurd bad used) fun _ => .call (any_sat _ _) fun _ v _ => .pure rfl
  have rest : ∀ t, Comp.Sat (Comp.firstSome (iallocAt ROOTDEV T_DIR) (List.range' 2 198)) t
      (fun _ _ => True) fun x u => ∀ ip, x = some ip → (u.inode ip).inum ≠ ROOTINO := by
    intro t
    refine Comp.Sat.firstSome (fun xs _ => ∀ i ∈ xs, i ≠ ROOTINO) ?_ ?_ ?_
    · intro i hi
      have := (List.mem_range'_1.mp hi).1
      simp only [ROOTINO]
      omega
    · intro i is u bound
      refine (iallocAt_inum ROOTDEV T_DIR i).post ?_
      intro x v hx
      cases x with
      | none => exact fun j hj => bound j (List.mem_cons_of_mem _ hj)
      | some ip =>
        intro jp hj
        cases hj
        rw [hx ip rfl]
        exact bound i List.mem_cons_self
    · intro u _ ip hip
      cases hip
  unfold ialloc
  refine .get ?_
  rw [inodes]
  refine .bind (.call first ?_)
  intro x t hx
  subst hx
  refine (rest t).post ?_
  intro y u hy
  cases y with
  | none => exact .halt trivial
  | some ip => exact .pure (hy ip rfl)

/-- Where the first inode is in use, `fs_init` panics. -/
theorem makeRoot_used (h : At 1 [] [] (whole W) s) (used : ((W INODES).dinode ROOTINO).type ≠ 0) :
    Comp.Sat (makeRoot ROOTDEV) s (fun _ _ => True) fun _ _ => False := by
  unfold makeRoot
  refine .call (ialloc_other h used) ?_
  intro ip t other
  exact .gets (.ite (fun _ => .halt trivial) fun bad => absurd (not_not.mp bad) other)

/-- The blocks of a file system that `fs_init` can make: the bitmap and the inodes are empty. -/
theorem Rooted.leftover (h : Rooted (afterMark (supered d)) r F) {r' : ℕ} {D : ℕ → Block}
    (formatted : Formatted D r') (same : ∀ b, ¬ InLog b → D b = F b) :
    (∀ b, BITMAP < b → b < BPB → (d BITMAP).bit b = false) ∧
      ∀ i < NINODES, i ≠ ROOTINO → ((d (INODES + i / IPB)).dinode (i % IPB)).type = 0 := by
  have bitmap : afterMark (supered d) BITMAP = markLow BITMAP (d BITMAP) := by
    rw [afterMark, Function.update_self, supered_of_ne (by decide)]
  have low : ∀ b, b ≠ BITMAP → b ≠ 1 → afterMark (supered d) b = d b := by
    intro b hb h1
    rw [afterMark, Function.update_of_ne hb, supered_of_ne h1]
  have high := h.high
  have lt := Nat.lt_trans h.lt (by decide : FSSIZE < BPB)
  have bits : ∀ b < BPB, (if b = r then true else if b ≤ BITMAP then true else (d BITMAP).bit b) =
      decide (b ≤ BITMAP ∨ b = r') := by
    intro b hb
    rw [← formatted.bits b hb, same BITMAP (by decide), h.bitmap, bitmap, Block.bit_setBit lt, bit_markLow]
  have unused : (d BITMAP).bit r = false := by
    have clear := h.clear
    rwa [bitmap, bit_markLow, if_neg (by omega)] at clear
  have own : r' = r := by
    have := bits r lt
    simp at this
    omega
  constructor
  · intro b hb hlt
    by_cases hr : b = r
    · rw [hr]
      exact unused
    · have := bits b hlt
      rw [if_neg hr, if_neg (by omega)] at this
      rw [this, decide_eq_false_iff_not]
      omega
  · intro i hi hne
    have out := not_inLog_of_high (Nat.le_add_right INODES (i / IPB))
    have below := Image.inodeBlock_le hi
    have apart : INODES + i / IPB ≠ r ∧ INODES + i / IPB ≠ BITMAP ∧ INODES + i / IPB ≠ 1 :=
      ⟨Nat.ne_of_lt (Nat.lt_trans below high), Nat.ne_of_lt below,
        Nat.ne_of_gt (Nat.lt_of_lt_of_le (by decide) (Nat.le_add_right INODES _))⟩
    have free := formatted.free i hi hne
    rw [same _ out] at free
    by_cases hb : INODES + i / IPB = INODES
    · have k : i % IPB ≠ ROOTINO := by
        simp only [INODES, IPB, BSIZE, DINODE_SIZE, ROOTINO] at *
        omega
      rw [hb] at free ⊢
      rw [h.inodes _ k, low INODES (by decide) (by decide)] at free
      exact free
    · rw [h.others _ out hb apart.2.1 apart.1, low _ apart.2.1 apart.2.2] at free
      exact free

/-- On a disk without a superblock and with an empty log, `fs_init` makes a file system exactly if the
    bits past those of the system are clear and every inode is free. -/
theorem format_iff (magic : (d 1).superblock.magic ≠ FSMAGIC) (header : (d 2).headerN = 0) :
    (∃ s, (fsInit ROOTDEV).run (powerOn d) = .ok () s ∧ Mounted s) ↔ Clear d := by
  constructor
  · intro ⟨s, run, mounted⟩
    obtain ⟨r', formatted⟩ := mounted.disk
    by_cases free : ((d INODES).dinode ROOTINO).type = 0
    · have spec : Comp.Sat _ _ (fun _ _ => True) _ :=
        fsInit_new_sat magic header free (Or.inr fun _ _ => trivial)
      obtain ⟨-, r, F, ws, root, disk, -⟩ := spec.ok run
      obtain ⟨bits, others⟩ := root.leftover formatted disk
      refine ⟨magic, header, bits, fun i hi => ?_⟩
      by_cases hi1 : i = ROOTINO
      · rw [hi1]
        exact free
      · exact others i hi hi1
    · have spec : Comp.Sat (fsInit ROOTDEV) (powerOn d) (fun _ _ => True) fun _ _ => False := by
        refine fsInit_prepared magic header ?_
        intro s₂ s₃ clear ws₁ h
        refine .call (beginOp_known h.idle₃.at0) ?_
        intro _ t ⟨_, at'⟩
        exact .call (makeRoot_used at' (h.inodes.symm ▸ free)) fun _ _ no => no.elim
      exact (spec.ok run).elim
  · intro clear
    obtain ⟨t, run, idle, r, F, ws, root, disk, -⟩ := clear.returns
    have formatted := root.isFormatted clear.bits (fun i hi _ => clear.free i hi) idle.clean disk
    exact ⟨t, run, idle.at0, ⟨r, formatted⟩, idle.refs⟩

end Leftover

section Example

/-- A new disk. -/
def blankDisk : ℕ → Block := fun _ => Block.zero

theorem blankDisk_clear : Clear blankDisk where
  magic := by simp [blankDisk, Block.superblock, Block.zero]
  header := by
    simp only [blankDisk, Block.headerN, Block.zero, Bytes.num_zero]
    rfl
  bits := fun b _ _ => by simp [blankDisk, Block.bit, Block.zero]
  free := fun i _ => by simp [blankDisk, Block.dinode, Block.zero]

theorem format_blank : ∃ s, (fsInit ROOTDEV).run (powerOn blankDisk) = .ok () s ∧ Mounted s :=
  (format_iff blankDisk_clear.magic blankDisk_clear.header).mpr blankDisk_clear

/-- The first write, that of the superblock. -/
def exampleSuper : List (ℕ × Block) := ((fsInit ROOTDEV).run (powerOn blankDisk)).state.blk.bio.issued.take 1

/-- What the boot after a crash makes of the disk that has only the superblock. -/
def exampleReboot : Vol := ((fsInit ROOTDEV).run (powerOn (applyWrites exampleSuper blankDisk))).state

theorem exampleReboot_inits : Inits blankDisk [1] exampleReboot := by
  have one : exampleSuper.length = 1 := by decide +kernel
  have value : ((fsInit ROOTDEV).run (powerOn (applyWrites exampleSuper blankDisk))).value = some () := by
    decide +kernel
  have cut : Inits blankDisk [exampleSuper.length] exampleReboot :=
    .crashed (List.take_prefix ..) (.returned (Outcome.eq_ok value))
  rwa [one] at cut

theorem format_crash_reboot : ¬ Mounted exampleReboot :=
  fun mounted => absurd ((format_crash_iff blankDisk_clear exampleReboot_inits).mp mounted 1 rfl) (by decide)

end Example

end Vol

end EasyXv6.Fs
