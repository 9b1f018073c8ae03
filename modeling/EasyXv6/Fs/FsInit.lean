import EasyXv6.Fs.Remount

set_option autoImplicit false

/-!
# `fs_init` (fs.c)

The superblock goes to the disk at once; the bitmap and the root directory follow as two transactions.
-/
namespace EasyXv6.Fs
open Lib

namespace Block

/-- `(struct superblock *)b` -/
def superblock (b : Block) : Superblock where
  magic := b.num 0 8
  size := b.num 8 8
  nblocks := b.num 16 8
  ninodes := b.num 24 8
  nlog := b.num 32 8
  logstart := b.num 40 8
  inodestart := b.num 48 8
  bmapstart := b.num 56 8

/-- `memmove(b, &sb, sizeof(sb))` -/
def putSuperblock (b : Block) (sb : Superblock) : Block :=
  (((((((b.putNum 0 8 sb.magic).putNum 8 8 sb.size).putNum 16 8 sb.nblocks).putNum 24 8
    sb.ninodes).putNum 32 8 sb.nlog).putNum 40 8 sb.logstart).putNum 48 8 sb.inodestart).putNum 56 8
    sb.bmapstart

theorem superblock_putSuperblock (b : Block) {sb : Superblock} (magic : sb.magic < 2 ^ 64)
    (size : sb.size < 2 ^ 64) (nblocks : sb.nblocks < 2 ^ 64) (ninodes : sb.ninodes < 2 ^ 64)
    (nlog : sb.nlog < 2 ^ 64) (logstart : sb.logstart < 2 ^ 64) (inodestart : sb.inodestart < 2 ^ 64)
    (bmapstart : sb.bmapstart < 2 ^ 64) : (b.putSuperblock sb).superblock = sb := by
  have self : ∀ (c : Block) (off v : ℕ), off + 8 ≤ BSIZE → v < 2 ^ 64 → (c.putNum off 8 v).num off 8 = v :=
    fun c off v ho hv => (Bytes.num_putNum_self c off 8 v ho).trans (Nat.mod_eq_of_lt hv)
  have past : ∀ (c : Block) (off off' v : ℕ), off + 8 ≤ off' → (c.putNum off' 8 v).num off 8 = c.num off 8 :=
    fun c off off' v ho => Bytes.num_putNum_of_disjoint c off' 8 v off 8 (Or.inl ho)
  unfold superblock putSuperblock
  simp only [past, self, magic, size, nblocks, ninodes, nlog, logstart, inodestart, bmapstart,
    Nat.reduceAdd, Nat.reduceLeDiff, BSIZE]

end Block

namespace Vol

def bwrite (bp : Fin NBUF) : Comp Vol Unit := onBlk (Blk.bwrite bp)

/-- `bp = bread(dev, 1); memmove(&sb, bp->data, sizeof(sb)); brelse(bp)` -/
def readSuper (dev : ℕ) : Comp Vol Unit := do
  let bp ← bread dev 1
  let d ← data bp
  .modify fun s => { s with sb := d.superblock }
  brelse bp

/-- The superblock of a new file system. -/
def newSuper : Superblock where
  magic := FSMAGIC
  size := FSSIZE
  nblocks := FSSIZE - 100
  ninodes := 200
  nlog := 30
  logstart := 2
  inodestart := 2 + 30
  bmapstart := 2 + 30 + 200 / IPB + 1

def writeSuper (dev : ℕ) : Comp Vol Unit := do
  .modify fun s => { s with sb := newSuper }
  let bp ← bread dev 1
  setData bp (·.putSuperblock newSuper)
  bwrite bp
  brelse bp

def logInit (dev : ℕ) : Comp Vol Unit := do
  let s ← .get
  onBlk (Log.logInit dev s.sb)

/-- The loop that marks the blocks up to that of the bitmap, with bit `b % BPB` for the block `b`. -/
def markLow (bmapstart : ℕ) (d : Block) : Block :=
  (List.range (bmapstart + 1)).foldl (fun d b => d.setBit (b % BPB)) d

/-- The first transaction: `markLow` of the bitmap block. -/
def markSystem (dev : ℕ) : Comp Vol Unit := do
  let s ← .get
  let bp ← bread dev s.sb.bmapstart
  setData bp (markLow s.sb.bmapstart)
  logWrite bp
  brelse bp

/-- The second transaction: the root directory. -/
def makeRoot (dev : ℕ) : Comp Vol Unit := do
  let root ← ialloc dev T_DIR
  let i ← .gets (·.inode root)
  if i.inum ≠ ROOTINO then
    .halt "fs_init: root inode != ROOTINO"
  else
    ilock root
    modInode root fun i => { i with d := { i.d with nlink := 2, size := 0 } }
    iupdate root
    let _ ← dirlink root [46] ROOTINO
    let _ ← dirlink root [46, 46] ROOTINO
    iunlockput root

/-- `fs_init`, after `bio_init`. -/
def fsInit (dev : ℕ) : Comp Vol Unit := do
  readSuper dev
  let s ← .get
  if s.sb.magic ≠ FSMAGIC then
    writeSuper dev
    logInit dev
    beginOp
    markSystem dev
    endOp
    beginOp
    makeRoot dev
    endOp
  else
    logInit dev

theorem newSuper_eq : newSuper = Log.formatted := rfl

/-- Memory at power-on, once `bio_init` has run. -/
def powerOn (disk : ℕ → Block) : Vol where
  blk := Log.boot disk
  sb := ⟨0, 0, 0, 0, 0, 0, 0, 0⟩
  inode := fun _ => ⟨0, 0, 0, false, .fresh 0⟩
  user := fun _ => none
  de := Bytes.zero

end Vol

namespace Log
open Blk

/-- `log_init` in memory that has only read and written single blocks: it installs the transaction that
    the header lists, and clears the header. -/
theorem logInit_of_inv {s : Blk} {l : List ℕ} (hb : s.bio.Inv ∅ [] []) (hl : HeaderIs l (s.bio.disk 2))
    (short : l.length ≤ 29) (home : ∀ b ∈ l, b < FSSIZE ∧ ¬ InLog b) :
    ∃ t clear, (logInit ROOTDEV formatted).run s = .ok () t ∧ Inv ∅ [] [] t ∧
      t.ctx.outstanding = s.ctx.outstanding ∧ t.ctx.committing = s.ctx.committing ∧
      clear.headerN = 0 ∧ Issued (installs l s.bio.disk ++ [(2, clear)]) s t := by
  let s0 : Blk := { s with ctx := { s.ctx with dev := ROOTDEV, start := 2, size := 30 } }
  obtain ⟨s1, h1, bio1, c1, o1, m1, i1⟩ := readHead_returns (s := s0) hb rfl rfl rfl hl short
  obtain ⟨s2, h2, bio2, c2, i2⟩ := installTrans_recovering bio1 c1 home short (by simp)
  rw [show s1.bio.disk = s.bio.disk from i1.disk] at i2
  let s3 : Blk := { s2 with ctx := s2.ctx.setLh { s2.ctx.lh with n := 0 } }
  have c3 : CtxIs [] s3.ctx := CtxIs.clear (c2 ▸ c1)
  obtain ⟨s4, h4, bio4, w4⟩ := writeHead_returns (s := s3) bio2 c3 (by decide) (by simp) (by simp)
  have clear := (HeaderIs.putHeader c3 (by simp) (by simp) (s2.bio.disk 2)).n
  rw [List.length_nil, Int.natCast_zero] at clear
  have ctx : s4.ctx = s2.ctx.setLh { s2.ctx.lh with n := 0 } := w4.ctx
  have i4 : Issued [(2, (s2.bio.disk 2).putHeader s3.ctx.lh)] s2 s4 :=
    ⟨w4.issued1.disk, w4.issued1.issued⟩
  have all := i1.append (i2.append i4)
  refine ⟨s4, _, ?_, ⟨bio4, ctx ▸ c3, List.nodup_nil, by simp, by simp, by simp⟩, ?_, ?_, clear,
    ⟨all.disk, all.issued⟩⟩
  · unfold logInit recoverFromLog
    refine (Comp.run_bind_of_ok (a := ()) (t := s0) ?_).trans ?_
    · unfold modCtx
      rw [Comp.run_modify, show i32 formatted.logstart = 2 from i32_of_small (by decide),
        show i32 formatted.nlog = 30 from i32_of_small (by decide)]
    refine (Comp.run_bind_of_ok h1).trans ?_
    refine (Comp.run_bind_of_ok h2).trans ?_
    refine (Comp.run_bind_of_ok clearHead_run).trans ?_
    exact h4
  · rw [ctx, LogCtx.setLh_outstanding, c2, o1]
  · rw [ctx, LogCtx.setLh_committing, c2, m1]

end Log

namespace Vol

variable {d : ℕ → Block} {ws : List (ℕ × Block)} {s : Vol} {l : List ℕ} {E : String → Vol → Prop}

/-- Between the steps of `fs_init` before the log is there: `ws` has been written. -/
structure Early (d : ℕ → Block) (ws : List (ℕ × Block)) (s : Vol) : Prop where
  bio : s.blk.bio.Inv ∅ [] []
  outstanding : s.blk.ctx.outstanding = 0
  committing : s.blk.ctx.committing = false
  issued : Log.Issued ws (Log.boot d) s.blk
  rest : s = { powerOn d with blk := s.blk, sb := s.sb }

/-- The file system is at rest, and no inode is cached. -/
structure Idle (s : Vol) : Prop where
  at0 : At 0 [] [] (whole s.blk.bio.disk) s
  clean : (s.blk.bio.disk 2).headerN = 0
  refs : ∀ ip, (s.inode ip).ref = 0

theorem At.of_inv (inv : Log.Inv ∅ [] [] s.blk) (outstanding : s.blk.ctx.outstanding = 0)
    (committing : s.blk.ctx.committing = false) (sb : s.sb = Log.formatted) :
    At 0 [] [] (whole s.blk.bio.disk) s := by
  have unsure : Image.unsure (whole s.blk.bio.disk) = ∅ := by
    apply Set.eq_empty_of_forall_notMem
    intro c hc
    cases hc
  refine ⟨?_, by simp, fun c e _ he => ?_, outstanding, committing, sb⟩
  · change Log.Inv (Image.unsure (whole s.blk.bio.disk)) [] [] s.blk
    rwa [unsure]
  · cases he
    exact inv.bio.view_of_clean (by simp) (by simp)

theorem onBio_run {α : Type} {m : Comp Bio α} {a : α} {t : Bio} (h : m.run s.blk.bio = .ok a t) :
    (onBlk (Blk.liftBio m)).run s = .ok a { s with blk := { s.blk with bio := t } } :=
  Comp.zoom_run_of_ok (Blk.liftBio_run_of_ok h)

theorem readSuper_sat : Comp.Sat (readSuper ROOTDEV) (powerOn d) E fun _ s =>
    Early d [] s ∧ s.sb = (d 1).superblock := by
  have inv : (powerOn d).blk.bio.Inv ∅ [] [] := Bio.bioInit_Inv d
  obtain ⟨i, t, ht⟩ := inv.bread_returns (b := 1) (by decide) (Or.inr (by decide))
  have p := inv.bread ht
  obtain ⟨u, hu⟩ := p.inv.brelse_returns (i := i) (by simp)
  obtain ⟨inv', same⟩ := p.inv.brelse (i := i) (by simp) hu
  rw [List.erase_cons_head] at inv'
  have contents : (t.buf i).data = d 1 := by
    rw [p.data, inv.view_of_clean (by simp) (by simp)]
    rfl
  obtain ⟨v, hv⟩ : ∃ v : Vol, v = { powerOn d with
      blk := { (powerOn d).blk with bio := u }, sb := (d 1).superblock } := ⟨_, rfl⟩
  have run : (readSuper ROOTDEV).run (powerOn d) = .ok () v := by
    unfold readSuper
    refine (Comp.run_bind_of_ok (onBio_run ht)).trans ?_
    refine (Comp.run_bind_of_ok (onBio_run rfl)).trans ?_
    rw [Comp.bind_modify_run]
    refine (onBio_run hu).trans ?_
    rw [hv, ← contents]
  refine .of_run run ?_
  subst hv
  refine ⟨⟨inv', rfl, rfl, ?_, rfl⟩, rfl⟩
  exact ⟨same.disk.trans p.disk, (same.issued.trans p.issued).trans (List.append_nil _).symm⟩

/-- The superblock is written outside the log. -/
theorem writeSuper_sat (h : Early d [] s) : Comp.Sat (writeSuper ROOTDEV) s E fun _ t =>
    Early d [(1, (d 1).putSuperblock newSuper)] t ∧ t.sb = newSuper := by
  have disk : s.blk.bio.disk = d := h.issued.disk
  obtain ⟨i, t1, h1⟩ := h.bio.bread_returns (b := 1) (by decide) (Or.inr (by decide))
  have p := h.bio.bread h1
  have hi : i ∈ [i] := List.mem_singleton.mpr rfl
  obtain ⟨inv2, d2, w2, holds2, -, -, v2⟩ := p.inv.setData hi p.holds (·.putSuperblock newSuper) _ rfl
  rw [if_neg List.not_mem_nil] at inv2
  generalize ht2 : t1.modBuf i (fun c => { c with data := c.data.putSuperblock newSuper }) = t2 at *
  obtain ⟨t3, h3⟩ := inv2.bwrite_returns hi
  obtain ⟨inv3, d3, w3, -, -⟩ := inv2.bwrite ((holds2 i 1).mpr p.holds) h3
  have inv3' := inv3.mono (K := ∅) (by rintro c ⟨hc | hc, hn⟩; exacts [absurd hc hn, hc])
  obtain ⟨t4, h4⟩ := inv3'.brelse_returns hi
  obtain ⟨inv4, same⟩ := inv3'.brelse hi h4
  have shown : t2.view 1 = (d 1).putSuperblock newSuper := by
    rw [v2, Function.update_self, p.view 1 (Or.inr rfl), h.bio.view_of_clean (by simp) (by simp), disk]
  have h2 : (Bio.setData i (·.putSuperblock newSuper)).run t1 = .ok () t2 := congrArg (Outcome.ok ()) ht2
  let at' : Bio → Vol := fun t => { s with blk := { s.blk with bio := t }, sb := newSuper }
  have run : (writeSuper ROOTDEV).run s = .ok () (at' t4) := by
    unfold writeSuper
    rw [Comp.bind_modify_run]
    refine (Comp.run_bind_of_ok (onBio_run (s := at' s.blk.bio) h1)).trans ?_
    refine (Comp.run_bind_of_ok (onBio_run (s := at' t1) h2)).trans ?_
    refine (Comp.run_bind_of_ok (onBio_run (s := at' t2) h3)).trans ?_
    exact onBio_run (s := at' t3) h4
  refine .of_run run ⟨⟨by simpa using inv4, h.outstanding, h.committing, ⟨?_, ?_⟩, ?_⟩, rfl⟩
  · change t4.disk = _
    rw [same.disk, d3, d2, p.disk, shown, disk]
    rfl
  · change t4.issued = _
    rw [same.issued, w3, w2, p.issued, shown, h.issued.issued]
    rfl
  · change { s with blk := { s.blk with bio := t4 }, sb := newSuper } = _
    rw [h.rest]

theorem logInit_sat (h : Early d ws s) (sb : s.sb = Log.formatted)
    (hl : Log.HeaderIs l (applyWrites ws d 2)) (short : l.length ≤ 29)
    (home : ∀ b ∈ l, b < FSSIZE ∧ ¬ Log.InLog b) :
    Comp.Sat (logInit ROOTDEV) s E fun _ t => Idle t ∧ t = remount t.blk ∧
      ∃ clear : Block, clear.headerN = 0 ∧
      Log.Issued (ws ++ (Log.installs l (applyWrites ws d) ++ [(2, clear)])) (Log.boot d) t.blk := by
  have disk : s.blk.bio.disk = applyWrites ws d := h.issued.disk
  rw [← disk] at hl ⊢
  obtain ⟨b, clear, run, inv, outstanding, committing, hclear, issued⟩ :=
    Log.logInit_of_inv h.bio hl short home
  have done : (logInit ROOTDEV).run s = .ok () (remount b) := by
    unfold logInit
    rw [Comp.bind_get_run, sb]
    refine (Comp.zoom_run_of_ok run).trans ?_
    rw [h.rest]
    dsimp only
    rw [sb]
    rfl
  refine .of_run done ⟨⟨.of_inv inv (outstanding.trans h.outstanding)
    (committing.trans h.committing) rfl, ?_, fun _ => rfl⟩, rfl, clear, hclear, h.issued.append issued⟩
  change (b.bio.disk 2).headerN = 0
  rw [issued.disk, applyWrites_append, applyWrites_cons, applyWrites_nil, Function.update_self]
  exact hclear

/-- `fs_init` on a disk with a file system recovers from the log. -/
theorem fsInit_mount_sat (hsb : (d 1).superblock = Log.formatted) (hl : Log.HeaderIs l (d 2))
    (short : l.length ≤ 29) (home : ∀ b ∈ l, b < FSSIZE ∧ ¬ Log.InLog b) :
    Comp.Sat (fsInit ROOTDEV) (powerOn d) E fun _ t => Idle t ∧ t = remount t.blk ∧
      ∃ clear : Block, clear.headerN = 0 ∧
      Log.Issued (Log.installs l d ++ [(2, clear)]) (Log.boot d) t.blk := by
  unfold fsInit
  refine .call readSuper_sat ?_
  rintro _ s ⟨early, sb⟩
  refine .get (.ite (fun bad => ?_) fun _ => ?_)
  · rw [sb, hsb] at bad
    exact absurd rfl bad
  · exact logInit_sat early (sb.trans hsb) hl short home

end Vol

end EasyXv6.Fs
