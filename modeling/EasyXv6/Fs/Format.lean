import EasyXv6.Fs.FsInit

set_option autoImplicit false

/-!
# What `fs_init` makes of a disk without a file system

Every block is known here, so that each step has one outcome; `W` is what the blocks hold.
-/
namespace EasyXv6.Fs.Vol
open Lib

variable {W : ℕ → Block} {s : Vol} {l : List ℕ} {d : Dinode} {ip : Fin NINODE} {r : ℕ}
  {E : String → Vol → Prop}

theorem whole_update (b : ℕ) (x : Block) :
    Function.update (whole W) b (some x) = whole (Function.update W b x) := by
  funext c
  by_cases hc : c = b
  · subst hc
    simp [whole]
  · simp [whole, hc]

section Blocks

variable {held : List (Fin NBUF × ℕ)} {b : ℕ}

theorem At.view_eq {o : ℤ} (h : At o held l (whole W) s) (hb : ¬ Log.InLog b) : s.view b = W b :=
  h.view b _ hb rfl

/-- Read a block, change it and record it. -/
theorem change_sat (h : At 1 held l (whole W) s) (hb : INODES ≤ b) (lt : b < FSSIZE)
    (short : held.length + l.length < 28) (f : Block → Block) {α : Type} {k : Comp Vol α}
    {Q : α → Vol → Prop}
    (next : ∀ t, At 1 held (noted b l) (whole (Function.update W b (f (W b)))) t → OnlyBlk s t →
      Comp.Sat k t E Q) :
    Comp.Sat (bread ROOTDEV b >>= fun bp => setData bp f >>= fun _ => logWrite bp >>= fun _ =>
      brelse bp >>= fun _ => k) s E Q := by
  have home := not_inLog_of_high hb
  refine .call (bread_sat h lt (by simp only [Spare, NBUF]; omega)) ?_
  rintro bp s₁ ⟨h₁, only₁, _⟩
  refine modify_sat h₁ List.mem_cons_self home (by omega) f ?_
  intro s₂ h₂ only₂
  rw [h₁.view_eq home, whole_update] at h₂
  refine .call (brelse_sat h₂) ?_
  rintro _ s₃ ⟨h₃, only₃, _⟩
  exact next s₃ h₃ (only₁.trans (only₂.trans only₃))

/-- Read a block and let it go. -/
theorem peek_sat {o : ℤ} (h : At o held l (whole W) s) (hb : INODES ≤ b) (lt : b < FSSIZE)
    (short : held.length + l.length < 28) {α : Type} {k : Block → Fin NBUF → Comp Vol α}
    {Q : α → Vol → Prop}
    (next : ∀ bp t, At o ((bp, b) :: held) l (whole W) t → OnlyBlk s t → Comp.Sat (k (W b) bp) t E Q) :
    Comp.Sat (bread ROOTDEV b >>= fun bp => data bp >>= fun x => k x bp) s E Q := by
  refine .call (bread_sat h lt (by simp only [Spare, NBUF]; omega)) ?_
  rintro bp s₁ ⟨h₁, only₁, _⟩
  refine .call (data_sat h₁ List.mem_cons_self) ?_
  rintro _ _ ⟨rfl, rfl⟩
  rw [h₁.view_eq (not_inLog_of_high hb)]
  exact next bp _ h₁ only₁

end Blocks

section Alloc

/-- The blocks once `fs_alloc` has handed out the block `r`. -/
def afterAlloc (W : ℕ → Block) (r : ℕ) : ℕ → Block :=
  Function.update (Function.update W BITMAP ((W BITMAP).setBit r)) r Block.zero

/-- `fs_alloc`, with the blocks that it records. -/
theorem fsAlloc_known (h : At 1 [] l (whole W) s) (low : ∀ b ≤ BITMAP, (W BITMAP).bit b = true)
    (short : l.length ≤ 20) (room : (∃ b < FSSIZE, (W BITMAP).bit b = false) ∨ ∀ w t, E w t) :
    Comp.Sat (fsAlloc ROOTDEV) s E fun r t => BITMAP < r ∧ r < FSSIZE ∧ (W BITMAP).bit r = false ∧
      At 1 [] (noted r (noted BITMAP l)) (whole (afterAlloc W r)) t ∧ OnlyBlk s t := by
  have hbb : BBLOCK 0 s.sb = BITMAP := by
    rw [h.sb]
    rfl
  have hbs : (List.range ((s.sb.size + BPB - 1) / BPB)).map (· * BPB) = [0] := by
    rw [h.sb]
    rfl
  have size : s.sb.size = FSSIZE := by
    rw [h.sb]
    rfl
  have home : ¬ Log.InLog BITMAP := by decide
  have search : Comp.Sat (fsAllocIn ROOTDEV 0) s E fun x t =>
      (x = none → ∀ b < FSSIZE, (W BITMAP).bit b = true) ∧ ∀ r, x = some r →
        BITMAP < r ∧ r < FSSIZE ∧ (W BITMAP).bit r = false ∧
          At 1 [] (noted r (noted BITMAP l)) (whole (afterAlloc W r)) t ∧ OnlyBlk s t := by
    unfold fsAllocIn
    refine .get ?_
    rw [hbb]
    refine peek_sat h (by decide) (by decide) (by simp only [List.length_nil]; omega) ?_
    intro bp s₁ h₁ only₁
    split
    next bi hbi =>
      have clear : (W BITMAP).bit bi = false := by simpa using List.find?_some hbi
      have lt : bi < FSSIZE := by
        have := List.mem_range.mp (List.mem_of_find?_eq_some hbi)
        rw [size] at this
        omega
      have high : BITMAP < bi := by
        by_contra hn
        rw [low bi (by omega)] at clear
        cases clear
      refine modify_sat h₁ List.mem_cons_self home (by omega) _ ?_
      intro s₂ h₂ only₂
      rw [h₁.view_eq home, whole_update] at h₂
      refine .call (brelse_sat h₂) ?_
      rintro _ s₃ ⟨h₃, only₃, _⟩
      have len := noted_length_le BITMAP l
      rw [Nat.zero_add]
      refine change_sat h₃ (by simp only [INODES, BITMAP] at *; omega) lt
        (by simp only [List.length_nil]; omega) _ ?_
      intro s₄ h₄ only₄
      refine .pure ⟨fun hn => (Option.some_ne_none _ hn).elim, fun r hr => ?_⟩
      cases hr
      exact ⟨high, lt, clear, h₄, only₁.trans (only₂.trans (only₃.trans only₄))⟩
    next none =>
      refine .call (brelse_sat h₁) ?_
      intro _ s₂ _
      refine .pure ⟨fun _ b hb => ?_, fun r hr => (Option.some_ne_none _ hr.symm).elim⟩
      have full := List.find?_eq_none.mp none b
      rw [size] at full
      simpa using full (List.mem_range.mpr (by simp only [BPB, BSIZE, FSSIZE] at *; omega))
  unfold fsAlloc
  refine .get ?_
  rw [hbs]
  refine .bind (.call search ?_)
  rintro x t ⟨full, found⟩
  cases x with
  | some r => exact .pure (.pure (found r rfl))
  | none =>
    refine .pure (.halt ?_)
    refine room.resolve_left ?_ _ _
    rintro ⟨b, hb, clear⟩
    rw [full rfl b hb] at clear
    cases clear

end Alloc

section Transactions

theorem beginOp_known (h : At 0 [] [] (whole s.blk.bio.disk) s) :
    Comp.Sat beginOp s E fun _ t => t = s.begun ∧ At 1 [] [] (whole s.blk.bio.disk) t := by
  have none : s.blk.ctx.lh.n = 0 := h.inv.ctx.n
  refine .of_run (Comp.zoom_run_of_ok (Log.beginOp_returns none h.outstanding h.committing)) ⟨rfl, ?_⟩
  exact ⟨⟨h.inv.bio, ⟨h.inv.ctx.dev, h.inv.ctx.start, h.inv.ctx.size, h.inv.ctx.n, h.inv.ctx.block⟩,
    h.inv.nodup, h.inv.home, h.inv.short, h.inv.disj⟩, h.holds, h.view, rfl, h.committing, h.sb⟩

/-- What a transaction that recorded the blocks `l` leaves, with the writes it makes. -/
structure Committed (l : List ℕ) (W : ℕ → Block) (s t : Vol) (ws : List (ℕ × Block)) : Prop where
  clean : (t.blk.bio.disk 2).headerN = 0
  disk : ∀ b, ¬ Log.InLog b → t.blk.bio.disk b = W b
  issued : Log.Issued ws s.blk t.blk
  trace : ∃ view, Log.CommitTrace l view ws
  crash : ∀ k, Log.Recoverable (if Log.atCommitPoint (ws.take k) then t.blk.bio.disk
    else s.blk.bio.disk) (applyWrites (ws.take k) s.blk.bio.disk)

theorem Committed.of_quiet {t u : Vol} {ws : List (ℕ × Block)} (h : Committed l W u t ws)
    (quiet : Quiet s u) : Committed l W s t ws := by
  obtain ⟨disk, issued⟩ := quiet
  refine ⟨h.clean, h.disk, ⟨?_, ?_⟩, h.trace, ?_⟩
  · rw [h.issued.disk, disk]
  · rw [h.issued.issued, issued]
  · rw [← disk]
    exact h.crash

theorem endOp_known (h : At 1 [] l (whole W) s) (clean : (s.blk.bio.disk 2).headerN = 0) :
    Comp.Sat endOp s E fun _ t => t = { s with blk := t.blk } ∧
      At 0 [] [] (whole t.blk.bio.disk) t ∧ ∃ ws, Committed l W s t ws := by
  have unsure : Image.unsure (whole W) = ∅ := by
    apply Set.eq_empty_of_forall_notMem
    intro c hc
    cases hc
  have inv₀ : Log.Inv ∅ [] l s.blk := by
    have inv := h.inv
    rwa [unsure] at inv
  obtain ⟨t, ws, run, inv, outstanding, committing, trace, issued, -, -⟩ :=
    Log.endOp_returns inv₀ (by simp) h.outstanding h.committing
  obtain ⟨crash, clean', disk⟩ := Log.crash_commit clean h.inv.short h.inv.home trace
  have new : ∀ b, ¬ Log.InLog b → t.bio.disk b =
      Log.committed l s.blk.bio.view s.blk.bio.disk b := by
    intro b hb
    rw [issued.disk, disk b hb]
  refine .of_run (Comp.zoom_run_of_ok run) ⟨rfl, .of_inv inv outstanding
    committing h.sb, ws, ?_, fun b hb => ?_, issued, ⟨_, trace⟩, fun k => ?_⟩
  · change (t.bio.disk 2).headerN = 0
    rw [issued.disk]
    exact clean'
  · change t.bio.disk b = W b
    rw [new b hb, Log.committed, ← h.view_eq hb]
    split
    next => rfl
    next hl => exact (inv₀.bio.view_of_clean hl (by simp)).symm
  · have hk := crash k
    split at hk
    next hc =>
      rw [if_pos hc]
      exact hk.congr fun b hb => (new b hb).symm
    next hc =>
      rw [if_neg hc]
      exact hk

/-- The part of a transaction up to its `end_op`. -/
theorem open_known {m : Comp Vol Unit} {P : List ℕ → (ℕ → Block) → Prop} (h : Idle s) (silent : Silent m)
    (spec : ∀ t, At 1 [] [] (whole s.blk.bio.disk) t → (∀ jp, (t.inode jp).ref = 0) →
      Comp.Sat m t E fun _ u => (∃ l W, P l W ∧ At 1 [] l (whole W) u) ∧ ∀ jp, (u.inode jp).ref = 0)
    {α : Type} {k : Comp Vol α} {Q : α → Vol → Prop}
    (next : ∀ u l W, P l W → At 1 [] l (whole W) u → (∀ jp, (u.inode jp).ref = 0) → Quiet s u →
      Comp.Sat k u E Q) :
    Comp.Sat (beginOp >>= fun _ => m >>= fun _ => k) s E Q := by
  refine .call (beginOp_known h.at0) ?_
  rintro _ t ⟨begun, at'⟩
  have refs : ∀ jp, (t.inode jp).ref = 0 := by
    rw [begun]
    exact h.refs
  refine .call (((spec t at' refs).always silent).imp (fun _ _ he => he.1) fun _ _ hq => hq) ?_
  rintro _ u ⟨⟨⟨l, W, hP, hu⟩, refs'⟩, quiet⟩
  rw [begun] at quiet
  exact next u l W hP hu refs' quiet

theorem close_known {u : Vol} (h : Idle s) (hu : At 1 [] l (whole W) u) (refs : ∀ jp, (u.inode jp).ref = 0)
    (quiet : Quiet s u) : Comp.Sat endOp u E fun _ t => Idle t ∧ ∃ ws, Committed l W s t ws := by
  have clean : (u.blk.bio.disk 2).headerN = 0 := by
    rw [quiet.1]
    exact h.clean
  refine (endOp_known hu clean).post ?_
  rintro _ v ⟨rest, at0, ws, hv⟩
  refine ⟨⟨at0, hv.clean, ?_⟩, ws, hv.of_quiet quiet⟩
  rw [rest]
  exact refs

/-- The bitmap block once the blocks up to it are marked. -/
theorem bit_markLow (x : Block) (b : ℕ) :
    (markLow BITMAP x).bit b = if b ≤ BITMAP then true else x.bit b := by
  have same : markLow BITMAP x = x.setBits (BITMAP + 1) := by
    unfold markLow Block.setBits
    refine List.foldl_ext _ _ _ fun y c hc => ?_
    have := List.mem_range.mp hc
    rw [Nat.mod_eq_of_lt (by simp only [BPB, BSIZE, BITMAP] at *; omega)]
  rw [same, Block.bit_setBits x (by decide)]
  exact if_congr Nat.lt_succ_iff rfl rfl

theorem markSystem_silent (dev : ℕ) : Silent (markSystem dev) :=
  .get fun _ => .bind (bread_silent _ _) fun bp => .bind (setData_silent bp _) fun _ =>
    .bind (logWrite_silent bp) fun _ => brelse_silent bp

/-- The blocks once those up to the bitmap are marked. -/
def afterMark (W : ℕ → Block) : ℕ → Block := Function.update W BITMAP (markLow BITMAP (W BITMAP))

theorem afterMark_congr {V : ℕ → Block} (same : ∀ b, ¬ Log.InLog b → W b = V b) (b : ℕ)
    (home : ¬ Log.InLog b) : afterMark W b = afterMark V b := by
  unfold afterMark
  by_cases hb : b = BITMAP
  · rw [hb, Function.update_self, Function.update_self, same BITMAP (by decide)]
  · rw [Function.update_of_ne hb, Function.update_of_ne hb, same b home]

theorem markSystem_sat (h : At 1 [] [] (whole W) s) : Comp.Sat (markSystem ROOTDEV) s E fun _ t =>
    At 1 [] [BITMAP] (whole (afterMark W)) t ∧ OnlyBlk s t := by
  have block : s.sb.bmapstart = BITMAP := by
    rw [h.sb]
    rfl
  have home : ¬ Log.InLog BITMAP := by decide
  unfold markSystem
  refine .get ?_
  rw [block]
  refine .call (bread_sat h (by decide) (by simp [Spare])) ?_
  rintro bp s₁ ⟨h₁, only₁, _⟩
  refine modify_sat h₁ List.mem_cons_self home (by decide) _ ?_
  intro s₂ h₂ only₂
  rw [h₁.view_eq home, whole_update] at h₂
  refine (brelse_sat h₂).post ?_
  rintro _ s₃ ⟨h₃, only₃, _⟩
  exact ⟨h₃, only₁.trans (only₂.trans only₃)⟩

end Transactions

section Root

/-- The transaction that makes the root: its inode is in the slot `ip` and holds `d`. -/
structure RootAt (ip : Fin NINODE) (d : Dinode) (l : List ℕ) (W : ℕ → Block) (s : Vol) : Prop where
  at' : At 1 [] l (whole W) s
  inode : s.inode ip = ⟨ROOTDEV, ROOTINO, 1, true, d⟩
  others : ∀ jp, jp ≠ ip → (s.inode jp).ref = 0

theorem RootAt.of_onlyBlk {l' : List ℕ} {W' : ℕ → Block} {t : Vol} (h : RootAt ip d l W s)
    (at' : At 1 [] l' (whole W') t) (only : OnlyBlk s t) : RootAt ip d l' W' t :=
  ⟨at', by rw [only.inode, h.inode], by rw [only.inode]; exact h.others⟩

/-- The blocks once the inode has been written back. -/
def afterSave (W : ℕ → Block) (d : Dinode) : ℕ → Block :=
  Function.update W INODES ((W INODES).putDinode ROOTINO d)

theorem RootAt.setDinode (h : RootAt ip d l W s) (e : Dinode) :
    RootAt ip e l W (s.setInode ip { s.inode ip with d := e }) := by
  refine ⟨h.at'.congr rfl rfl, ?_, fun jp hj => ?_⟩
  · rw [setInode_self, h.inode]
  · rw [setInode_of_ne s hj]
    exact h.others jp hj

theorem iupdate_known (h : RootAt ip d l W s) (short : l.length ≤ 20) :
    Comp.Sat (iupdate ip) s E fun _ t => RootAt ip d (noted INODES l) (afterSave W d) t ∧ t.de = s.de := by
  have block : IBLOCK ROOTINO s.sb = INODES := by
    rw [h.at'.sb]
    rfl
  have home : ¬ Log.InLog INODES := by decide
  unfold iupdate
  refine .get ?_
  rw [h.inode]
  dsimp only
  rw [block]
  refine .call (bread_sat h.at' (by decide) (by simp only [Spare, NBUF, List.length_nil]; omega)) ?_
  rintro bp s₁ ⟨h₁, only₁, _⟩
  refine modify_sat h₁ List.mem_cons_self home (by omega) _ ?_
  intro s₂ h₂ only₂
  rw [h₁.view_eq home, whole_update] at h₂
  refine (brelse_sat h₂).post ?_
  rintro _ s₃ ⟨h₃, only₃, _⟩
  have only := only₁.trans (only₂.trans only₃)
  exact ⟨h.of_onlyBlk h₃ only, only.de⟩

/-- The first block of the root, which has none yet. -/
theorem bmap_new (h : RootAt ip d l W s) (h0 : d.addr 0 = 0) (short : l.length ≤ 20)
    (low : ∀ b ≤ BITMAP, (W BITMAP).bit b = true)
    (room : (∃ b < FSSIZE, (W BITMAP).bit b = false) ∨ ∀ w t, E w t) :
    Comp.Sat (bmap ip 0) s E fun r t => BITMAP < r ∧ r < FSSIZE ∧ (W BITMAP).bit r = false ∧
      RootAt ip (d.setAddr 0 r) (noted r (noted BITMAP l)) (afterAlloc W r) t ∧ t.de = s.de := by
  unfold bmap
  refine .ite (fun _ => ?_) fun hn => absurd (by decide) hn
  unfold bmapAddr
  refine .gets ?_
  rw [h.inode]
  refine .ite (fun _ => ?_) fun hn => absurd h0 hn
  refine .call (fsAlloc_known h.at' low short room) ?_
  rintro r t ⟨high, lt, clear, at', only⟩
  have ht := (h.of_onlyBlk at' only).setDinode (d.setAddr 0 r)
  refine .modify (.pure ⟨high, lt, clear, ?_, only.de⟩)
  rwa [(h.of_onlyBlk at' only).inode] at ht ⊢

/-- The first block of the root once it has one. -/
theorem bmap_old (h : RootAt ip d l W s) (hr : d.addr 0 = r) (h0 : r ≠ 0) :
    Comp.Sat (bmap ip 0) s E fun a t => a = r ∧ t = s := by
  unfold bmap
  refine .ite (fun _ => ?_) fun hn => absurd (by decide) hn
  unfold bmapAddr
  refine .gets ?_
  rw [h.inode]
  refine .ite (fun hz => absurd (hr.symm.trans hz) h0) fun _ => ?_
  exact .pure ⟨hr, rfl⟩

/-- The blocks once an entry has been written to byte `off` of the block `r`. -/
def afterEntry (W : ℕ → Block) (r off : ℕ) (de : Bytes DIRENT_SIZE) : ℕ → Block :=
  Function.update W r ((W r).put off DIRENT_SIZE de.byte)

/-- `writei` of an entry to the first block, with whatever `bmap` does. -/
theorem writei_known {off : ℕ} {P : ℕ → Dinode → List ℕ → (ℕ → Block) → Prop}
    (h : RootAt ip d l W s) (hoff : d.size.toNat = off) (fits : off + DIRENT_SIZE ≤ BSIZE)
    (map : Comp.Sat (bmap ip 0) s E fun r t => ∃ d' l' W', P r d' l' W' ∧ RootAt ip d' l' W' t ∧
      INODES ≤ r ∧ r < FSSIZE ∧ d'.size = d.size ∧ l'.length < 20 ∧ t.de = s.de) :
    Comp.Sat (writei ip false 0 off DIRENT_SIZE) s E fun n t => n = DIRENT_SIZE ∧ ∃ r d' l' W',
      P r d' l' W' ∧ RootAt ip { d' with size := BitVec.ofNat 32 (off + DIRENT_SIZE) }
        (noted INODES (noted r l'))
        (afterSave (afterEntry W' r off s.de) { d' with size := BitVec.ofNat 32 (off + DIRENT_SIZE) }) t := by
  have first : off / BSIZE = 0 := Nat.div_eq_of_lt (by simp only [DIRENT_SIZE, BSIZE] at *; omega)
  have rest : off % BSIZE = off := Nat.mod_eq_of_lt (by simp only [DIRENT_SIZE, BSIZE] at *; omega)
  have count : min (BSIZE - off) (DIRENT_SIZE - 0) = DIRENT_SIZE := by
    simp only [DIRENT_SIZE, BSIZE] at *
    omega
  unfold writei
  refine .gets ?_
  rw [h.inode]
  refine .ite (fun bad => ?_) fun _ => .ite (fun bad => ?_) fun _ => ?_
  · exfalso
    simp only [DIRENT_SIZE, BSIZE] at *
    omega
  · exfalso
    simp only [MAXFILE, NDIRECT, NINDIRECT, DIRENT_SIZE, BSIZE] at *
    omega
  have round : Comp.Sat (writeiLoop ip false DIRENT_SIZE DIRENT_SIZE 0 off 0) s E fun ok t => ok = true ∧
      ∃ r d' l' W', P r d' l' W' ∧ d'.size = d.size ∧ l'.length < 20 ∧
        RootAt ip d' (noted r l') (afterEntry W' r off s.de) t := by
    unfold writeiLoop
    refine .ite (fun _ => ?_) fun hn => absurd (by decide) hn
    refine .gets ?_
    rw [h.inode, first, rest]
    refine .call map ?_
    rintro r s₁ ⟨d', l', W', hP, h₁, high, lt, size, short, de₁⟩
    refine .call (bread_sat h₁.at' lt (by simp only [Spare, NBUF, List.length_nil]; omega)) ?_
    rintro bp s₂ ⟨h₂, only₂, _⟩
    rw [count]
    have source : Supplies false s₂.user s₂.de 0 DIRENT_SIZE s.de.byte := by
      constructor
      · intro _ j _
        rw [Nat.zero_add, only₂.de, de₁]
      · intro hu
        cases hu
    refine .call (copyIn_sat (k := 0) source (Nat.le_of_eq (Nat.zero_add _))) ?_
    rintro c s₃ ⟨same, readable, _, copied⟩
    subst same
    obtain ⟨ok, bytes⟩ := c
    obtain rfl : ok = true := readable (.kernel rfl)
    obtain ⟨len, eq⟩ := copied rfl
    have home := not_inLog_of_high high
    have put : ∀ x : Block, x.put off bytes.length (fun j => bytes.getD j 0) =
        x.put off DIRENT_SIZE s.de.byte := by
      intro x
      funext j
      unfold Bytes.put
      dsimp only at len eq
      rw [len]
      split
      next => exact (eq _ (by omega)).trans (by rw [Nat.zero_add])
      next => rfl
    refine modify_sat h₂ List.mem_cons_self home (by omega) _ ?_
    intro s₄ h₄ only₄
    rw [h₂.view_eq home, put, whole_update] at h₄
    refine .call (brelse_sat h₄) ?_
    rintro _ s₅ ⟨h₅, only₅, _⟩
    have root := h₁.of_onlyBlk h₅ (only₂.trans (only₄.trans only₅))
    unfold writeiLoop
    refine .ite (fun hn => absurd hn (by decide)) fun _ => .pure ⟨rfl, r, d', l', W', hP, size, short, root⟩
  refine .call round ?_
  rintro ok t ⟨hok, r, d', l', W', hP, size, short, ht⟩
  refine .ite (fun _ => ?_) fun hn => absurd hok hn
  have len := noted_length_le r l'
  have grows : d'.size.toNat < off + DIRENT_SIZE := by
    rw [size, hoff]
    simp only [DIRENT_SIZE]
    omega
  obtain ⟨e, he⟩ : ∃ e, e = { d' with size := BitVec.ofNat 32 (off + DIRENT_SIZE) } := ⟨_, rfl⟩
  have same : t.setInode ip (if (t.inode ip).d.size.toNat < off + DIRENT_SIZE then
      { t.inode ip with d := { (t.inode ip).d with size := BitVec.ofNat 32 (off + DIRENT_SIZE) } }
      else t.inode ip) = t.setInode ip { t.inode ip with d := e } := by
    rw [ht.inode, if_pos grows, he]
  refine .modify ?_
  rw [same]
  refine .call (iupdate_known (ht.setDinode e) (by omega)) ?_
  rintro _ u ⟨hu, _⟩
  exact .pure ⟨i32_of_small (by decide), r, d', l', W', hP, he ▸ hu⟩

/-- Read the first entry. -/
theorem readDirent_known {why : String} (h : RootAt ip d l W s) (hr : d.addr 0 = r) (high : INODES ≤ r)
    (lt : r < FSSIZE) (size : d.size.toNat = DIRENT_SIZE) (short : l.length ≤ 20) :
    Comp.Sat (readDirent ip 0 why) s E fun de t => de = entryAt (W r) 0 ∧ t.de = de ∧ RootAt ip d l W t := by
  have pos : r ≠ 0 := by
    rintro rfl
    exact absurd high (by decide)
  have loop : Comp.Sat (readiLoop ip false DIRENT_SIZE DIRENT_SIZE 0 0 0) s E fun ok t =>
      ok = true ∧ t.de = entryAt (W r) 0 ∧ RootAt ip d l W t := by
    unfold readiLoop
    refine .ite (fun _ => ?_) fun hn => absurd (by decide) hn
    refine .gets (.call (bmap_old h hr pos) ?_)
    rintro b t ⟨hb, ht⟩
    subst hb ht
    rw [h.inode]
    refine .call (bread_sat h.at' lt (by simp only [Spare, NBUF, List.length_nil]; omega)) ?_
    rintro bp s₂ ⟨h₂, only₂, _⟩
    refine .call (data_sat h₂ List.mem_cons_self) ?_
    rintro _ s₂ ⟨rfl, rfl⟩
    rw [h₂.view_eq (not_inLog_of_high high)]
    unfold copyOut
    refine .bind (.get (.ite (fun hf => by cases hf) fun _ => .modify (.pure ?_)))
    obtain ⟨s₃, hs₃⟩ : ∃ s₃ : Vol, s₃ = { s₂ with
      de := s₂.de.put 0 (min (BSIZE - 0 % BSIZE) (DIRENT_SIZE - 0)) fun j => (W b).byte (0 % BSIZE + j) } :=
      ⟨_, rfl⟩
    have h₃ : At 1 [(bp, b)] l (whole W) s₃ := by
      rw [hs₃]
      exact h₂.congr rfl rfl
    rw [← hs₃]
    refine .call (brelse_sat h₃) ?_
    rintro _ s₄ ⟨h₄, only₄, _⟩
    refine .ite (fun _ => ?_) fun hn => absurd rfl hn
    unfold readiLoop
    refine .ite (fun hn => absurd hn (by decide)) fun _ => .pure ⟨rfl, ?_, h₄, ?_, ?_⟩
    · rw [only₄.de, hs₃]
      funext j
      have inside : j.val < 24 := j.isLt
      simp [Bytes.put, entryAt, DIRENT_SIZE, BSIZE]
    · rw [only₄.inode, hs₃, only₂.inode, h.inode]
    · rw [only₄.inode, hs₃, only₂.inode]
      exact h.others
  unfold readDirent readi
  refine .bind (.gets ?_)
  rw [h.inode]
  dsimp only
  rw [size]
  refine .ite (fun bad => absurd bad (by decide)) fun _ => ?_
  rw [if_neg (by decide)]
  refine .call loop ?_
  rintro ok t ⟨hok, de, ht⟩
  refine .ite (fun _ => .pure ?_) fun hn => absurd hok hn
  refine .ite (fun bad => absurd (i32_of_small (by decide)) bad) fun _ => ?_
  exact .gets (.pure ⟨de, de.symm ▸ rfl, ht⟩)

/-- What `dirlink` puts into `de`. -/
def newEntry (de : Bytes DIRENT_SIZE) (name : List UInt8) (inum : ℕ) : Bytes DIRENT_SIZE :=
  (de.put 8 DIRSIZ (strncpy (nameOf name) DIRSIZ)).putNum 0 8 inum

theorem firstSome_none {α : Type} {g : ℕ → Comp Vol (Option α)} {n : ℕ} {I : Vol → Prop} (hs : I s)
    (round : ∀ m < n, ∀ t, I t → Comp.Sat (g m) t E fun x u => x = none ∧ I u) :
    Comp.Sat (Comp.firstSome g (List.range n)) s E fun x t => x = none ∧ I t := by
  refine Comp.Sat.firstSome (fun xs t => (∀ m ∈ xs, m < n) ∧ I t)
    ⟨fun m hm => List.mem_range.mp hm, hs⟩ ?_ fun t ht => ⟨rfl, ht.2⟩
  rintro m ms t ⟨bound, ht⟩
  refine (round m (bound m List.mem_cons_self) t ht).post ?_
  rintro x u ⟨hnone, hu⟩
  subst hnone
  exact ⟨fun j hj => bound j (List.mem_cons_of_mem _ hj), hu⟩

/-- `dirlink` of a name that no entry has, in a directory without a free entry. -/
theorem dirlink_known {name : List UInt8} {n : ℕ}
    {P : ℕ → Dinode → List ℕ → (ℕ → Block) → Prop} (h : RootAt ip d l W s) (type : d.type = T_DIR)
    (size : d.size.toNat = DIRENT_SIZE * n) (fits : DIRENT_SIZE * n + DIRENT_SIZE ≤ BSIZE)
    (looked : ∀ m < n, ∀ t, RootAt ip d l W t →
      Comp.Sat (dirlookupAt ip name m) t E fun x u => x = none ∧ RootAt ip d l W u)
    (busy : ∀ m < n, ∀ t, RootAt ip d l W t →
      Comp.Sat (dirlinkAt ip m) t E fun x u => x = none ∧ RootAt ip d l W u)
    (map : ∀ t, RootAt ip d l W t → Comp.Sat (bmap ip 0) t E fun r u => ∃ d' l' W', P r d' l' W' ∧
      RootAt ip d' l' W' u ∧ INODES ≤ r ∧ r < FSSIZE ∧ d'.size = d.size ∧ l'.length < 20 ∧ u.de = t.de) :
    Comp.Sat (dirlink ip name ROOTINO) s E fun _ t => ∃ r d' l' W' de, P r d' l' W' ∧
      RootAt ip { d' with size := BitVec.ofNat 32 (DIRENT_SIZE * n + DIRENT_SIZE) }
        (noted INODES (noted r l')) (afterSave (afterEntry W' r (DIRENT_SIZE * n) (newEntry de name ROOTINO))
          { d' with size := BitVec.ofNat 32 (DIRENT_SIZE * n + DIRENT_SIZE) }) t := by
  have rounds : slots (DIRENT_SIZE * n) = n := by
    simp only [slots, DIRENT_SIZE]
    omega
  have absent : Comp.Sat (dirlookup ip name) s E fun x t => x = none ∧ RootAt ip d l W t := by
    unfold dirlookup
    refine .gets ?_
    rw [h.inode]
    refine .ite (fun bad => absurd type bad) fun _ => ?_
    dsimp only
    rw [size, rounds]
    exact firstSome_none h looked
  unfold dirlink
  refine .call absent ?_
  rintro x t ⟨hnone, ht⟩
  subst hnone
  refine .gets ?_
  rw [ht.inode]
  dsimp only
  rw [size, rounds]
  refine .call (firstSome_none ht busy) ?_
  rintro y u ⟨hnone, hu⟩
  subst hnone
  obtain ⟨v, hv⟩ : ∃ v : Vol, v = { u with de := newEntry u.de name ROOTINO } := ⟨_, rfl⟩
  have root : RootAt ip d l W v := by
    rw [hv]
    exact ⟨hu.at'.congr rfl rfl, hu.inode, hu.others⟩
  refine .modify ?_
  change Comp.Sat _ { u with de := newEntry u.de name ROOTINO } E _
  rw [← hv, Option.getD_none]
  refine .call (writei_known root size fits (map v root)) ?_
  rintro k w ⟨hk, r, d', l', W', hP, hw⟩
  refine .ite (fun bad => absurd hk bad) fun _ => .pure ⟨r, d', l', W', u.de, hP, ?_⟩
  rw [hv] at hw
  exact hw

section Search

variable {nm : List UInt8}

theorem entry_of_slotOf {de : Bytes DIRENT_SIZE} {j : ℕ} (h : slotOf de = some (j, nm)) :
    direntInum de ≠ 0 ∧ cstr (direntName de) DIRSIZ = nm := by
  unfold slotOf at h
  by_cases h0 : direntInum de = 0
  · rw [if_pos h0] at h
    exact (Option.some_ne_none _ h.symm).elim
  · rw [if_neg h0, Option.some.injEq, Prod.mk.injEq] at h
    exact ⟨h0, h.2⟩

/-- The search for another name passes the first entry. -/
theorem dirlookupAt_other {name : List UInt8} (h : RootAt ip d l W s) (hr : d.addr 0 = r)
    (high : INODES ≤ r) (lt : r < FSSIZE) (size : d.size.toNat = DIRENT_SIZE) (short : l.length ≤ 20)
    (entry : slotOf (entryAt (W r) 0) = some (ROOTINO, nm)) (other : cstr (nameOf name) DIRSIZ ≠ nm) :
    Comp.Sat (dirlookupAt ip name 0) s E fun x t => x = none ∧ RootAt ip d l W t := by
  obtain ⟨busy, shown⟩ := entry_of_slotOf entry
  unfold dirlookupAt
  refine .call (readDirent_known h hr high lt size short) ?_
  rintro de t ⟨hde, _, ht⟩
  subst hde
  refine .ite (fun bad => absurd bad busy) fun _ => .ite (fun same => ?_) fun _ => .pure ⟨rfl, ht⟩
  rw [strncmp_eq_zero_iff, shown] at same
  exact absurd same other

/-- The first entry is not free. -/
theorem dirlinkAt_busy (h : RootAt ip d l W s) (hr : d.addr 0 = r) (high : INODES ≤ r) (lt : r < FSSIZE)
    (size : d.size.toNat = DIRENT_SIZE) (short : l.length ≤ 20)
    (entry : slotOf (entryAt (W r) 0) = some (ROOTINO, nm)) :
    Comp.Sat (dirlinkAt ip 0) s E fun x t => x = none ∧ RootAt ip d l W t := by
  unfold dirlinkAt
  refine .call (readDirent_known h hr high lt size short) ?_
  rintro de t ⟨hde, _, ht⟩
  subst hde
  exact .ite (fun bad => absurd bad (entry_of_slotOf entry).1) fun _ => .pure ⟨rfl, ht⟩

end Search

/-- `ialloc` takes the first inode where it is free. -/
theorem ialloc_known (h : At 1 [] [] (whole W) s) (none : ∀ jp, (s.inode jp).ref = 0)
    (free : ((W INODES).dinode ROOTINO).type = 0) :
    Comp.Sat (ialloc ROOTDEV T_DIR) s E fun ip t => RootAt ip (.fresh T_DIR) [INODES]
      (Function.update W INODES ((W INODES).initDinode ROOTINO T_DIR)) t := by
  have block : IBLOCK ROOTINO s.sb = INODES := by
    rw [h.sb]
    rfl
  have inodes : List.range' 1 (s.sb.ninodes - 1) = ROOTINO :: List.range' 2 198 := by
    rw [h.sb]
    rfl
  have home : ¬ Log.InLog INODES := by decide
  have first : Comp.Sat (iallocAt ROOTDEV T_DIR ROOTINO) s E fun x t => ∃ ip, x = some ip ∧
      RootAt ip (.fresh T_DIR) [INODES]
        (Function.update W INODES ((W INODES).initDinode ROOTINO T_DIR)) t := by
    unfold iallocAt
    refine .get ?_
    rw [block]
    refine peek_sat h (by decide) (by decide) (by decide) ?_
    intro bp s₁ h₁ only₁
    refine .ite (fun _ => ?_) fun bad => absurd free bad
    refine modify_sat h₁ List.mem_cons_self home (by decide) _ ?_
    intro s₂ h₂ only₂
    rw [h₁.view_eq home, whole_update] at h₂
    refine .call (brelse_sat h₂) ?_
    rintro _ s₃ ⟨h₃, only₃, _⟩
    have inode₃ : s₃.inode = s.inode := (only₁.trans (only₂.trans only₃)).inode
    have got : Comp.Sat (iget ROOTDEV ROOTINO) s₃ E fun ip t => t = s₃.setInode ip
        { s₃.inode ip with dev := ROOTDEV, inum := ROOTINO, ref := 1, valid := false } := by
      unfold iget
      refine .get ?_
      split
      next ip hip =>
        have := List.find?_some hip
        rw [inode₃, none ip] at this
        simp at this
      next =>
        split
        next ip _ => exact .modify (.pure rfl)
        next full =>
          have := List.find?_eq_none.mp full 0 (List.mem_finRange 0)
          rw [inode₃, none] at this
          simp at this
    refine .call got ?_
    intro ip t ht
    subst ht
    refine .modify (.pure ⟨ip, rfl, (h₃.congr rfl rfl), ?_, fun jp hj => ?_⟩)
    · rw [setInode_self, setInode_self]
    · rw [setInode_of_ne _ hj, setInode_of_ne _ hj, inode₃]
      exact none jp
  unfold ialloc
  refine .get ?_
  rw [inodes]
  refine .bind (.call first ?_)
  rintro x t ⟨ip, hx, ht⟩
  subst hx
  exact .pure (.pure ht)

theorem makeRoot_silent (dev : ℕ) : Silent (makeRoot dev) :=
  .bind (ialloc_silent dev T_DIR) fun root => .gets fun _ => .ite (.halt _) <|
    .bind (ilock_silent root) fun _ => .bind (modInode_silent root _) fun _ =>
      .bind (iupdate_silent root) fun _ => .bind (dirlink_silent root _ _) fun _ =>
        .bind (dirlink_silent root _ _) fun _ => iunlockput_silent root

/-- What the second transaction makes of the blocks `W`; the entries of the root are in `r`. -/
structure Rooted (W : ℕ → Block) (r : ℕ) (F : ℕ → Block) : Prop where
  high : BITMAP < r
  lt : r < FSSIZE
  clear : (W BITMAP).bit r = false
  root : (F INODES).dinode ROOTINO = rootDinode r
  inodes : ∀ k, k ≠ ROOTINO → (F INODES).dinode k = (W INODES).dinode k
  bitmap : F BITMAP = (W BITMAP).setBit r
  dot : slotOf (entryAt (F r) 0) = some (ROOTINO, [46])
  dotdot : slotOf (entryAt (F r) DIRENT_SIZE) = some (ROOTINO, [46, 46])
  others : ∀ b, ¬ Log.InLog b → b ≠ INODES → b ≠ BITMAP → b ≠ r → F b = W b

theorem Rooted.congr {V F : ℕ → Block} (h : Rooted W r F) (same : ∀ b, ¬ Log.InLog b → W b = V b) :
    Rooted V r F := by
  have inodes := same INODES (by decide)
  have bitmap := same BITMAP (by decide)
  refine ⟨h.high, h.lt, bitmap ▸ h.clear, h.root, inodes ▸ h.inodes, bitmap ▸ h.bitmap, h.dot, h.dotdot, ?_⟩
  intro b home hi hb hr
  rw [← same b home]
  exact h.others b home hi hb hr

/-- The entry that has been written to a block. -/
theorem entryAt_put (x : Block) {off : ℕ} (de : Bytes DIRENT_SIZE) (fits : off + DIRENT_SIZE ≤ BSIZE) :
    entryAt (x.put off DIRENT_SIZE de.byte) off = de := by
  apply Bytes.ext_byte
  intro j hj
  rw [byte_entryAt _ _ hj, Bytes.byte_put _ _ _ _ _ (by omega), if_pos (by omega), Nat.add_sub_cancel_left]

/-- The other entries stay. -/
theorem entryAt_put_of_disjoint (x : Block) {off off' : ℕ} (de : Bytes DIRENT_SIZE)
    (apart : off' + DIRENT_SIZE ≤ off) : entryAt (x.put off DIRENT_SIZE de.byte) off' = entryAt x off' := by
  apply Bytes.ext_byte
  intro j hj
  rw [byte_entryAt _ _ hj, byte_entryAt _ _ hj, Bytes.byte_put_of_disjoint _ _ _ _ _ (by omega)]

theorem ilock_known (h : RootAt ip d l W s) : Comp.Sat (ilock ip) s E fun _ t => t = s := by
  unfold ilock
  refine .get ?_
  rw [h.inode]
  exact .ite (fun bad => absurd bad (Int.lt_irrefl 1)) fun _ => .ite (fun _ => .pure rfl) fun bad =>
    absurd rfl bad

/-- The root stays allocated: the last reference to it only goes. -/
theorem iunlockput_known (h : RootAt ip d l W s) : Comp.Sat (iunlockput ip) s E fun _ t =>
    At 1 [] l (whole W) t ∧ ∀ jp, (t.inode jp).ref = 0 := by
  unfold iunlockput iunlock iput
  refine .bind (.get ?_)
  rw [h.inode]
  refine .ite (fun bad => absurd bad (Int.lt_irrefl 1)) fun _ => .pure (.gets ?_)
  rw [h.inode]
  refine .ite (fun _ => .modified ⟨h.at'.congr rfl rfl, fun jp => ?_⟩) fun bad => absurd ⟨rfl, rfl⟩ bad
  by_cases hj : jp = ip
  · subst hj
    rw [setInode_self, h.inode]
    rfl
  · rw [setInode_of_ne s hj]
    exact h.others jp hj

/-- The inode of the root before its first entry. -/
def bareRoot : Dinode := { Dinode.fresh T_DIR with nlink := 2, size := 0 }

/-- The inode of the root once its entries take `n` bytes of the block `r`. -/
def rootOf (r n : ℕ) : Dinode := { bareRoot.setAddr 0 r with size := BitVec.ofNat 32 n }

theorem rootOf_addr (lt : r < FSSIZE) (n : ℕ) : (rootOf r n).addr 0 = r :=
  Dinode.addr_setAddr_self bareRoot (Nat.zero_le _) (Nat.lt_trans lt (by decide))

theorem rootOf_eq (r : ℕ) : rootOf r 48 = rootDinode r := rfl

/-- The first entry of the root. -/
theorem dot_sat (h : RootAt ip bareRoot [INODES] W s) (low : ∀ b ≤ BITMAP, (W BITMAP).bit b = true)
    (room : (∃ b < FSSIZE, (W BITMAP).bit b = false) ∨ ∀ w t, E w t) :
    Comp.Sat (dirlink ip [46] ROOTINO) s E fun _ t => ∃ r de, BITMAP < r ∧ r < FSSIZE ∧
      (W BITMAP).bit r = false ∧ RootAt ip (rootOf r DIRENT_SIZE) [INODES, BITMAP, r]
        (afterSave (afterEntry (afterAlloc W r) r 0 (newEntry de [46] ROOTINO)) (rootOf r DIRENT_SIZE)) t := by
  let P : ℕ → Dinode → List ℕ → (ℕ → Block) → Prop := fun r d' l' W' => BITMAP < r ∧ r < FSSIZE ∧
    (W BITMAP).bit r = false ∧ d' = bareRoot.setAddr 0 r ∧ l' = [INODES, BITMAP, r] ∧ W' = afterAlloc W r
  have map : ∀ t, RootAt ip bareRoot [INODES] W t → Comp.Sat (bmap ip 0) t E fun r u => ∃ d' l' W',
      P r d' l' W' ∧ RootAt ip d' l' W' u ∧ INODES ≤ r ∧ r < FSSIZE ∧ d'.size = bareRoot.size ∧
        l'.length < 20 ∧ u.de = t.de := by
    intro t ht
    refine (bmap_new ht (by decide) (by decide) low room).post ?_
    rintro r u ⟨high, lt, clear, hu, de⟩
    have list : noted r (noted BITMAP [INODES]) = [INODES, BITMAP, r] := by
      have apart : r ≠ 32 ∧ r ≠ 45 := by
        simp only [BITMAP] at high
        omega
      simp [noted, apart]
    rw [list] at hu
    refine ⟨_, _, _, ⟨high, lt, clear, rfl, rfl, rfl⟩, hu, ?_, lt, rfl, by simp, de⟩
    simp only [INODES, BITMAP] at *
    omega
  refine (dirlink_known (n := 0) h rfl rfl (by decide) (fun _ hm => absurd hm (Nat.not_lt_zero _))
    (fun _ hm => absurd hm (Nat.not_lt_zero _)) map).post ?_
  rintro _ t ⟨r, d', l', W', de, ⟨high, lt, clear, hd, hl, hW⟩, ht⟩
  subst hd hl hW
  have list : noted INODES (noted r [INODES, BITMAP, r]) = [INODES, BITMAP, r] := by
    simp [noted]
  rw [list] at ht
  exact ⟨r, de, high, lt, clear, ht⟩

/-- The second entry of the root. -/
theorem dotdot_sat {n : ℕ} (h : RootAt ip (rootOf r DIRENT_SIZE) [INODES, BITMAP, r] W s) (high : BITMAP < r)
    (lt : r < FSSIZE) (entry : slotOf (entryAt (W r) 0) = some (ROOTINO, [46]))
    (hn : n = DIRENT_SIZE + DIRENT_SIZE) :
    Comp.Sat (dirlink ip [46, 46] ROOTINO) s E fun _ t => ∃ de,
      RootAt ip (rootOf r n) [INODES, BITMAP, r]
        (afterSave (afterEntry W r DIRENT_SIZE (newEntry de [46, 46] ROOTINO)) (rootOf r n)) t := by
  have inode : INODES ≤ r := by
    simp only [INODES, BITMAP] at *
    omega
  have addr := rootOf_addr lt DIRENT_SIZE
  let P : ℕ → Dinode → List ℕ → (ℕ → Block) → Prop := fun r' d' l' W' =>
    r' = r ∧ d' = rootOf r DIRENT_SIZE ∧ l' = [INODES, BITMAP, r] ∧ W' = W
  have one : ∀ m < 1, m = 0 := fun m hm => by omega
  refine (dirlink_known (n := 1) (P := P) h rfl rfl (by decide) (fun m hm t ht => ?_)
    (fun m hm t ht => ?_) fun t ht => ?_).post ?_
  · rw [one m hm]
    exact dirlookupAt_other ht addr inode lt rfl (by simp) entry (by decide)
  · rw [one m hm]
    exact dirlinkAt_busy ht addr inode lt rfl (by simp) entry
  · refine (bmap_old ht addr (Nat.ne_of_gt (Nat.lt_of_lt_of_le (by decide) inode))).post ?_
    rintro a u ⟨ha, hu⟩
    subst ha hu
    exact ⟨_, _, _, ⟨rfl, rfl, rfl, rfl⟩, ht, inode, lt, rfl, by simp, rfl⟩
  · rintro _ t ⟨r', d', l', W', de, ⟨hr, hd, hl, hW⟩, ht⟩
    subst hr hd hl hW
    have list : noted INODES (noted r' [INODES, BITMAP, r']) = [INODES, BITMAP, r'] := by
      simp [noted]
    rw [list] at ht
    subst hn
    exact ⟨de, ht⟩

section Images

variable {b off : ℕ} {de : Bytes DIRENT_SIZE}

theorem afterSave_self : afterSave W d INODES = (W INODES).putDinode ROOTINO d := Function.update_self ..

theorem afterSave_of_ne (hb : b ≠ INODES) : afterSave W d b = W b := Function.update_of_ne hb ..

theorem afterEntry_self : afterEntry W r off de r = (W r).put off DIRENT_SIZE de.byte := Function.update_self ..

theorem afterEntry_of_ne (hb : b ≠ r) : afterEntry W r off de b = W b := Function.update_of_ne hb ..

theorem afterAlloc_self : afterAlloc W r r = Block.zero := Function.update_self ..

theorem afterAlloc_bitmap (hr : BITMAP ≠ r) : afterAlloc W r BITMAP = (W BITMAP).setBit r := by
  rw [afterAlloc, Function.update_of_ne hr, Function.update_self]

theorem afterAlloc_of_ne (hr : b ≠ r) (hb : b ≠ BITMAP) : afterAlloc W r b = W b := by
  rw [afterAlloc, Function.update_of_ne hr, Function.update_of_ne hb]

end Images

/-- The two entries of the root are written one after the other. -/
theorem makeRoot_sat (h : At 1 [] [] (whole W) s) (none : ∀ jp, (s.inode jp).ref = 0)
    (low : ∀ b ≤ BITMAP, (W BITMAP).bit b = true) (free : ((W INODES).dinode ROOTINO).type = 0)
    (room : (∃ b < FSSIZE, (W BITMAP).bit b = false) ∨ ∀ w t, E w t) :
    Comp.Sat (makeRoot ROOTDEV) s E fun _ t => (∃ r F, Rooted W r F ∧
      At 1 [] [INODES, BITMAP, r] (whole F) t) ∧ ∀ jp, (t.inode jp).ref = 0 := by
  unfold makeRoot
  refine .call (ialloc_known h none free) ?_
  intro ip s₁ h₁
  refine .gets ?_
  rw [h₁.inode]
  refine .ite (fun bad => absurd rfl bad) fun _ => .call (ilock_known h₁) ?_
  intro _ t same
  subst same
  have h₂ := h₁.setDinode bareRoot
  have set : t.setInode ip { t.inode ip with d := { (t.inode ip).d with nlink := 2, size := 0 } } =
      t.setInode ip { t.inode ip with d := bareRoot } := by
    rw [h₁.inode]
    rfl
  refine .modify ?_
  rw [set]
  refine .call (iupdate_known h₂ (by decide)) ?_
  rintro _ s₃ ⟨h₃, _⟩
  have list : noted INODES [INODES] = [INODES] := by decide
  rw [list] at h₃
  generalize hB : afterSave (Function.update W INODES ((W INODES).initDinode ROOTINO T_DIR)) bareRoot = B at h₃
  have bitmap : B BITMAP = W BITMAP := by
    rw [← hB, afterSave, Function.update_of_ne (by decide), Function.update_of_ne (by decide)]
  refine .call (dot_sat h₃ (bitmap.symm ▸ low) (bitmap.symm ▸ room)) ?_
  rintro _ s₄ ⟨r, de, high, lt, clear, h₄⟩
  have inode : r ≠ INODES ∧ BITMAP ≠ r := by
    simp only [INODES, BITMAP] at *
    omega
  generalize hD : afterSave (afterEntry (afterAlloc B r) r 0 (newEntry de [46] ROOTINO))
    (rootOf r DIRENT_SIZE) = D at h₄
  have block : D r = Bytes.put Block.zero 0 DIRENT_SIZE (newEntry de [46] ROOTINO).byte := by
    rw [← hD, afterSave_of_ne inode.1, afterEntry_self, afterAlloc_self]
  have dot : slotOf (entryAt (D r) 0) = some (ROOTINO, [46]) := by
    rw [block, entryAt_put _ _ (by decide)]
    exact slotOf_new (by decide) (by decide)
  refine .call (dotdot_sat h₄ high lt dot rfl) ?_
  rintro _ s₅ ⟨de', h₅⟩
  refine (iunlockput_known h₅).post ?_
  rintro _ t ⟨ht, refs⟩
  refine ⟨⟨r, _, ⟨high, lt, bitmap ▸ clear, ?_, fun k hk => ?_, ?_, ?_, ?_, fun b _ hi hb hr => ?_⟩, ht⟩, refs⟩
  · rw [afterSave_self, Block.dinode_putDinode_self (by decide)]
    rfl
  · rw [afterSave_self, Block.dinode_putDinode_of_ne hk, afterEntry_of_ne inode.1.symm, ← hD, afterSave_self,
      Block.dinode_putDinode_of_ne hk, afterEntry_of_ne inode.1.symm, afterAlloc_of_ne inode.1.symm (by decide),
      ← hB, afterSave_self, Block.dinode_putDinode_of_ne hk, Function.update_self,
      Block.dinode_initDinode_of_ne hk]
  · rw [afterSave_of_ne (by decide), afterEntry_of_ne inode.2, ← hD, afterSave_of_ne (by decide),
      afterEntry_of_ne inode.2, afterAlloc_bitmap inode.2, bitmap]
  · rw [afterSave_of_ne inode.1, afterEntry_self, entryAt_put_of_disjoint _ _ (by decide)]
    exact dot
  · rw [afterSave_of_ne inode.1, afterEntry_self, entryAt_put _ _ (by decide)]
    exact slotOf_new (by decide) (by decide)
  · rw [afterSave_of_ne hi, afterEntry_of_ne hr, ← hD, afterSave_of_ne hi, afterEntry_of_ne hr,
      afterAlloc_of_ne hr hb, ← hB, afterSave_of_ne hi, Function.update_of_ne hi]

end Root

end EasyXv6.Fs.Vol
