import EasyXv6.Fs.Commit

set_option autoImplicit false

/-!
# Recovery after a crash

A disk is recoverable to contents `D` when replaying the transaction that its log header lists
gives `D` outside the log. Every single write of a commit and of a recovery keeps that.
-/
namespace EasyXv6.Fs.Log
open Lib Blk

def Recoverable (D d : ℕ → Block) : Prop :=
  ∃ l : List ℕ, HeaderIs l (d 2) ∧ l.length ≤ 29 ∧ (∀ b ∈ l, b < FSSIZE ∧ ¬ InLog b) ∧
    ∀ b, ¬ InLog b → applyWrites (installs l d) d b = D b

/-- `sb` after `fs_init` has formatted a disk. -/
def formatted : Superblock where
  magic := FSMAGIC
  size := FSSIZE
  nblocks := FSSIZE - 100
  ninodes := 200
  nlog := 30
  logstart := 2
  inodestart := 32
  bmapstart := 45

/-- Memory at power-on. -/
def boot (disk : ℕ → Block) : Blk :=
  ⟨Bio.bioInit disk, ⟨0, 0, 0, 0, false, ⟨0, fun _ => 0⟩⟩⟩

section Crash

variable {D d e : ℕ → Block} {l : List ℕ}

theorem Recoverable.of_clean (hn : (d 2).headerN = 0) (h : ∀ b, ¬ InLog b → d b = D b) :
    Recoverable D d :=
  ⟨[], .of_n hn, by simp, by simp, h⟩

theorem Recoverable.congr {E : ℕ → Block} (h : Recoverable D d) (hE : ∀ b, ¬ InLog b → D b = E b) :
    Recoverable E d := by
  obtain ⟨l, hl, short, home, heq⟩ := h
  exact ⟨l, hl, short, home, fun b hb => (heq b hb).trans (hE b hb)⟩

theorem installs_congr (h : ∀ i < l.length, e (3 + i) = d (3 + i)) : installs l e = installs l d := by
  apply List.ext_getElem
  · simp [installs]
  · intro i h1 h2
    have hi : i < l.length := by simpa [installs] using h1
    simp [installs, h i hi]

/-- While only listed blocks have changed, the header on the disk still leads to the same replay. -/
theorem Recoverable.of_listed (hl : HeaderIs l (d 2)) (short : l.length ≤ 29)
    (home : ∀ b ∈ l, b < FSSIZE ∧ ¬ InLog b) (h2 : e 2 = d 2)
    (copy : ∀ i < l.length, e (3 + i) = d (3 + i)) (rest : ∀ b, ¬ InLog b → b ∉ l → e b = d b) :
    Recoverable (applyWrites (installs l d) d) e := by
  refine ⟨l, h2 ▸ hl, short, home, ?_⟩
  intro b hb
  rw [installs_congr copy]
  apply applyWrites_congr_at
  rw [installs_fst]
  by_cases hm : b ∈ l
  · exact Or.inl hm
  · exact Or.inr (rest b hb hm)

/-- A crash while a logged transaction goes home, or just after its header is cleared, loses
    nothing. -/
theorem crash_installing (hl : HeaderIs l (d 2)) (short : l.length ≤ 29)
    (home : ∀ b ∈ l, b < FSSIZE ∧ ¬ InLog b) {clear : Block} (hc : clear.headerN = 0) :
    AtEveryCrash (Recoverable (applyWrites (installs l d) d)) d (installs l d ++ [(2, clear)]) := by
  have start : Recoverable (applyWrites (installs l d) d) d :=
    .of_listed hl short home rfl (fun _ _ => rfl) (fun _ _ _ => rfl)
  let P : (ℕ → Block) → Prop := fun e =>
    e 2 = d 2 ∧ (∀ i < l.length, e (3 + i) = d (3 + i)) ∧ ∀ b, ¬ InLog b → b ∉ l → e b = d b
  have rounds : AtEveryCrash P d (installs l d) := by
    apply AtEveryCrash.of_step
    · exact ⟨rfl, fun _ _ => rfl, fun _ _ _ => rfl⟩
    · rintro e w hw ⟨h2, copy, rest⟩
      have hm : w.1 ∈ l := by
        rw [← installs_fst l d]
        exact List.mem_map_of_mem hw
      have hw' := (home _ hm).2
      refine ⟨?_, ?_, ?_⟩
      · rw [Function.update_of_ne, h2]
        intro h
        exact hw' (h ▸ by decide)
      · intro i hi
        rw [Function.update_of_ne, copy i hi]
        intro h
        exact hw' (h ▸ ⟨by omega, by omega⟩)
      · intro b hb hbl
        rw [Function.update_of_ne, rest b hb hbl]
        rintro rfl
        exact hbl hm
  refine AtEveryCrash.append (rounds.imp ?_) (.cons ?_ (.nil ?_))
  · rintro e ⟨h2, copy, rest⟩
    exact .of_listed hl short home h2 copy rest
  · obtain ⟨h2, copy, rest⟩ := rounds.last
    exact .of_listed hl short home h2 copy rest
  · apply Recoverable.of_clean
    · simpa using hc
    · intro b hb
      apply Function.update_of_ne
      rintro rfl
      exact hb (show InLog 2 by decide)

/-- The contents outside the log that a commit of `l` is to produce. -/
def committed (l : List ℕ) (view d : ℕ → Block) (b : ℕ) : Block := if b ∈ l then view b else d b

/-- The write of a header that lists a transaction is on the disk. -/
def atCommitPoint (ws : List (ℕ × Block)) : Bool := ws.any (·.1 = 2)

theorem atCommitPoint_of_mem {ws : List (ℕ × Block)} {d : Block} (h : (2, d) ∈ ws) :
    atCommitPoint ws = true :=
  List.any_eq_true.mpr ⟨_, h, by simp⟩

theorem not_atCommitPoint_of_copies {view : ℕ → Block} {ws : List (ℕ × Block)}
    (h : ∀ w ∈ ws, w ∈ copies l view) : atCommitPoint ws = false := by
  rw [atCommitPoint, List.any_eq_false]
  intro w hw
  obtain ⟨i, _, hi⟩ := copies_fst (List.mem_map_of_mem (h w hw))
  simp only [decide_eq_true_eq]
  omega

/-- A crash during a commit leaves the old contents up to the write of the header and the new
    ones from it on. -/
theorem crash_commit {view : ℕ → Block} {ws : List (ℕ × Block)} (clean : (d 2).headerN = 0)
    (short : l.length ≤ 29) (home : ∀ b ∈ l, b < FSSIZE ∧ ¬ InLog b)
    (trace : CommitTrace l view ws) :
    (∀ k, Recoverable (if atCommitPoint (ws.take k) then committed l view d else d)
        (applyWrites (ws.take k) d)) ∧
      (applyWrites ws d 2).headerN = 0 ∧
      ∀ b, ¬ InLog b → applyWrites ws d b = committed l view d b := by
  have old : Recoverable d d := .of_clean clean (fun _ _ => rfl)
  cases trace with
  | empty h =>
    subst h
    exact ⟨fun k => by simpa [atCommitPoint] using old, by simpa using clean,
      fun b _ => by simp [committed]⟩
  | full hd clear hh hc =>
    let P : (ℕ → Block) → Prop := fun e => e 2 = d 2 ∧ ∀ b, ¬ InLog b → e b = d b
    have logged : AtEveryCrash P d (copies l view) := by
      apply AtEveryCrash.of_step
      · exact ⟨rfl, fun _ _ => rfl⟩
      · rintro e w hw ⟨h2, rest⟩
        obtain ⟨i, hi, hwi⟩ := copies_fst (List.mem_map_of_mem hw)
        refine ⟨?_, ?_⟩
        · rw [Function.update_of_ne (by omega), h2]
        · intro b hb
          rw [Function.update_of_ne, rest b hb]
          rintro rfl
          exact hb ⟨by omega, by omega⟩
    have toOld : ∀ e, P e → Recoverable d e := by
      rintro e ⟨h2, rest⟩
      exact .of_clean (by rw [h2]; exact clean) rest
    obtain ⟨_, rest1⟩ := logged.last
    -- after the commit point the header lists `l` and the copies hold the new contents
    let d2 : ℕ → Block := Function.update (applyWrites (copies l view) d) 2 hd
    have hl : HeaderIs l (d2 2) := by simpa [d2] using hh
    have inst : installs l d2 = l.map (fun b => (b, view b)) := by
      apply List.ext_getElem
      · simp [installs]
      · intro i h1 h2
        have hi : i < l.length := by simpa [installs] using h1
        have copy : d2 (3 + i) = view l[i] := by
          simp only [d2]
          rw [Function.update_of_ne (by omega)]
          exact copies_apply _ _ i hi
        simp [installs, copy]
    have new : ∀ b, ¬ InLog b → applyWrites (installs l d2) d2 b = committed l view d b := by
      intro b hb
      rw [inst, applyWrites_map]
      unfold committed
      split
      · rfl
      · simp only [d2]
        rw [Function.update_of_ne, rest1 b hb]
        rintro rfl
        exact hb (by decide)
    have after := crash_installing hl short home hc
    rw [inst] at after
    refine ⟨?_, ?_, ?_⟩
    · intro k
      by_cases hk : k ≤ (copies l view).length
      · rw [List.take_append_of_le_length hk, not_atCommitPoint_of_copies (fun w => List.mem_of_mem_take)]
        exact toOld _ (logged k)
      · obtain ⟨j, hj⟩ : ∃ j, k - (copies l view).length = j + 1 := ⟨_, (Nat.succ_pred (by omega)).symm⟩
        rw [List.take_append, List.take_of_length_le (by omega), hj, List.take_succ_cons,
          atCommitPoint_of_mem (d := hd) (by simp), if_pos rfl, applyWrites_append,
          applyWrites_cons]
        exact (after j).congr (inst ▸ new)
    · rw [applyWrites_append, applyWrites_cons, applyWrites_append, applyWrites_cons]
      simpa using hc
    · intro b hb
      have b2 : b ≠ 2 := by
        rintro rfl
        exact hb (by decide)
      rw [applyWrites_append, applyWrites_cons, applyWrites_append, applyWrites_cons,
        applyWrites_nil, Function.update_of_ne b2, ← new b hb, inst]

end Crash

section Recover

variable {D d : ℕ → Block}

theorem CtxIs.setLh {l : List ℕ} {c : LogCtx} {lh : LogHeader} (hdev : c.dev = ROOTDEV)
    (hstart : c.start = 2) (hsize : c.size = 30) (hn : lh.n = l.length)
    (hb : ∀ i (h : i < l.length), lh.block i = (l[i] : ℤ)) : CtxIs l (c.setLh lh) :=
  ⟨hdev, hstart, hsize, hn, hb⟩

theorem HeaderIs.readHeader {l : List ℕ} {b : Block} (h : HeaderIs l b) (old : LogHeader) :
    ∃ lh, lh = readHeader b.headerN b.headerBlock old ∧ lh.n = l.length ∧
      ∀ i (h : i < l.length), lh.block i = (l[i] : ℤ) := by
  refine ⟨_, rfl, (readHeader_n ..).trans h.n, ?_⟩
  intro i hi
  exact (readHeader_block (by rw [h.n]; omega) _ _).trans (h.block i hi)

theorem readHead_returns {l : List ℕ} {s : Blk} (hb : s.bio.Inv ∅ [] []) (hdev : s.ctx.dev = ROOTDEV)
    (hstart : s.ctx.start = 2) (hsize : s.ctx.size = 30) (hl : HeaderIs l (s.bio.disk 2))
    (short : l.length ≤ 29) :
    ∃ s', readHead.run s = .ok () s' ∧ s'.bio.Inv ∅ [] [] ∧ CtxIs l s'.ctx ∧
      s'.ctx.outstanding = s.ctx.outstanding ∧ s'.ctx.committing = s.ctx.committing ∧
      Issued [] s s' := by
  obtain ⟨i, t1, h1⟩ := hb.bread_returns (b := 2) (by decide) (Or.inr (by decide))
  have p1 := hb.bread h1
  have hdata : (t1.buf i).data = s.bio.disk 2 := by
    rw [p1.data, hb.view_of_clean (by simp) (by simp)]
  obtain ⟨t2, h2⟩ := p1.inv.brelse_returns (i := i) (by simp)
  obtain ⟨inv2, same⟩ := p1.inv.brelse (i := i) (by simp) h2
  rw [List.erase_cons_head] at inv2
  have hn : ¬ ((LOGSIZE : ℤ) < (s.bio.disk 2).headerN) := by
    rw [hl.n]
    simp only [LOGSIZE]
    omega
  have hu : u64 s.ctx.start = 2 := by
    rw [hstart]
    rfl
  obtain ⟨lh, hlh, lhn, lhb⟩ := hl.readHeader s.ctx.lh
  refine ⟨{ bio := t2, ctx := s.ctx.setLh lh }, ?_, inv2, .setLh hdev hstart hsize lhn lhb, rfl, rfl,
    ⟨same.disk.trans p1.disk,
      (same.issued.trans p1.issued).trans (List.append_nil _).symm⟩⟩
  unfold readHead
  rw [Comp.bind_get_run, hdev, hu]
  refine (Comp.run_bind_of_ok (liftBio_run_of_ok h1)).trans ?_
  refine (Comp.run_bind_of_ok (data_run _ _)).trans ?_
  rw [hdata, Comp.run_ite, if_neg hn, modCtx, Comp.bind_modify_run, ← hlh]
  exact liftBio_run_of_ok h2

/-- Recovery on a cold cache returns, loses nothing at any crash, installs the transaction that
    the header lists and clears the header. -/
theorem logInit_returns (h : Recoverable D d) :
    ∃ s' ws, (logInit ROOTDEV formatted).run (boot d) = .ok () s' ∧ Inv ∅ [] [] s' ∧
      s'.ctx.outstanding = 0 ∧ s'.ctx.committing = false ∧ Issued ws (boot d) s' ∧
      AtEveryCrash (Recoverable D) d ws ∧ (s'.bio.disk 2).headerN = 0 ∧
      ∀ b, ¬ InLog b → s'.bio.disk b = D b := by
  obtain ⟨l, hl, short, home, heq⟩ := h
  let s0 : Blk := { boot d with ctx := { (boot d).ctx with dev := ROOTDEV, start := 2, size := 30 } }
  have none : ∀ b ∈ (∅ : Set ℕ), ¬ InLog b := by simp
  obtain ⟨s1, h1, bio1, c1, o1, m1, i1⟩ :=
    readHead_returns (s := s0) (Bio.bioInit_Inv d) rfl rfl rfl hl short
  have disk1 : s1.bio.disk = d := i1.disk
  obtain ⟨s2, h2, bio2, c2, i2⟩ := installTrans_recovering bio1 c1 home short none
  rw [disk1] at i2
  let s3 : Blk := { s2 with ctx := s2.ctx.setLh { s2.ctx.lh with n := 0 } }
  have c3 : CtxIs [] s3.ctx := CtxIs.clear (c2 ▸ c1)
  obtain ⟨s4, h4, bio4, w4⟩ := writeHead_returns (s := s3) bio2 c3 (by decide) (by simp) (by simp)
  have clear := (HeaderIs.putHeader c3 (by simp) (by simp) (s2.bio.disk 2)).n
  rw [List.length_nil, Int.natCast_zero] at clear
  have i4 : Issued [(2, (s2.bio.disk 2).putHeader s3.ctx.lh)] s2 s4 :=
    ⟨w4.issued1.disk, w4.issued1.issued⟩
  have out : s4.ctx.outstanding = 0 := by
    rw [w4.ctx]
    change s2.ctx.outstanding = 0
    rw [c2, o1]
    rfl
  have com : s4.ctx.committing = false := by
    rw [w4.ctx]
    change s2.ctx.committing = false
    rw [c2, m1]
    rfl
  have all := i1.append (i2.append i4)
  have crash := crash_installing hl short home clear
  refine ⟨s4, _, ?_, ⟨bio4, w4.ctx ▸ c3, List.nodup_nil, by simp, by simp, by simp⟩, out, com,
    ⟨all.disk, all.issued⟩, crash.imp (fun e he => he.congr heq), ?_, ?_⟩
  · unfold logInit recoverFromLog
    refine (Comp.run_bind_of_ok (a := ()) (t := s0) ?_).trans ?_
    · unfold modCtx
      rw [Comp.run_modify, show i32 formatted.logstart = 2 from i32_of_small (by decide),
        show i32 formatted.nlog = 30 from i32_of_small (by decide)]
    refine (Comp.run_bind_of_ok h1).trans ?_
    refine (Comp.run_bind_of_ok h2).trans ?_
    refine (Comp.run_bind_of_ok clearHead_run).trans ?_
    exact h4
  · rw [i4.disk]
    simpa using clear
  · intro b hb
    rw [i4.disk, applyWrites_cons, applyWrites_nil, Function.update_of_ne, i2.disk, disk1]
    · exact heq b hb
    · rintro rfl
      exact hb (show InLog 2 by decide)

end Recover

section CrashSafe

/-- The writes between two states leave disks with `P`, whichever of them a crash comes after. -/
def CrashSafe (P : (ℕ → Block) → Prop) (s s' : Blk) : Prop :=
  ∃ ws, Issued ws s s' ∧ AtEveryCrash P s.bio.disk ws

variable {P Q : (ℕ → Block) → Prop} {s t u : Blk}

theorem CrashSafe.refl (h : P s.bio.disk) : CrashSafe P s s := ⟨[], .nil s, .nil h⟩

theorem CrashSafe.trans (h : CrashSafe P s t) (h' : CrashSafe P t u) : CrashSafe P s u := by
  obtain ⟨ws, issued, safe⟩ := h
  obtain ⟨ws', issued', safe'⟩ := h'
  rw [issued.disk] at safe'
  exact ⟨ws ++ ws', issued.append issued', safe.append safe'⟩

theorem CrashSafe.imp (h : CrashSafe P s t) (hpq : ∀ d, P d → Q d) : CrashSafe Q s t := by
  obtain ⟨ws, issued, safe⟩ := h
  exact ⟨ws, issued, safe.imp hpq⟩

/-- Where nothing is written, a crash leaves the disk as it is. -/
theorem CrashSafe.of_same (h : P s.bio.disk) (disk : t.bio.disk = s.bio.disk)
    (issued : t.bio.issued = s.bio.issued) : CrashSafe P s t :=
  ⟨[], ⟨disk, issued.trans (List.append_nil _).symm⟩, .nil h⟩

end CrashSafe

end EasyXv6.Fs.Log
