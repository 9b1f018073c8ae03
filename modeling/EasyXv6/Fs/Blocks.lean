import EasyXv6.Fs.Icache

set_option autoImplicit false

/-!
# Taking and freeing blocks

`Fits F k l` bounds the log: the transaction has recorded blocks of `F` and at most `k` others.
-/
namespace EasyXv6.Fs
open Lib

def Fits (F : Finset ℕ) (k : ℕ) (l : List ℕ) : Prop :=
  ∃ X : Finset ℕ, X.card ≤ k ∧ ∀ c ∈ l, c ∈ F ∨ c ∈ X

section Fits

variable {F : Finset ℕ} {k m b : ℕ} {l : List ℕ}

theorem Fits.length_le (h : Fits F k l) (nodup : l.Nodup) : l.length ≤ F.card + k := by
  obtain ⟨X, hX, hl⟩ := h
  have sub : l.toFinset ⊆ F ∪ X := by
    intro c hc
    exact Finset.mem_union.mpr (hl c (List.mem_toFinset.mp hc))
  calc l.length = l.toFinset.card := (List.toFinset_card_of_nodup nodup).symm
    _ ≤ (F ∪ X).card := Finset.card_le_card sub
    _ ≤ F.card + X.card := Finset.card_union_le F X
    _ ≤ F.card + k := Nat.add_le_add_left hX _

theorem Fits.mono (h : Fits F k l) (hkm : k ≤ m) : Fits F m l := by
  obtain ⟨X, hX, hl⟩ := h
  exact ⟨X, Nat.le_trans hX hkm, hl⟩

theorem Fits.known (h : Fits F k l) (hb : b ∈ F) : Fits F k (Vol.noted b l) := by
  obtain ⟨X, hX, hl⟩ := h
  refine ⟨X, hX, fun c hc => ?_⟩
  rcases Vol.mem_noted.mp hc with rfl | hc
  · exact Or.inl hb
  · exact hl c hc

theorem Fits.noted (h : Fits F k l) (b : ℕ) : Fits F (k + 1) (Vol.noted b l) := by
  obtain ⟨X, hX, hl⟩ := h
  refine ⟨insert b X, Nat.le_trans (Finset.card_insert_le b X) (Nat.succ_le_succ hX), fun c hc => ?_⟩
  rcases Vol.mem_noted.mp hc with rfl | hc
  · exact Or.inr (Finset.mem_insert_self c X)
  · exact (hl c hc).imp_right (Finset.mem_insert_of_mem)

theorem Fits.nil (F : Finset ℕ) : Fits F 0 [] := ⟨∅, Nat.le_refl 0, by simp⟩

end Fits

/-- `b` is in use. -/
def Vol.InUse (s : Vol) (b : ℕ) : Prop := (s.view BITMAP).bit b = true

/-- The panics for lack of room: every block is in use, no inode is free, or the next entry of a
    directory would be past the largest file. -/
def NoRoom (w : String) (s : Vol) : Prop :=
  w = "fs_alloc: out of blocks" ∧ (∀ b < FSSIZE, s.InUse b) ∨ w = "ialloc: no inodes" ∨
    w = "dirlink: write" ∧ ∃ ip, MAXFILE * BSIZE < (s.inode ip).d.size.toNat + DIRENT_SIZE

/-- The panics that a full disk or a full table of inodes leads to: there is no room only if `full`,
    and no slot only if `cap` of them are in use. -/
def Limit (cap : ℕ) (full : Prop) (w : String) (s : Vol) : Prop :=
  full ∧ NoRoom w s ∨ w = "iget: no inodes" ∧ NINODE ≤ cap

/-- The blocks that `fs_alloc` can still hand out. -/
def Image.free (V : Image) : ℕ := ((Finset.range FSSIZE).filter fun b => V.bit b = false).card

section Free

variable {V V' : Image} {b : ℕ}

theorem Image.free_congr (h : ∀ b, V'.bit b = V.bit b) : V'.free = V.free := by
  unfold Image.free
  simp only [h]

theorem Image.free_take (clear : V.bit b = false) (lt : b < FSSIZE) (high : BITMAP < b) :
    (V.take b).free + 1 = V.free := by
  have mem : b ∈ (Finset.range FSSIZE).filter fun b => V.bit b = false :=
    Finset.mem_filter.mpr ⟨Finset.mem_range.mpr lt, clear⟩
  have erase : (Finset.range FSSIZE).filter (fun c => (V.take b).bit c = false) =
      ((Finset.range FSSIZE).filter fun b => V.bit b = false).erase b := by
    ext c
    rw [Finset.mem_filter, Finset.mem_erase, Finset.mem_filter, Image.bit_take lt high]
    by_cases hc : c = b
    · simp [hc]
    · simp [hc]
  unfold Image.free
  rw [erase, Finset.card_erase_add_one mem]

end Free

namespace Vol

variable {cap : ℕ} {full : Prop} {o : ℤ} {held : List (Fin NBUF × ℕ)} {l : List ℕ} {V : Image}
  {D : ℕ → Dinode} {s : Vol} {i : Fin NBUF} {b : ℕ} {d : Dinode} {F : Finset ℕ} {k : ℕ}
  {E : String → Vol → Prop}

theorem not_inLog_of_high (hb : INODES ≤ b) : ¬ Log.InLog b := by
  intro h
  have := h.2
  simp only [INODES] at hb
  omega

theorem At.length_le (h : At o held l V s) (fits : Fits F k l) : l.length ≤ F.card + k :=
  fits.length_le h.inv.nodup

theorem At.block_eq (h : At o held l V s) (hb : INODES ≤ b) (hV : V b ≠ none) :
    s.view b = V.block b := by
  obtain ⟨d, hd⟩ := Option.ne_none_iff_exists'.mp hV
  rw [Image.block_of hd]
  exact h.view b d (not_inLog_of_high hb) hd

theorem At.inUse_iff {held : List (Fin NBUF × ℕ)} {l : List ℕ} {V : Image} {b : ℕ}
    (h : At o held l V s) (known : V BITMAP ≠ none) : InUse s b ↔ V.bit b = true := by
  unfold InUse
  rw [h.block_eq (by decide) known]
  rfl

/-- Between two operations on inodes: `D` are the inodes that the kernel goes by. -/
structure FsAt (o : ℤ) (held : List (Fin NBUF × ℕ)) (l : List ℕ) (V : Image) (D : ℕ → Dinode)
    (s : Vol) : Prop where
  blk : At o held l V s
  ok : Ok V D s.inode

theorem FsAt.of_onlyBlk {s' : Vol} {held' : List (Fin NBUF × ℕ)} (h : FsAt o held l V D s)
    (blk : At o held' l V s') (only : OnlyBlk s s') : FsAt o held' l V D s' :=
  ⟨blk, only.inode ▸ h.ok⟩

/-- The bitmap block once the free bits are searched: the round of `fs_alloc` for its only block. -/
theorem fsAllocIn_sat (h : At 1 held l V s) (laid : Laid V D) (fits : Fits F k l) (hF : BITMAP ∈ F)
    (room : F.card + k ≤ 28 ∨ ∀ w t, E w t) (hheld : held.length ≤ 1) :
    Comp.Sat (fsAllocIn ROOTDEV 0) s E fun r s' =>
      (r = none → V.free = 0 ∧ ∀ b < FSSIZE, InUse s' b) ∧
      ∀ b, r = some b → ∃ l', At 1 held l' (V.take b) s' ∧ Fits F (k + 1) l' ∧ (∀ c ∈ l, c ∈ l') ∧
        b ∈ l' ∧ OnlyBlk s s' ∧ V.bit b = false ∧ b < FSSIZE ∧
          ∀ c, BITMAP < c → V.bit c = true → Log.Falls c s.blk s'.blk := by
  have len := h.length_le fits
  have known : V BITMAP ≠ none := fun hn => absurd (laid.known _ hn) (Nat.lt_irrefl _)
  have hbb : BBLOCK 0 s.sb = BITMAP := by
    rw [h.sb]
    rfl
  unfold fsAllocIn
  refine .get ?_
  rw [hbb]
  refine .call (bread_or_sat h (by decide) (room.imp (fun _ => by simp only [Spare, NBUF]; omega) id)) ?_
  rintro bp s₁ ⟨h₁, only₁, -, reread₁⟩
  refine .call (data_sat h₁ List.mem_cons_self) ?_
  rintro _ _ ⟨rfl, rfl⟩
  rw [h₁.block_eq (by decide) known]
  split
  next bi hbi =>
    have clear : V.bit bi = false := by simpa [Image.bit] using List.find?_some hbi
    have lt : bi < FSSIZE := by
      have := List.mem_range.mp (List.mem_of_find?_eq_some hbi)
      rw [h.sb] at this
      simp only [Log.formatted] at this
      omega
    have high : INODES ≤ bi := Nat.le_of_lt (Nat.lt_trans (by decide) (laid.high_of_clear clear))
    refine modify_or_sat h₁ List.mem_cons_self (not_inLog_of_high (by decide))
      (room.imp (fun _ => by omega) id) _ ?_
    intro s₂ h₂ only₂ view₂
    rw [h₁.block_eq (by decide) known] at h₂
    refine .call (brelse_sat h₂) ?_
    rintro _ s₃ ⟨h₃, only₃, -, reread₃⟩
    have fits₃ := fits.known hF
    have len₃ := h₃.length_le fits₃
    rw [Nat.zero_add]
    -- the block itself is cleared
    refine .call (bread_or_sat h₃ lt (room.imp (fun _ => by simp only [Spare, NBUF]; omega) id)) ?_
    rintro zbp s₄ ⟨h₄, only₄, -, reread₄⟩
    refine modify_or_sat h₄ List.mem_cons_self (not_inLog_of_high high)
      (room.imp (fun _ => by omega) id) _ ?_
    intro s₅ h₅ only₅ view₅
    refine .call (brelse_sat h₅) ?_
    rintro _ s₆ ⟨h₆, only₆, -, reread₆⟩
    refine .pure ⟨by rintro ⟨⟩, ?_⟩
    rintro _ ⟨⟩
    refine ⟨_, h₆, fits₃.noted bi, fun c hc => ?_, mem_noted.mpr (Or.inl rfl), ?_, clear, lt,
      fun c hc used => ?_⟩
    · exact mem_noted.mpr (Or.inr (mem_noted.mpr (Or.inr hc)))
    · exact only₁.trans (only₂.trans (only₃.trans (only₄.trans (only₅.trans only₆))))
    · have ne : c ≠ bi := by
        rintro rfl
        exact absurd (used.symm.trans clear) (by decide)
      exact (reread₁.falls c).trans ((only₂.falls view₂ (Nat.ne_of_gt hc)).trans ((reread₃.falls c).trans
        ((reread₄.falls c).trans ((only₅.falls view₅ ne).trans (reread₆.falls c)))))
  next none =>
    refine .call (brelse_sat h₁) ?_
    rintro _ s₂ ⟨h₂, -⟩
    refine .pure ⟨fun _ => ?_, by rintro _ ⟨⟩⟩
    have bits : ∀ b < FSSIZE, V.bit b = true := by
      intro b lt
      have := List.find?_eq_none.mp none b
      rw [h.sb, List.mem_range] at this
      have := this (by simpa [Log.formatted] using ⟨Nat.lt_trans lt (by decide : FSSIZE < BPB), lt⟩)
      simpa [Image.bit] using this
    refine ⟨?_, fun b lt => (h₂.inUse_iff known).mpr (bits b lt)⟩
    rw [Image.free, Finset.card_eq_zero, Finset.filter_eq_empty_iff]
    intro b hb
    rw [bits b (Finset.mem_range.mp hb)]
    decide

theorem fsAlloc_sat (h : At 1 held l V s) (laid : Laid V D) (fits : Fits F k l) (hF : BITMAP ∈ F)
    (room : F.card + k ≤ 28 ∨ ∀ w t, E w t) (hheld : held.length ≤ 1) (free : full ∨ 1 ≤ V.free)
    (stop : ∀ w t, Limit cap full w t → E w t) :
    Comp.Sat (fsAlloc ROOTDEV) s E fun b s' => ∃ l', At 1 held l' (V.take b) s' ∧
      Fits F (k + 1) l' ∧ (∀ c ∈ l, c ∈ l') ∧ b ∈ l' ∧ OnlyBlk s s' ∧ V.bit b = false ∧
        b < FSSIZE ∧ ∀ c, BITMAP < c → V.bit c = true → Log.Falls c s.blk s'.blk := by
  have hbs : (List.range ((s.sb.size + BPB - 1) / BPB)).map (· * BPB) = [0] := by
    rw [h.sb]
    rfl
  unfold fsAlloc
  refine .get ?_
  rw [hbs]
  refine .bind (.call (fsAllocIn_sat h laid fits hF room hheld) ?_)
  intro r t hr
  cases r with
  | some b => exact .pure (.pure (hr.2 b rfl))
  | none =>
    have := hr.1 rfl
    exact .pure (.halt (stop _ _ (Or.inl ⟨free.resolve_right (by omega), Or.inl ⟨rfl, this.2⟩⟩)))

/-- `fs_free` of a block that is in use. -/
theorem fsFree_sat (h : At 1 held l V s) (known : V BITMAP ≠ none) (used : V.bit b = true)
    (hb : b < FSSIZE) (fits : Fits F k l) (hF : BITMAP ∈ F) (room : F.card + k ≤ 28)
    (hheld : held.length ≤ 1) :
    Comp.Sat (fsFree ROOTDEV b) s (Limit cap full) fun _ s' => ∃ l',
      At 1 held l' (Function.update V BITMAP (some ((V.block BITMAP).clearBit b))) s' ∧
        Fits F k l' ∧ OnlyBlk s s' := by
  have len := h.length_le fits
  have hbb : BBLOCK b s.sb = BITMAP := by
    rw [h.sb]
    simp only [BBLOCK, Log.formatted, BITMAP, BPB, BSIZE, FSSIZE] at *
    omega
  have hmod : b % BPB = b := Nat.mod_eq_of_lt (Nat.lt_trans hb (by decide))
  unfold fsFree
  refine .get ?_
  rw [hbb, hmod]
  refine .call (bread_sat h (by decide) (by simp only [Spare, NBUF]; omega)) ?_
  rintro bp s₁ ⟨h₁, only₁, -⟩
  refine .call (data_sat h₁ List.mem_cons_self) ?_
  rintro _ _ ⟨rfl, rfl⟩
  rw [h₁.block_eq (by decide) known]
  refine .ite (fun hf => ?_) fun _ => ?_
  · exact absurd (used.symm.trans hf) (by decide)
  refine modify_sat h₁ List.mem_cons_self (not_inLog_of_high (by decide)) (by omega) _ ?_
  intro s₂ h₂ only₂
  rw [h₁.block_eq (by decide) known] at h₂
  refine (brelse_sat h₂).post ?_
  rintro _ s₃ ⟨h₃, only₃, -⟩
  exact ⟨_, h₃, fits.known hF, only₁.trans (only₂.trans only₃)⟩

/-- `iupdate` writes the cached copy of an inode to its block. -/
theorem iupdate_sat {ip : Fin NINODE} (h : At 1 held l V s) (dev : (s.inode ip).dev = ROOTDEV)
    (hi : (s.inode ip).inum < NINODES) (known : ∀ c ≤ BITMAP, V c ≠ none) (fits : Fits F k l)
    (hF : INODES + (s.inode ip).inum / IPB ∈ F) (room : F.card + k ≤ 28 ∨ ∀ w t, E w t)
    (hheld : held.length ≤ 1) : Comp.Sat (iupdate ip) s E fun _ s' => ∃ l',
      At 1 held l' (V.putDino (s.inode ip).inum (s.inode ip).d) s' ∧ Fits F k l' ∧
        l' = noted (INODES + (s.inode ip).inum / IPB) l ∧ OnlyBlk s s' ∧
          ∀ c, BITMAP < c → Log.Falls c s.blk s'.blk := by
  have len := h.length_le fits
  have low := Image.inodeBlock_le hi
  have hib : IBLOCK (s.inode ip).inum s.sb = INODES + (s.inode ip).inum / IPB := by
    rw [h.sb, IBLOCK, Nat.add_comm]
    rfl
  unfold iupdate
  refine .get ?_
  dsimp only
  rw [dev, hib]
  refine .call (bread_or_sat h (Nat.lt_trans low (by decide))
    (room.imp (fun _ => by simp only [Spare, NBUF]; omega) id)) ?_
  rintro bp s₁ ⟨h₁, only₁, -, reread₁⟩
  have home := not_inLog_of_high (Nat.le_add_right INODES ((s.inode ip).inum / IPB))
  refine modify_or_sat h₁ List.mem_cons_self home (room.imp (fun _ => by omega) id) _ ?_
  intro s₂ h₂ only₂ view₂
  rw [h₁.block_eq (Nat.le_add_right _ _) (known _ (Nat.le_of_lt low))] at h₂
  refine (brelse_sat h₂).post ?_
  rintro _ s₃ ⟨h₃, only₃, -, reread₃⟩
  refine ⟨_, h₃, fits.known hF, rfl, only₁.trans (only₂.trans only₃), fun c hc => ?_⟩
  exact (reread₁.falls c).trans
    ((only₂.falls view₂ (Nat.ne_of_gt (Nat.lt_trans low hc))).trans (reread₃.falls c))

end Vol

end EasyXv6.Fs
