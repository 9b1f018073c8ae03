import EasyXv6.Fs.Blocks

set_option autoImplicit false

/-!
# The blocks of a file (bmap)

A block that the file has is found; otherwise it is allocated. What `bmap` does to the log is
counted: the indirect block, if it is not yet recorded, and the block itself.
-/
namespace EasyXv6.Fs.Vol
open Lib

/-- Of the inode cache only the fields and the pointers of loaded inodes may have changed. -/
structure Same (s s' : Vol) : Prop where
  slot : ∀ jp, s'.inode jp = { s.inode jp with d := (s'.inode jp).d }
  user : s'.user = s.user
  de : s'.de = s.de

section Same

variable {s t u : Vol}

theorem Same.refl (s : Vol) : Same s s := ⟨fun _ => rfl, rfl, rfl⟩

theorem Same.trans (h : Same s t) (h' : Same t u) : Same s u := by
  refine ⟨fun jp => ?_, h'.user.trans h.user, h'.de.trans h.de⟩
  rw [h'.slot, h.slot]

theorem OnlyBlk.same (h : OnlyBlk s t) : Same s t := by
  refine ⟨fun jp => ?_, h.user, h.de⟩
  rw [h.inode]

theorem Same.ref (h : Same s t) (jp : Fin NINODE) : (t.inode jp).ref = (s.inode jp).ref := by
  rw [h.slot]

theorem Same.inum (h : Same s t) (jp : Fin NINODE) : (t.inode jp).inum = (s.inode jp).inum := by
  rw [h.slot]

theorem Same.dev (h : Same s t) (jp : Fin NINODE) : (t.inode jp).dev = (s.inode jp).dev := by
  rw [h.slot]

theorem Same.valid (h : Same s t) (jp : Fin NINODE) : (t.inode jp).valid = (s.inode jp).valid := by
  rw [h.slot]

theorem setInode_same (s : Vol) (ip : Fin NINODE) (d : Dinode) :
    Same s (s.setInode ip { s.inode ip with d := d }) := by
  refine ⟨fun jp => ?_, rfl, rfl⟩
  by_cases h : jp = ip
  · subst h
    rw [setInode_self]
  · rw [setInode_of_ne _ h]

end Same

variable {o : ℤ} {held : List (Fin NBUF × ℕ)} {l : List ℕ} {V : Image} {D : ℕ → Dinode} {s : Vol}
  {ip : Fin NINODE} {F : Finset ℕ} {k m cap : ℕ} {full : Prop} {E : String → Vol → Prop}

/-- A slot that is in use and loaded. -/
structure Loaded (s : Vol) (ip : Fin NINODE) : Prop where
  live : 0 < (s.inode ip).ref
  valid : (s.inode ip).valid = true

theorem Loaded.same {s' : Vol} (h : Loaded s ip) (same : Same s s') : Loaded s' ip :=
  ⟨by rw [same.ref]; exact h.live, by rw [same.valid]; exact h.valid⟩

theorem FsAt.alloc (h : FsAt o held l V D s) (hl : Loaded s ip) : Alloc D (s.inode ip).inum :=
  h.ok.cached.alloc ip hl.live

theorem FsAt.loaded (h : FsAt o held l V D s) (hl : Loaded s ip) :
    D (s.inode ip).inum = (s.inode ip).d :=
  h.ok.cached.loaded ip hl.live hl.valid

theorem FsAt.dev (h : FsAt o held l V D s) (hl : Loaded s ip) : (s.inode ip).dev = ROOTDEV :=
  h.ok.cached.dev ip hl.live

/-- Nothing shows, but the inode of `ip` may have got blocks. -/
structure Mapped (held : List (Fin NBUF × ℕ)) (ip : Fin NINODE) (V : Image) (D : ℕ → Dinode)
    (s : Vol) (V' : Image) (D' : ℕ → Dinode) (l' : List ℕ) (s' : Vol) : Prop where
  at' : FsAt 1 held l' V' D' s'
  same : Same s s'
  grown : Grown (s.inode ip).inum V D V' D'

/-- The blocks that pointer `k` of an inode still needs. -/
def addrCost (d : Dinode) (k : ℕ) : ℕ := if d.addr k = 0 then 1 else 0

theorem bmapAddr_sat (h : FsAt 1 held l V D s) (hl : Loaded s ip) (hk : k ≤ NDIRECT)
    (fits : Fits F m l) (hF : BITMAP ∈ F) (room : F.card + m ≤ 28 ∨ ∀ w t, E w t)
    (hheld : held.length ≤ 1) (free : full ∨ addrCost (s.inode ip).d k ≤ V.free)
    (stop : ∀ w t, Limit cap full w t → E w t) :
    Comp.Sat (bmapAddr ip k) s E fun b s' => ∃ V' D' l', Mapped held ip V D s V' D' l' s' ∧
      (∀ c ∈ l, c ∈ l') ∧ V.free = V'.free + addrCost (s.inode ip).d k ∧ b ≠ 0 ∧
        (s'.inode ip).d.addr k = b ∧
        ((s.inode ip).d.addr k = b ∧ V' = V ∧ l' = l ∧ s' = s ∨
          (s.inode ip).d.addr k = 0 ∧ V' b = some Block.zero ∧ Fits F (m + 1) l' ∧ b ∈ l' ∧
            ∀ j ≤ NDIRECT, j ≠ k → (s'.inode ip).d.addr j = (s.inode ip).d.addr j) ∧
        ∀ c, BITMAP < c → V.bit c = true → Log.Falls c s.blk s'.blk := by
  unfold bmapAddr
  refine .gets (.ite (fun h0 => ?_) fun h0 => ?_)
  · rw [addrCost, if_pos h0] at free ⊢
    rw [h.dev hl]
    refine .call (fsAlloc_sat h.blk h.ok.laid fits hF room hheld free stop) ?_
    rintro b s₁ ⟨l', h₁, fits₁, keep, mem, only, clear, lt, falls⟩
    obtain ⟨ok₁, fresh, grown₁⟩ := h.ok.take clear lt
    have hl₁ : Loaded s₁ ip := hl.same only.same
    have hin : (s₁.inode ip).inum = (s.inode ip).inum := by rw [only.inode]
    have h0₁ : (s₁.inode ip).d.addr k = 0 := by rwa [only.inode]
    rw [← only.inode] at ok₁
    obtain ⟨ok₂, grown₂⟩ := ok₁.setAddr hl₁.live hl₁.valid hk h0₁ fresh
    rw [hin] at ok₂ grown₂
    refine .modify (.pure ⟨V.take b, _, l', ⟨⟨h₁.congr rfl rfl, ok₂⟩, ?_, ?_⟩, keep, ?_, ?_, ?_,
      Or.inr ⟨h0, fresh.zero, fits₁, mem, ?_⟩, falls⟩)
    · exact only.same.trans (setInode_same _ _ _)
    · exact (grown₁ _ (h.alloc hl)).trans grown₂
    · exact (Image.free_take clear lt fresh.high).symm
    · have := fresh.high
      omega
    · rw [setInode_self]
      exact Dinode.addr_setAddr_self _ hk (Nat.lt_trans lt (by decide))
    · intro j _ hj
      rw [setInode_self, ← only.inode]
      exact Dinode.addr_setAddr_of_ne _ hj
  · refine .pure ⟨V, D, l, ⟨h, .refl s, .refl _ _ _⟩, fun _ hc => hc, ?_, h0, rfl,
      Or.inl ⟨rfl, rfl, rfl, rfl⟩, fun c _ _ => .refl c _⟩
    rw [addrCost, if_neg h0, Nat.add_zero]

section Bmap

/-- The indirect block of the inode is yet to be recorded. -/
def indCost (d : Dinode) (l : List ℕ) : ℕ := if d.addr NDIRECT ≠ 0 ∧ d.addr NDIRECT ∈ l then 0 else 1

/-- The transaction has recorded blocks of `F` and, with the indirect block of the inode, at most
    `m` others. -/
def Quota (F : Finset ℕ) (m : ℕ) (d : Dinode) (l : List ℕ) : Prop :=
  ∃ n, Fits F n l ∧ n + indCost d l ≤ m

theorem indCost_le_one (d : Dinode) (l : List ℕ) : indCost d l ≤ 1 := by
  unfold indCost
  split <;> omega

theorem indCost_of_mem {d : Dinode} (h0 : d.addr NDIRECT ≠ 0) (h : d.addr NDIRECT ∈ l) :
    indCost d l = 0 := if_pos ⟨h0, h⟩

theorem indCost_le {d d' : Dinode} {l' : List ℕ} (h : d'.addr NDIRECT = d.addr NDIRECT)
    (keep : ∀ c ∈ l, c ∈ l') : indCost d' l' ≤ indCost d l := by
  unfold indCost
  rw [h]
  by_cases hc : d.addr NDIRECT ≠ 0 ∧ d.addr NDIRECT ∈ l
  · rw [if_pos ⟨hc.1, keep _ hc.2⟩]
    exact Nat.zero_le _
  · rw [if_neg hc]
    split <;> omega

theorem noted_of_mem {b : ℕ} (h : b ∈ l) : noted b l = l := if_pos h

theorem Quota.noted {d : Dinode} (h : Quota F m d l) (b : ℕ) : Quota F (m + 1) d (noted b l) := by
  obtain ⟨n, fits, le⟩ := h
  have : indCost d (Vol.noted b l) ≤ indCost d l :=
    indCost_le rfl fun c hc => mem_noted.mpr (Or.inr hc)
  exact ⟨n + 1, fits.noted b, by omega⟩

theorem Quota.mono {d : Dinode} {n : ℕ} (h : Quota F m d l) (hmn : m ≤ n) : Quota F n d l := by
  obtain ⟨k, fits, le⟩ := h
  exact ⟨k, fits, Nat.le_trans le hmn⟩

theorem At.length_lt (h : At o held l V s) {d : Dinode} (quota : Quota F m d l)
    (room : F.card + m ≤ 28) : l.length < 29 := by
  obtain ⟨n, fits, le⟩ := quota
  have := h.length_le fits
  omega

/-- The blocks that block `bn` of a file still needs. -/
def bmapCost (V : Image) (d : Dinode) (bn : ℕ) : ℕ :=
  (if V.ref d (Image.dataRef bn) = 0 then 1 else 0) + if bn < NDIRECT then 0 else addrCost d NDIRECT

/-- The block `bn` of the file, which may be new. -/
theorem bmap_sat {bn : ℕ} (h : FsAt 1 [] l V D s) (hl : Loaded s ip) (hbn : bn < MAXFILE)
    (quota : Quota F m (s.inode ip).d l) (hF : BITMAP ∈ F)
    (room : F.card + m < 28 ∨ ∀ w t, E w t) (free : full ∨ bmapCost V (s.inode ip).d bn ≤ V.free)
    (stop : ∀ w t, Limit cap full w t → E w t) :
    Comp.Sat (bmap ip bn) s E fun b s' => ∃ V' D' l', Mapped [] ip V D s V' D' l' s' ∧
      b ≠ 0 ∧ V'.ref (D' (s.inode ip).inum) (Image.dataRef bn) = b ∧
        Quota F (m + 1) (s'.inode ip).d (noted b l') ∧
          V.free = V'.free + bmapCost V (s.inode ip).d bn ∧
            (V.ref (s.inode ip).d (Image.dataRef bn) ≠ 0 → Reread s s') ∧
              ∀ j < NREF, j ≠ NDIRECT → V.ref (s.inode ip).d j ≠ 0 →
                Log.Falls (V.ref (s.inode ip).d j) s.blk s'.blk := by
  have used := h.alloc hl
  have hD' := h.loaded hl
  obtain ⟨n, fits, le⟩ := quota
  unfold bmap
  refine .ite (fun hd => ?_) fun hd => .ite (fun hi => ?_) fun hi => ?_
  · -- a direct block
    have cost : bmapCost V (s.inode ip).d bn = addrCost (s.inode ip).d bn := by
      rw [bmapCost, if_pos hd, Nat.add_zero, Image.dataRef, if_pos hd,
        Image.ref_direct (Nat.le_of_lt hd)]
      rfl
    rw [cost] at free ⊢
    refine (bmapAddr_sat h hl (Nat.le_of_lt hd) fits hF (room.imp (fun _ => by omega) id)
      (Nat.zero_le _) free stop).post ?_
    rintro b s' ⟨V', D', l', mapped, keep, hfree, hb0, addr, cases, falls⟩
    have hD := mapped.at'.loaded (hl.same mapped.same)
    rw [mapped.same.inum] at hD
    refine ⟨V', D', l', mapped, hb0, ?_, ?_, hfree, fun hr => ?_, fun j hj _ hr => ?_⟩
    · rw [Image.dataRef, if_pos hd, Image.ref_direct (Nat.le_of_lt hd), hD, addr]
    · rcases cases with ⟨-, -, rfl, rfl⟩ | ⟨-, -, fits', mem, others⟩
      · exact Quota.noted ⟨n, fits, le⟩ b
      · rw [noted_of_mem mem]
        have : indCost (s'.inode ip).d l' ≤ indCost (s.inode ip).d l :=
          indCost_le (others _ (Nat.le_refl _) (Nat.ne_of_gt hd)) keep
        exact ⟨n + 1, fits', by omega⟩
    · rw [Image.dataRef, if_pos hd, Image.ref_direct (Nat.le_of_lt hd)] at hr
      rcases cases with ⟨-, -, -, rfl⟩ | ⟨h0, -⟩
      · exact .refl _
      · exact absurd h0 hr
    · rw [← hD'] at hr ⊢
      have own := h.ok.laid.own _ used j hj hr
      exact falls _ own.1 own.2.2
  · -- an entry of the indirect block
    rw [bmapCost, if_neg hd] at free ⊢
    refine .call (bmapAddr_sat h hl (Nat.le_refl NDIRECT) fits hF (room.imp (fun _ => by omega) id)
      (Nat.zero_le _) (free.imp_right fun hf => Nat.le_trans (Nat.le_add_left ..) hf) stop) ?_
    rintro ind s₁ ⟨V₁, D₁, l₁, mapped, keep₁, hfree₁, ind0, addr, cases, falls₁⟩
    have hl₁ := hl.same mapped.same
    have h₁ := mapped.at'
    have alloc := h₁.alloc hl₁
    have hD := h₁.loaded hl₁
    have hin := mapped.same.inum ip
    rw [hin] at alloc hD
    have addr' : (D₁ (s.inode ip).inum).addr NDIRECT = ind := by rw [hD, addr]
    have own := h₁.ok.laid.addr_own alloc (Nat.le_refl _) (by rwa [addr'])
    have sure := h₁.ok.laid.indirect_sure alloc (by rwa [addr'])
    rw [addr'] at own sure
    -- the blocks that the inode had are neither the indirect block nor free
    have old : ∀ j < NREF, j ≠ NDIRECT → V.ref (s.inode ip).d j ≠ 0 →
        Log.Falls (V.ref (s.inode ip).d j) s.blk s₁.blk ∧ BITMAP < V.ref (s.inode ip).d j ∧
          V₁.bit (V.ref (s.inode ip).d j) = true ∧ V.ref (s.inode ip).d j ≠ ind := by
      intro j hj hne hr
      rw [← hD'] at hr ⊢
      have before := h.ok.laid.own _ used j hj hr
      have same := mapped.grown.refs j hj hr
      have hr₁ : V₁.ref (D₁ (s.inode ip).inum) j ≠ 0 := by rwa [same]
      have after := h₁.ok.laid.own _ alloc j hj hr₁
      have apart := h₁.ok.laid.data_ne_indirect alloc hj hne hr₁ alloc
      rw [same] at after apart
      exact ⟨falls₁ _ before.1 before.2.2, after.1, after.2.2, addr' ▸ apart⟩
    -- what is left of the quota
    obtain ⟨n₁, fits₁, le₁⟩ : ∃ n₁, Fits F n₁ l₁ ∧ n₁ + indCost (s₁.inode ip).d l₁ ≤ m := by
      rcases cases with ⟨-, -, rfl, rfl⟩ | ⟨h0, -, fits', mem, -⟩
      · exact ⟨n, fits, le⟩
      · have cost : indCost (s.inode ip).d l = 1 := if_neg fun hc => hc.1 h0
        rw [← addr] at ind0 mem
        exact ⟨n + 1, fits', by rw [indCost_of_mem ind0 mem]; omega⟩
    have len₁ := h₁.blk.length_le fits₁
    have cost₁ := indCost_le_one (s₁.inode ip).d l₁
    refine .gets ?_
    rw [h₁.dev hl₁]
    refine .call (bread_or_sat h₁.blk own.2.1
      (room.imp (fun _ => by simp only [Spare, NBUF, List.length_nil]; omega) id)) ?_
    rintro bp s₂ ⟨h₂, only₂, -, reread₂⟩
    refine .call (data_sat h₂ List.mem_cons_self) ?_
    rintro _ _ ⟨rfl, rfl⟩
    have hk : bn - NDIRECT < NINDIRECT := hi
    have ref : ∀ W : Image, W.ref (D₁ (s.inode ip).inum) (Image.dataRef bn) =
        (W.block ind).entry (bn - NDIRECT) := by
      intro W
      rw [Image.dataRef, if_neg hd, Image.ref_entry (by omega) (by rwa [addr']), addr',
        Nat.add_sub_add_right]
    have home : INODES ≤ ind := Nat.le_of_lt (Nat.lt_trans (by decide) own.1)
    rw [h₂.block_eq home sure]
    -- the entry is empty exactly when it was before
    have entry : V.ref (s.inode ip).d (Image.dataRef bn) = 0 ↔
        (V₁.block ind).entry (bn - NDIRECT) = 0 := by
      rw [← ref V₁]
      constructor
      · intro h0
        rcases cases with ⟨-, rfl, -, rfl⟩ | ⟨-, zero, -⟩
        · rw [hD, h0]
        · rw [ref, Image.block_of zero, Block.zero, Block.entry, Bytes.num_zero]
      · intro h0
        by_contra hr
        rw [← h.loaded hl] at hr
        exact hr ((mapped.grown.refs _ (Image.dataRef_lt hbn) hr).symm.trans h0)
    refine .ite (fun he => ?_) fun he => ?_
    · rw [if_pos (entry.mpr he)] at free ⊢
      refine .call (fsAlloc_sat h₂ h₁.ok.laid fits₁ hF (room.imp (fun _ => by omega) id)
        (Nat.le_refl 1) (free.imp_right fun hf => by omega) stop) ?_
      rintro b s₃ ⟨l₃, h₃, fits₃, keep₃, mem₃, only₃, clear, lt, falls₃⟩
      obtain ⟨ok₃, fresh, grown₃⟩ := h₁.ok.take clear lt
      have len₃ := h₃.length_le fits₃
      have hne : b ≠ ind := by
        rintro rfl
        exact absurd (clear.symm.trans own.2.2) (by decide)
      have sure₃ : V₁.take b ind ≠ none := by
        rwa [Image.take_of_ne hne.symm (Nat.ne_of_gt own.1)]
      refine modify_or_sat h₃ List.mem_cons_self (not_inLog_of_high home)
        (room.imp (fun _ => by omega) id) _ ?_
      intro s₄ h₄ only₄ view₄
      rw [h₃.block_eq home sure₃] at h₄
      refine .call (brelse_sat h₄) ?_
      rintro _ s₅ ⟨h₅, only₅, -, reread₅⟩
      have empty : (V₁.take b).ref (D₁ (s.inode ip).inum)
          (NDIRECT + 1 + (bn - NDIRECT)) = 0 := by
        have := ref (V₁.take b)
        rw [Image.dataRef, if_neg hd, show bn + 1 = NDIRECT + 1 + (bn - NDIRECT) by omega] at this
        rw [this, Image.block, Image.take_of_ne hne.symm (Nat.ne_of_gt own.1)]
        exact he
      obtain ⟨ok₅, grown₅⟩ := ok₃.setEntry alloc (by rwa [addr']) hk empty fresh
      rw [addr'] at ok₅ grown₅
      have only := only₂.trans (only₃.trans (only₄.trans only₅))
      refine .pure ⟨_, D₁, _, ⟨⟨h₅, only.inode ▸ ok₅⟩, mapped.same.trans only.same,
        mapped.grown.trans ((grown₃ _ alloc).trans grown₅)⟩, ?_, ?_, ?_, ?_,
        fun hr => absurd (entry.mpr he) hr, fun j hj hne hr => ?_⟩
      · have := fresh.high
        omega
      · rw [ref, Image.block_update_self,
          Block.entry_setEntry_self hk (Nat.lt_trans lt (by decide))]
      · rw [noted_of_mem (mem_noted.mpr (Or.inr mem₃)), only.inode]
        by_cases old : ind ∈ l₁
        · rw [noted_of_mem (keep₃ _ old)]
          have : indCost (s₁.inode ip).d l₃ ≤ indCost (s₁.inode ip).d l₁ := indCost_le rfl keep₃
          exact ⟨n₁ + 1, fits₃, by omega⟩
        · have cost : indCost (s₁.inode ip).d l₁ = 1 := if_neg fun hc => old (addr ▸ hc.2)
          refine ⟨n₁ + 1 + 1, fits₃.noted ind, ?_⟩
          rw [indCost_of_mem (by rwa [addr]) (by rw [addr]; exact mem_noted.mpr (Or.inl rfl))]
          omega
      · have taken := Image.free_take clear lt fresh.high
        have same : Image.free (Function.update (V₁.take b) ind (some (((V₁.take b).block ind).setEntry
            (bn - NDIRECT) b))) = (V₁.take b).free :=
          Image.free_congr (Image.bit_update_of_ne (Nat.ne_of_gt own.1))
        omega
      · obtain ⟨first, high, used, apart⟩ := old j hj hne hr
        exact first.trans ((reread₂.falls _).trans ((falls₃ _ high used).trans
          ((only₄.falls view₄ apart).trans (reread₅.falls _))))
    · refine .call (brelse_sat h₂) ?_
      rintro _ s₃ ⟨h₃, only₃, -, reread₃⟩
      have only := only₂.trans only₃
      refine .pure ⟨V₁, D₁, l₁, ⟨h₁.of_onlyBlk h₃ only, mapped.same.trans only.same, mapped.grown⟩,
        he, ref V₁, ?_, ?_, fun hr => ?_, fun j hj hne hr => ?_⟩
      · rw [only.inode]
        exact Quota.noted ⟨n₁, fits₁, le₁⟩ _
      · rw [if_neg (mt entry.mp he), Nat.zero_add]
        exact hfree₁
      · rcases cases with ⟨-, -, -, rfl⟩ | ⟨h0, -⟩
        · exact reread₂.trans reread₃
        · rw [Image.dataRef, if_neg hd, Image.ref_entry_zero (by omega) h0] at hr
          exact absurd rfl hr
      · exact (old j hj hne hr).1.trans ((reread₂.falls _).trans (reread₃.falls _))
  · simp only [MAXFILE, NDIRECT, NINDIRECT, BSIZE] at *
    omega

/-- A block that the file has is only looked up. -/
theorem bmap_read_sat {bn : ℕ} (h : FsAt o [] l V D s) (hl : Loaded s ip) (hbn : bn < MAXFILE)
    (hr : V.ref (s.inode ip).d (Image.dataRef bn) ≠ 0) {E : String → Vol → Prop} :
    Comp.Sat (bmap ip bn) s E fun b s' => b = V.ref (s.inode ip).d (Image.dataRef bn) ∧
      At o [] l V s' ∧ Reread s s' := by
  unfold bmap
  refine .ite (fun hd => ?_) fun hd => .ite (fun hi => ?_) fun hi => ?_
  · rw [Image.dataRef, if_pos hd, Image.ref_direct (Nat.le_of_lt hd)] at hr
    unfold bmapAddr
    refine .gets (.ite (fun h0 => absurd h0 hr) fun _ => .pure ⟨?_, h.blk, .refl s⟩)
    rw [Image.dataRef, if_pos hd, Image.ref_direct (Nat.le_of_lt hd)]
  · have ind0 : (s.inode ip).d.addr NDIRECT ≠ 0 := by
      intro h0
      rw [Image.dataRef, if_neg hd, Image.ref_entry_zero (by omega) h0] at hr
      exact hr rfl
    have ref : V.ref (s.inode ip).d (Image.dataRef bn) =
        (V.block ((s.inode ip).d.addr NDIRECT)).entry (bn - NDIRECT) := by
      rw [Image.dataRef, if_neg hd, Image.ref_entry (by omega) ind0, Nat.add_sub_add_right]
    have alloc := h.alloc hl
    have hD := h.loaded hl
    have own := h.ok.laid.addr_own alloc (Nat.le_refl _) (by rwa [hD])
    have sure := h.ok.laid.indirect_sure alloc (by rwa [hD])
    rw [hD] at own sure
    have len := h.blk.inv.short
    refine .call (P := fun ind s' => ind = (s.inode ip).d.addr NDIRECT ∧ s' = s) ?_ ?_
    · unfold bmapAddr
      exact .gets (.ite (fun h0 => absurd h0 ind0) fun _ => .pure ⟨rfl, rfl⟩)
    rintro _ _ ⟨rfl, rfl⟩
    refine .gets ?_
    rw [h.dev hl]
    refine .call (bread_sat h.blk own.2.1 (by simp only [Spare, NBUF, List.length_nil]; omega)) ?_
    rintro bp s₁ ⟨h₁, -, -, only₁⟩
    refine .call (data_sat h₁ List.mem_cons_self) ?_
    rintro _ _ ⟨rfl, rfl⟩
    rw [h₁.block_eq (Nat.le_of_lt (Nat.lt_trans (by decide) own.1)) sure]
    refine .ite (fun he => absurd (ref.trans he) hr) fun _ => ?_
    refine .call (brelse_sat h₁) ?_
    rintro _ s₂ ⟨h₂, -, -, only₂⟩
    exact .pure ⟨ref.symm, h₂, only₁.trans only₂⟩
  · simp only [MAXFILE, NDIRECT, NINDIRECT, BSIZE] at *
    omega

end Bmap

end EasyXv6.Fs.Vol
