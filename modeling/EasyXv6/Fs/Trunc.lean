import EasyXv6.Fs.Write

set_option autoImplicit false

/-!
# Freeing a file (itrunc)

`Freed V d P V'` says that the blocks of the pointers `P` of the inode `d` have been freed.
-/
namespace EasyXv6.Fs.Vol
open Lib

variable {held : List (Fin NBUF × ℕ)} {l : List ℕ} {V V' : Image} {D : ℕ → Dinode} {s t : Vol}
  {ip : Fin NINODE} {F : Finset ℕ} {i m n cap : ℕ} {full : Prop} {d : Dinode} {P Q : ℕ → Prop}

structure Freed (V : Image) (d : Dinode) (P : ℕ → Prop) (V' : Image) : Prop where
  same : ∀ c, c ≠ BITMAP → V' c = V c
  known : V' BITMAP ≠ none
  bits : ∀ b, V'.bit b = true ↔ V.bit b = true ∧
    ∀ k < NREF, P k → V.ref d k ≠ 0 → V.ref d k ≠ b

theorem Freed.congr (h : Freed V d P V') (hPQ : ∀ k < NREF, V.ref d k ≠ 0 → (P k ↔ Q k)) :
    Freed V d Q V' := by
  refine ⟨h.same, h.known, fun b => (h.bits b).trans ?_⟩
  refine and_congr_right fun _ => ⟨fun hp k hk hq hr => ?_, fun hq k hk hp hr => ?_⟩
  · exact hp k hk ((hPQ k hk hr).mpr hq) hr
  · exact hq k hk ((hPQ k hk hr).mp hp) hr

/-- Another block of the inode is freed. -/
theorem freeRef_sat (laid : Laid V D) (hi : Alloc D i) (h : At 1 held l V' t)
    (freed : Freed V (D i) P V') (hm : m < NREF) (hP : ¬ P m) (hr : V.ref (D i) m ≠ 0)
    (fits : Fits F n l) (hF : BITMAP ∈ F) (room : F.card + n ≤ 28) (hheld : held.length ≤ 1) :
    Comp.Sat (fsFree ROOTDEV (V.ref (D i) m)) t (Limit cap full) fun _ t' => ∃ l' V'', At 1 held l' V'' t' ∧
      Freed V (D i) (fun k => P k ∨ k = m) V'' ∧ Fits F n l' ∧ OnlyBlk t t' := by
  have own := laid.own i hi m hm hr
  have used : V'.bit (V.ref (D i) m) = true := by
    refine (freed.bits _).mpr ⟨own.2.2, fun k hk hp hne he => ?_⟩
    obtain ⟨-, rfl⟩ := laid.inj i i hi hi k hk m hm hne he
    exact hP hp
  refine (fsFree_sat h freed.known used own.2.1 fits hF room hheld).post ?_
  rintro _ t' ⟨l', h', fits', only⟩
  refine ⟨l', _, h', ⟨fun c hc => ?_, ?_, fun b => ?_⟩, fits', only⟩
  · rw [Function.update_of_ne hc, freed.same c hc]
  · rw [Function.update_self]
    exact Option.some_ne_none _
  · rw [Image.bit_clearBit (Nat.lt_trans own.2.1 (by decide))]
    by_cases hb : b = V.ref (D i) m
    · rw [if_pos hb]
      refine iff_of_false (by decide) fun hc => ?_
      exact hc.2 m hm (Or.inr rfl) hr hb.symm
    · rw [if_neg hb, freed.bits]
      refine and_congr_right fun _ => ⟨fun hp k hk hq hne => ?_, fun hq k hk hp hne => ?_⟩
      · rcases hq with hq | rfl
        · exact hp k hk hq hne
        · exact fun e => hb e.symm
      · exact hq k hk (Or.inl hp) hne

/-- The state in which the blocks of the pointers `P` are freed and the first `k` pointers of the
    cached inode are cleared. -/
structure Truncating (held : List (Fin NBUF × ℕ)) (F : Finset ℕ) (n : ℕ) (ip : Fin NINODE)
    (V : Image) (s : Vol) (k : ℕ) (P : ℕ → Prop) (t : Vol) : Prop where
  blocks : ∃ l' V', At 1 held l' V' t ∧ Freed V (s.inode ip).d P V' ∧ Fits F n l'
  inode : ∃ e, t.inode = Function.update s.inode ip { s.inode ip with d := e } ∧
    SameFields e (s.inode ip).d ∧
      ∀ j ≤ NDIRECT, e.addr j = if j < k then 0 else (s.inode ip).d.addr j

theorem Truncating.dev {P : ℕ → Prop} {k : ℕ} (h : Truncating held F n ip V s k P t) :
    (t.inode ip).dev = (s.inode ip).dev := by
  obtain ⟨e, he, -, -⟩ := h.inode
  rw [he, Function.update_self]

/-- Clearing the pointer `k`. -/
theorem Truncating.clear {k : ℕ} (h : Truncating held F n ip V s k P t) (hk : k ≤ NDIRECT)
    {t' : Vol} (blocks : ∃ l' V', At 1 held l' V' t' ∧ Freed V (s.inode ip).d Q V' ∧ Fits F n l')
    (inode : t'.inode = t.inode) : Truncating held F n ip V s (k + 1) Q
      (t'.setInode ip { t'.inode ip with d := (t'.inode ip).d.setAddr k 0 }) := by
  obtain ⟨l', V', hat, hfreed, hfits⟩ := blocks
  obtain ⟨e, he, fields, addr⟩ := h.inode
  refine ⟨⟨l', V', hat.congr rfl rfl, hfreed, hfits⟩, e.setAddr k 0, ?_, ?_, fun j hj => ?_⟩
  · change Function.update t'.inode ip _ = _
    rw [inode, he, Function.update_idem, Function.update_self]
  · exact ⟨fields.type, fields.major, fields.minor, fields.nlink, fields.size⟩
  · by_cases hjk : j = k
    · subst hjk
      rw [Dinode.addr_setAddr_self _ hk (by decide), if_pos (Nat.lt_succ_self j)]
    · rw [Dinode.addr_setAddr_of_ne _ hjk, addr j hj]
      exact if_congr (by omega) rfl rfl

theorem itruncDirect_sat (h : FsAt 1 [] l V D s) (hl : Loaded s ip) {k : ℕ} (hk : k < NDIRECT)
    (hF : BITMAP ∈ F) (room : F.card + n ≤ 28) (ht : Truncating [] F n ip V s k (· < k) t) :
    Comp.Sat (itruncDirect ip k) t (Limit cap full) fun _ t' =>
      Truncating [] F n ip V s (k + 1) (· < k + 1) t' := by
  obtain ⟨e, he, fields, addr⟩ := ht.inode
  have hD := h.loaded hl
  have here : (t.inode ip).d.addr k = (s.inode ip).d.addr k := by
    rw [he, Function.update_self, addr k (Nat.le_of_lt hk), if_neg (Nat.lt_irrefl k)]
  have href : V.ref (D (s.inode ip).inum) k = (s.inode ip).d.addr k := by
    rw [Image.ref_direct (Nat.le_of_lt hk), hD]
  have step : ∀ j, (j < k ∨ j = k ↔ j < k + 1) := fun j => by omega
  unfold itruncDirect
  refine .gets (.ite (fun h0 => ?_) fun h0 => ?_)
  · obtain ⟨l', V', hat, hfreed, hfits⟩ := ht.blocks
    rw [here] at h0
    rw [ht.dev, h.dev hl, here, ← href]
    rw [← hD] at hfreed
    refine .call (freeRef_sat h.ok.laid (h.alloc hl) hat hfreed (Nat.lt_trans hk (by decide))
      (Nat.lt_irrefl k) (by rwa [href]) hfits hF room (Nat.zero_le _)) ?_
    rintro _ t₁ ⟨l₁, V₁, h₁, freed₁, fits₁, only₁⟩
    rw [hD] at freed₁
    exact .modified (ht.clear (Nat.le_of_lt hk)
      ⟨l₁, V₁, h₁, freed₁.congr fun j _ _ => step j, fits₁⟩ only₁.inode)
  · rw [here, ne_eq, not_not] at h0
    obtain ⟨l', V', hat, hfreed, hfits⟩ := ht.blocks
    refine .pure ⟨⟨l', V', hat, hfreed.congr fun j _ hr => ?_, hfits⟩, e, he, fields, fun j hj => ?_⟩
    · have : j ≠ k := by
        rintro rfl
        exact hr (by rw [← hD, href, h0])
      omega
    · rw [addr j hj]
      by_cases hjk : j = k
      · subst hjk
        rw [if_neg (Nat.lt_irrefl j), if_pos (Nat.lt_succ_self j), h0]
      · exact if_congr (by omega) rfl rfl

/-- The pointers that are freed before entry `q` of the indirect block. -/
def before (q k : ℕ) : Prop := k < NDIRECT ∨ NDIRECT < k ∧ k < NDIRECT + 1 + q

theorem itruncEntry_sat (h : FsAt 1 [] l V D s) (hl : Loaded s ip) {q : ℕ} (hq : q < NINDIRECT)
    {bp : Fin NBUF} (ind0 : (s.inode ip).d.addr NDIRECT ≠ 0) (hF : BITMAP ∈ F)
    (room : F.card + n ≤ 28)
    (ht : Truncating [(bp, (s.inode ip).d.addr NDIRECT)] F n ip V s NDIRECT (before q) t) :
    Comp.Sat (itruncEntry ROOTDEV bp q) t (Limit cap full) fun _ t' =>
      Truncating [(bp, (s.inode ip).d.addr NDIRECT)] F n ip V s NDIRECT (before (q + 1)) t' := by
  have hD := h.loaded hl
  have hi := h.alloc hl
  have own := h.ok.laid.addr_own hi (Nat.le_refl NDIRECT) (by rwa [hD])
  have sure := h.ok.laid.indirect_sure hi (by rwa [hD])
  rw [hD] at own sure
  obtain ⟨l', V', hat, hfreed, hfits⟩ := ht.blocks
  have same := hfreed.same _ (Nat.ne_of_gt own.1)
  have href : V.ref (D (s.inode ip).inum) (NDIRECT + 1 + q) =
      (V.block ((s.inode ip).d.addr NDIRECT)).entry q := by
    rw [hD, Image.ref_entry (by omega) ind0, Nat.add_sub_cancel_left]
  have hm : NDIRECT + 1 + q < NREF := Nat.add_lt_add_left hq _
  have step : ∀ j, (before q j ∨ j = NDIRECT + 1 + q ↔ before (q + 1) j) := by
    intro j
    unfold before
    omega
  unfold itruncEntry
  refine .call (data_sat hat List.mem_cons_self) ?_
  rintro _ t ⟨rfl, rfl⟩
  rw [hat.block_eq (Nat.le_of_lt (Nat.lt_trans (by decide) own.1)) (by rwa [same]), Image.block, same,
    ← Image.block, ← href]
  refine .ite (fun h0 => ?_) fun h0 => ?_
  · rw [← hD] at hfreed
    refine (freeRef_sat h.ok.laid hi hat hfreed hm ?_ h0 hfits hF room (Nat.le_refl 1)).post ?_
    · unfold before
      omega
    rintro _ t₁ ⟨l₁, V₁, h₁, freed₁, fits₁, only₁⟩
    rw [hD] at freed₁
    exact ⟨⟨l₁, V₁, h₁, freed₁.congr fun j _ _ => step j, fits₁⟩, only₁.inode ▸ ht.inode⟩
  · rw [ne_eq, not_not] at h0
    refine .pure ⟨⟨l', V', hat, hfreed.congr fun j _ hr => ?_, hfits⟩, ht.inode⟩
    rw [← step]
    refine ⟨Or.inl, fun hj => hj.resolve_right ?_⟩
    rintro rfl
    rw [← hD] at hr
    exact hr h0

theorem itruncIndirect_sat (h : FsAt 1 [] l V D s) (hl : Loaded s ip) (hF : BITMAP ∈ F)
    (room : F.card + n ≤ 28) (ht : Truncating [] F n ip V s NDIRECT (· < NDIRECT) t) :
    Comp.Sat (itruncIndirect ip) t (Limit cap full) fun _ t' =>
      Truncating [] F n ip V s (NDIRECT + 1) (fun _ => True) t' := by
  have hD := h.loaded hl
  have hi := h.alloc hl
  obtain ⟨e, he, fields, addr⟩ := ht.inode
  have here : (t.inode ip).d.addr NDIRECT = (s.inode ip).d.addr NDIRECT := by
    rw [he, Function.update_self, addr _ (Nat.le_refl _), if_neg (Nat.lt_irrefl _)]
  obtain ⟨l', V', hat, hfreed, hfits⟩ := ht.blocks
  have len := hat.length_le hfits
  unfold itruncIndirect
  refine .gets (.ite (fun ind0 => ?_) fun ind0 => ?_)
  · rw [here] at ind0
    rw [ht.dev, h.dev hl, here]
    have own := h.ok.laid.addr_own hi (Nat.le_refl NDIRECT) (by rwa [hD])
    rw [hD] at own
    have href : V.ref (D (s.inode ip).inum) NDIRECT = (s.inode ip).d.addr NDIRECT := by
      rw [Image.ref_direct (Nat.le_refl _), hD]
    refine .call (bread_sat hat own.2.1 (by simp only [Spare, NBUF, List.length_nil]; omega)) ?_
    rintro bp t₁ ⟨h₁, only₁, -⟩
    have start : Truncating [(bp, (s.inode ip).d.addr NDIRECT)] F n ip V s NDIRECT (before 0) t₁ := by
      refine ⟨⟨l', V', h₁, hfreed.congr fun j _ _ => ?_, hfits⟩, only₁.inode ▸ ht.inode⟩
      unfold before
      omega
    have loop : Comp.Sat (Comp.forUpTo NINDIRECT (itruncEntry ROOTDEV bp)) t₁ (Limit cap full) fun _ t =>
        Truncating [(bp, (s.inode ip).d.addr NDIRECT)] F n ip V s NDIRECT (before NINDIRECT) t :=
      .forUpTo (fun q t => Truncating [(bp, (s.inode ip).d.addr NDIRECT)] F n ip V s NDIRECT
        (before q) t) start fun q hq t ht => itruncEntry_sat h hl hq ind0 hF room ht
    refine .call loop ?_
    intro _ t₂ ht₂
    obtain ⟨l₂, V₂, h₂, freed₂, fits₂⟩ := ht₂.blocks
    refine .call (brelse_sat h₂) ?_
    rintro _ t₃ ⟨h₃, only₃, -⟩
    rw [← href]
    rw [← hD] at freed₂
    refine .call (freeRef_sat h.ok.laid hi h₃ freed₂ (by decide) ?_ (by rwa [href]) fits₂ hF room
      (Nat.zero_le _)) ?_
    · unfold before
      omega
    rintro _ t₄ ⟨l₄, V₄, h₄, freed₄, fits₄, only₄⟩
    rw [hD] at freed₄
    have ht₂' : Truncating [] F n ip V s NDIRECT (before NINDIRECT) t₃ :=
      ⟨⟨l₂, V₂, h₃, hD ▸ freed₂, fits₂⟩, only₃.inode ▸ ht₂.inode⟩
    refine .modified (ht₂'.clear (Nat.le_refl _)
      ⟨l₄, V₄, h₄, freed₄.congr fun j hj _ => ?_, fits₄⟩ only₄.inode)
    refine iff_of_true ?_ trivial
    have hj' : j < NDIRECT + 1 + NINDIRECT := hj
    unfold before
    omega
  · rw [here, ne_eq, not_not] at ind0
    refine .pure ⟨⟨l', V', hat, hfreed.congr fun j _ hr => iff_of_true ?_ trivial, hfits⟩, e, he,
      fields, fun j hj => ?_⟩
    · by_contra hj
      by_cases hj' : j = NDIRECT
      · rw [hj', Image.ref_direct (Nat.le_refl _)] at hr
        exact hr ind0
      · exact hr (Image.ref_entry_zero (by omega) ind0)
    · rw [addr j hj, if_pos (Nat.lt_succ_of_le hj)]
      by_cases hj' : j = NDIRECT
      · rw [hj', if_neg (Nat.lt_irrefl _), ind0]
      · rw [if_pos (by omega)]

theorem itrunc_sat (h : FsAt 1 [] l V D s) (hl : Loaded s ip) (fits : Fits F n l)
    (hF : BITMAP ∈ F) (hF' : INODES + (s.inode ip).inum / IPB ∈ F) (room : F.card + n ≤ 28) :
    Comp.Sat (itrunc ip) s (Limit cap full) fun _ s' => ∃ V' D' l', FsAt 1 [] l' V' D' s' ∧
      s'.inode = Function.update s.inode ip { s.inode ip with d := (s'.inode ip).d } ∧
      Fits F n l' ∧ (∀ k ≤ NDIRECT, (s'.inode ip).d.addr k = 0) ∧ (s'.inode ip).d.size = 0 ∧
        nodes V' D' = Function.update (nodes V D) (s.inode ip).inum
          (nodes V D (s.inode ip).inum).empty ∧
        ∀ b, V'.bit b = true ↔ V.bit b = true ∧ ∀ k < NREF,
          V.ref (D (s.inode ip).inum) k ≠ 0 → V.ref (D (s.inode ip).inum) k ≠ b := by
  have hD := h.loaded hl
  have hi := h.alloc hl
  unfold itrunc
  have start : Truncating [] F n ip V s 0 (· < 0) s := by
    refine ⟨⟨l, V, h.blk, ⟨fun _ _ => rfl, known_low h.ok.laid _ (Nat.le_refl _), fun b => ?_⟩, fits⟩,
      (s.inode ip).d, ?_, .refl _, fun j _ => ?_⟩
    · exact (and_iff_left fun k _ hk => absurd hk (Nat.not_lt_zero k)).symm
    · exact (Function.update_eq_self ip s.inode).symm
    · rw [if_neg (Nat.not_lt_zero j)]
  refine .call (Comp.Sat.forUpTo (I := fun k t => Truncating [] F n ip V s k (· < k) t) start
    fun k hk t ht => itruncDirect_sat h hl hk hF room ht) ?_
  intro _ t₁ ht₁
  refine .call (itruncIndirect_sat h hl hF room ht₁) ?_
  intro _ t₂ ht₂
  obtain ⟨l₂, V₂, h₂, freed₂, fits₂⟩ := ht₂.blocks
  obtain ⟨e, he, fields, addr⟩ := ht₂.inode
  -- the cached copy becomes `d`, which is then written back
  obtain ⟨d, hd⟩ : ∃ d, d = ({ e with size := 0 } : Dinode) := ⟨_, rfl⟩
  obtain ⟨t₃, ht₃⟩ : ∃ t₃, t₃ = t₂.setInode ip { s.inode ip with d := d } := ⟨_, rfl⟩
  have set : t₂.setInode ip { t₂.inode ip with d := { (t₂.inode ip).d with size := 0 } } = t₃ := by
    rw [ht₃, he, Function.update_self, hd]
  have addr0 : ∀ k ≤ NDIRECT, d.addr k = 0 := by
    intro k hk
    rw [hd]
    exact (addr k hk).trans (if_pos (Nat.lt_succ_of_le hk))
  have type : d.type = (s.inode ip).d.type := by
    rw [hd]
    exact fields.type
  obtain ⟨ok, shown⟩ := h.ok.trunc hl.live hl.valid freed₂.same freed₂.known
    (fun b => (freed₂.bits b).trans (and_congr_right fun _ =>
      ⟨fun hp k hk => hp k hk trivial, fun hp k hk _ => hp k hk⟩)) type addr0 (by rw [hd])
  refine .modify ?_
  rw [set]
  have known : ∀ c ≤ BITMAP, V₂ c ≠ none := by
    intro c hc
    by_cases hb : c = BITMAP
    · exact hb ▸ freed₂.known
    · rw [freed₂.same c hb]
      exact known_low h.ok.laid c hc
  have inode₃ : t₃.inode = Function.update s.inode ip { s.inode ip with d := d } := by
    rw [ht₃]
    change Function.update t₂.inode ip _ = _
    rw [he, Function.update_idem]
  have slot₃ : t₃.inode ip = { s.inode ip with d := d } := by
    rw [inode₃, Function.update_self]
  have at₃ : At 1 [] l₂ V₂ t₃ := by
    rw [ht₃]
    exact h₂.congr rfl rfl
  refine (iupdate_sat at₃ ?_ ?_ known fits₂ ?_ (Or.inl room) (Nat.zero_le _)).post ?_
  · rw [slot₃]
    exact h.dev hl
  · rw [slot₃]
    exact hi.2.1
  · rwa [slot₃]
  rintro _ s₄ ⟨l₄, h₄, fits₄, -, only₄, -⟩
  rw [slot₃] at h₄
  rw [← inode₃, ← only₄.inode] at ok
  have slot₄ : s₄.inode ip = { s.inode ip with d := d } := by rw [only₄.inode, slot₃]
  refine ⟨_, _, l₄, ⟨h₄, ok⟩, ?_, fits₄, ?_, ?_, ?_, ?_⟩
  · rw [slot₄, only₄.inode, inode₃]
  · rw [slot₄]
    exact addr0
  · rw [slot₄, hd]
  · rw [shown, h.node hl]
    congr 1
    refine Node.ext type ?_ ?_ ?_ ?_ (funext fun q => ?_)
    · rw [hd]
      exact fields.major
    · rw [hd]
      exact fields.minor
    · rw [hd]
      exact fields.nlink
    · rw [hd]
      rfl
    · change V.byteAt d q = none
      rw [Image.byteAt, hd]
      exact if_neg (Nat.not_lt_zero q)
  · intro b
    rw [Image.putDino, Image.bit_update_of_ne (Nat.ne_of_lt (Image.inodeBlock_le hi.2.1)), freed₂.bits, hD]
    exact and_congr_right fun _ => ⟨fun hp k hk => hp k hk trivial, fun hp k hk _ => hp k hk⟩

end EasyXv6.Fs.Vol
