import EasyXv6.Fs.Read

set_option autoImplicit false

/-!
# Writing a file (writei)

Every round of the loop maps one block and changes it. A copy from user memory that fails leaves
the block as far as it was copied.
-/
namespace EasyXv6.Fs.Vol
open Lib Mem

variable {l : List ℕ} {V : Image} {D : ℕ → Dinode} {s : Vol} {ip : Fin NINODE} {F : Finset ℕ}
  {userSrc : Bool} {n tot off src m cap : ℕ} {full : Prop} {bytes : ℕ → UInt8}
  {E : String → Vol → Prop}

/-- The copies of a write of `n` bytes deliver the bytes of `bytes`. -/
structure Supplies (userSrc : Bool) (mem : UserMem) (de : Bytes DIRENT_SIZE) (src n : ℕ)
    (bytes : ℕ → UInt8) : Prop where
  kernel : userSrc = false → ∀ j < n, de.byte (src + j) = bytes j
  user : userSrc = true → ∀ k m, k + m ≤ n → (mem.copyin (src + k) m).1 = true →
    ∀ j < m, (mem.copyin (src + k) m).2.getD j 0 = bytes (k + j)

/-- No copy of a write of `n` bytes fails. -/
def Readable (userSrc : Bool) (mem : UserMem) (src n : ℕ) : Prop :=
  userSrc = true → ∀ k m, k + m ≤ n → (mem.copyin (src + k) m).1 = true

theorem Readable.kernel {mem : UserMem} (h : userSrc = false) : Readable userSrc mem src n :=
  fun hu => absurd (h.symm.trans hu) Bool.false_ne_true

/-- What a round of the loop copies. -/
theorem copyIn_sat {k : ℕ} (sup : Supplies userSrc s.user s.de src n bytes) (hk : k + m ≤ n) :
    Comp.Sat (copyIn userSrc (src + k) m) s E fun c s' => s' = s ∧
      (Readable userSrc s.user src n → c.1 = true) ∧ c.2.length ≤ m ∧
        (c.1 = true → c.2.length = m ∧ ∀ j < m, c.2.getD j 0 = bytes (k + j)) := by
  unfold copyIn
  refine .get (.ite (fun hu => .pure ⟨rfl, fun hr => hr hu k m hk, ?_, fun hc => ?_⟩) fun hu =>
    .pure ⟨rfl, fun _ => rfl, by simp, fun _ => ⟨by simp, fun j hj => ?_⟩⟩)
  · have copied := UserMem.copyin_copied s.user (src + k) m
    cases hc : (s.user.copyin (src + k) m).1 with
    | true => exact (UserMem.copyin_length hc).le
    | false => exact Nat.le_of_lt (copied.short hc).1
  · exact ⟨UserMem.copyin_length hc, sup.user hu k m hk hc⟩
  · rw [← sup.kernel (by simpa using hu) (k + j) (by omega), ← Nat.add_assoc]
    simp [List.getD_eq_getElem?_getD, hj]

/-- The blocks that the loop still has to write. -/
def roundsLeft (off n tot : ℕ) : ℕ :=
  if tot < n then (off + n - 1) / BSIZE + 1 - (off + tot) / BSIZE else 0

theorem roundsLeft_step (hlt : tot < n) {w : ℕ}
    (hw : w = min (BSIZE - (off + tot) % BSIZE) (n - tot)) :
    roundsLeft off n (tot + w) + 1 ≤ roundsLeft off n tot := by
  unfold roundsLeft
  simp only [BSIZE] at *
  rw [if_pos hlt]
  split <;> omega

/-- The bytes of a round are in one block. -/
theorem round_div {w j : ℕ} (hw : w = min (BSIZE - (off + tot) % BSIZE) (n - tot)) (hj : j < w) :
    (off + (tot + j)) / BSIZE = (off + tot) / BSIZE ∧
      (off + (tot + j)) % BSIZE = (off + tot) % BSIZE + j := by
  simp only [BSIZE] at *
  omega

/-- The indices of the blocks that the loop still has to write. -/
def blocksLeft (off n tot : ℕ) : Finset ℕ :=
  if tot < n then Finset.Icc ((off + tot) / BSIZE) ((off + n - 1) / BSIZE) else ∅

/-- The blocks that those with indices in `bs` still need. -/
def missing (V : Image) (d : Dinode) (bs : Finset ℕ) : ℕ :=
  (bs.filter fun bn => V.ref d (Image.dataRef bn) = 0).card +
    if ∃ bn ∈ bs, ¬ bn < NDIRECT then addrCost d NDIRECT else 0

theorem bmapCost_le_missing {d : Dinode} {bs : Finset ℕ} {bn : ℕ} (hbn : bn ∈ bs) :
    bmapCost V d bn ≤ missing V d bs := by
  unfold bmapCost missing
  refine Nat.add_le_add ?_ ?_
  · split
    next h0 => exact Finset.card_pos.mpr ⟨bn, Finset.mem_filter.mpr ⟨hbn, h0⟩⟩
    next => exact Nat.zero_le _
  · split
    next => exact Nat.zero_le _
    next hd => exact (if_pos ⟨bn, hbn, hd⟩).symm.le

theorem missing_zero {d : Dinode} {bs : Finset ℕ}
    (h : ∀ bn ∈ bs, V.ref d (Image.dataRef bn) ≠ 0) : missing V d bs = 0 := by
  have first : bs.filter (fun bn => V.ref d (Image.dataRef bn) = 0) = ∅ :=
    Finset.filter_eq_empty_iff.mpr fun bn hbn => h bn hbn
  have second : (if ∃ bn ∈ bs, ¬ bn < NDIRECT then addrCost d NDIRECT else 0) = 0 := by
    split
    next he =>
      obtain ⟨bn, hbn, hd⟩ := he
      refine if_neg fun h0 => h bn hbn ?_
      rw [Image.dataRef, if_neg hd]
      exact Image.ref_entry_zero (by omega) h0
    next => rfl
  rw [missing, first, second, Finset.card_empty]

/-- One of the blocks has been mapped, and none of the others has been lost. -/
theorem missing_step {V' : Image} {d d' : Dinode} {bs bs' : Finset ℕ} {bn : ℕ} (hbn : bn ∈ bs)
    (sub : bs' ⊆ bs.erase bn) (small : ∀ c ∈ bs, c < MAXFILE)
    (refs : ∀ k < NREF, V.ref d k ≠ 0 → V'.ref d' k ≠ 0) (here : V'.ref d' (Image.dataRef bn) ≠ 0) :
    missing V' d' bs' + bmapCost V d bn ≤ missing V d bs := by
  have fewer : bs'.filter (fun c => V'.ref d' (Image.dataRef c) = 0) ⊆
      (bs.filter fun c => V.ref d (Image.dataRef c) = 0).erase bn := by
    intro c hc
    obtain ⟨hc, h0⟩ := Finset.mem_filter.mp hc
    obtain ⟨hne, hc⟩ := Finset.mem_erase.mp (sub hc)
    refine Finset.mem_erase.mpr ⟨hne, Finset.mem_filter.mpr ⟨hc, ?_⟩⟩
    by_contra hr
    exact refs _ (Image.dataRef_lt (small c hc)) hr h0
  have card := Finset.card_le_card fewer
  have first : (bs'.filter fun c => V'.ref d' (Image.dataRef c) = 0).card +
      (if V.ref d (Image.dataRef bn) = 0 then 1 else 0) ≤
        (bs.filter fun c => V.ref d (Image.dataRef c) = 0).card := by
    split
    next h0 =>
      have mem : bn ∈ bs.filter fun c => V.ref d (Image.dataRef c) = 0 :=
        Finset.mem_filter.mpr ⟨hbn, h0⟩
      rw [Finset.card_erase_of_mem mem] at card
      have := Finset.card_pos.mpr ⟨bn, mem⟩
      omega
    next => exact Nat.le_trans card (Finset.card_erase_le)
  have ind : d'.addr NDIRECT = 0 → d.addr NDIRECT = 0 := by
    intro h0
    by_contra hd
    rw [← Image.ref_direct (V := V) (Nat.le_refl NDIRECT)] at hd
    exact refs NDIRECT (by decide) hd ((Image.ref_direct (Nat.le_refl NDIRECT)).trans h0)
  have second : (if ∃ c ∈ bs', ¬ c < NDIRECT then addrCost d' NDIRECT else 0) +
      (if bn < NDIRECT then 0 else addrCost d NDIRECT) ≤
        if ∃ c ∈ bs, ¬ c < NDIRECT then addrCost d NDIRECT else 0 := by
    have le : addrCost d' NDIRECT ≤ addrCost d NDIRECT := by
      unfold addrCost
      split
      next h0 => rw [if_pos (ind h0)]
      next => exact Nat.zero_le _
    by_cases hd : bn < NDIRECT
    · rw [if_pos hd]
      by_cases he : ∃ c ∈ bs', ¬ c < NDIRECT
      · obtain ⟨c, hc, hcd⟩ := he
        rw [if_pos ⟨c, hc, hcd⟩, if_pos ⟨c, Finset.mem_of_mem_erase (sub hc), hcd⟩]
        exact le
      · rw [if_neg he]
        exact Nat.zero_le _
    · -- the indirect block is there
      have h0 : addrCost d' NDIRECT = 0 := by
        refine if_neg fun h0 => here ?_
        rw [Image.dataRef, if_neg hd]
        exact Image.ref_entry_zero (by omega) h0
      rw [h0, ite_self, Nat.zero_add, if_neg hd, if_pos ⟨bn, hbn, hd⟩]
  unfold missing bmapCost
  omega

/-- Byte `p` of the inode `d` is `a` in the cache and on the disk. -/
structure BothShow (s : Vol) (V : Image) (d : Dinode) (p : ℕ) (a : UInt8) : Prop where
  view : (s.view (V.ref d (Image.dataRef (p / BSIZE)))).byte (p % BSIZE) = a
  disk : (s.blk.bio.disk (V.ref d (Image.dataRef (p / BSIZE)))).byte (p % BSIZE) = a

/-- A buffer that is read again keeps a byte that the cache and the disk have alike. -/
theorem BothShow.fall {V' : Image} {d d' : Dinode} {s' : Vol} {p : ℕ} {a : UInt8}
    (both : BothShow s V d p a)
    (href : V'.ref d' (Image.dataRef (p / BSIZE)) = V.ref d (Image.dataRef (p / BSIZE)))
    (fall : Log.Falls (V.ref d (Image.dataRef (p / BSIZE))) s.blk s'.blk) : BothShow s' V' d' p a := by
  refine ⟨?_, ?_⟩
  · rw [href]
    rcases fall.view with e | e
    · exact (congrArg (fun x => Bytes.byte x (p % BSIZE)) e).trans both.view
    · exact (congrArg (fun x => Bytes.byte x (p % BSIZE)) e).trans both.disk
  · rw [href, fall.disk, both.disk]

/-- What the loop of `writei` from byte `tot` on does. -/
structure Written (F : Finset ℕ) (m : ℕ) (ip : Fin NINODE) (off n tot : ℕ) (bytes : ℕ → UInt8)
    (V : Image) (D : ℕ → Dinode) (s : Vol) (ok : Bool) (V' : Image) (D' : ℕ → Dinode)
    (l' : List ℕ) (s' : Vol) : Prop where
  at' : FsAt 1 [] l' V' D' s'
  same : Same s s'
  others : ∀ j, j ≠ (s.inode ip).inum → nodes V' D' j = nodes V D j
  apart : Apart (s.inode ip).inum V D V' D'
  fields : SameFields (D' (s.inode ip).inum) (D (s.inode ip).inum)
  fails : ok = false → tot < n
  quota : ok = true → Quota F (m + roundsLeft off n tot) (s'.inode ip).d l'
  refs : ∀ k < NREF, V.ref (D (s.inode ip).inum) k ≠ 0 → V'.ref (D' (s.inode ip).inum) k ≠ 0
  mapped : ok = true → tot < n → ∀ bn, (off + tot) / BSIZE ≤ bn → bn * BSIZE < off + n →
    V'.ref (D' (s.inode ip).inum) (Image.dataRef bn) ≠ 0
  new : ok = true → ∀ p, tot ≤ p → p < n →
    V'.rawByte (D' (s.inode ip).inum) (off + p) = some (bytes p)
  old : ok = true → ∀ q x, q / BSIZE < MAXFILE →
    V.ref (D (s.inode ip).inum) (Image.dataRef (q / BSIZE)) ≠ 0 → q < off + tot ∨ off + n ≤ q →
      V.rawByte (D (s.inode ip).inum) q = some x → V'.rawByte (D' (s.inode ip).inum) q = some x
  early : ∀ q x, q / BSIZE < (off + tot) / BSIZE → q / BSIZE < MAXFILE →
    V.ref (D (s.inode ip).inum) (Image.dataRef (q / BSIZE)) ≠ 0 →
      V.rawByte (D (s.inode ip).inum) q = some x → V'.rawByte (D' (s.inode ip).inum) q = some x
  tail : tot < n → ∀ p a, p < off + tot → p / BSIZE = (off + tot) / BSIZE →
    V.ref (D (s.inode ip).inum) (Image.dataRef (p / BSIZE)) ≠ 0 →
      BothShow s V (D (s.inode ip).inum) p a →
        V'.rawByte (D' (s.inode ip).inum) p = some a ∨
          ok = false ∧ BothShow s' V' (D' (s.inode ip).inum) p a
  keeps : ∀ p a, p < off + tot ∨ off + n ≤ p → p / BSIZE < MAXFILE →
    V.ref (D (s.inode ip).inum) (Image.dataRef (p / BSIZE)) ≠ 0 →
      BothShow s V (D (s.inode ip).inum) p a → BothShow s' V' (D' (s.inode ip).inum) p a

/-- One round: the block `b` of the bytes from `off + tot` on has been mapped, and its contents
    become `x`. -/
theorem round {V₁ : Image} {D₁ : ℕ → Dinode} {s₁ : Vol} {l₁ : List ℕ} {b : ℕ} {x : Option Block}
    (hl : Loaded s ip) (mapped : Mapped [] ip V D s V₁ D₁ l₁ s₁) (hb0 : b ≠ 0)
    (hbn : (off + tot) / BSIZE < MAXFILE)
    (href : V₁.ref (D₁ (s.inode ip).inum) (Image.dataRef ((off + tot) / BSIZE)) = b)
    (hx : x = none → (s.inode ip).d.type ≠ T_DIR) (h : FsAt 1 [] l V D s) :
    Ok (Function.update V₁ b x) D₁ s₁.inode ∧
      (∀ j, j ≠ (s.inode ip).inum → nodes (Function.update V₁ b x) D₁ j = nodes V D j) ∧
      (∀ k, Image.ref (Function.update V₁ b x) (D₁ (s.inode ip).inum) k =
        V₁.ref (D₁ (s.inode ip).inum) k) ∧
      (∀ k < NREF, V.ref (D (s.inode ip).inum) k ≠ 0 →
        Image.ref (Function.update V₁ b x) (D₁ (s.inode ip).inum) k ≠ 0) ∧
      (∀ q, q / BSIZE = (off + tot) / BSIZE →
        Image.rawByte (Function.update V₁ b x) (D₁ (s.inode ip).inum) q =
          x.map (·.byte (q % BSIZE))) ∧
      (∀ q, q / BSIZE < MAXFILE → q / BSIZE ≠ (off + tot) / BSIZE →
        V.ref (D (s.inode ip).inum) (Image.dataRef (q / BSIZE)) ≠ 0 →
        Image.rawByte (Function.update V₁ b x) (D₁ (s.inode ip).inum) q =
          V.rawByte (D (s.inode ip).inum) q) ∧
      Apart (s.inode ip).inum V D (Function.update V₁ b x) D₁ := by
  have hl₁ := hl.same mapped.same
  have hi₁ := mapped.at'.alloc hl₁
  rw [mapped.same.inum] at hi₁
  have hk := Image.dataRef_lt hbn
  have type : x = none → (D₁ (s.inode ip).inum).type ≠ T_DIR := by
    rw [mapped.grown.fields.type, h.loaded hl]
    exact hx
  have write := mapped.at'.ok.write hi₁ hk (Image.dataRef_ne _) (by rwa [href]) type
  rw [href] at write
  obtain ⟨ok, others, refs, raw, apart⟩ := write
  refine ⟨ok, fun j hj => ?_, refs, fun k hk' hr => ?_, fun q hq => ?_, fun q hq hne hr => ?_,
    mapped.grown.apart.trans apart⟩
  · rw [others j hj, mapped.grown.nodes]
  · rw [refs, mapped.grown.refs k hk' hr]
    exact hr
  · rw [raw q (hq ▸ hbn), hq, if_pos rfl]
  · rw [raw q hq, if_neg fun e => hne (Image.dataRef_inj e), mapped.grown.rawByte hq hr]

/-- The bytes that a round does not write stay as the cache and the disk have them. -/
theorem round_keeps {V₁ V₂ : Image} {D₁ : ℕ → Dinode} {s₁ s₂ u : Vol} {l₁ : List ℕ} {b len p : ℕ}
    {data : ℕ → UInt8} {a : UInt8} (hl : Loaded s ip) (mapped : Mapped [] ip V D s V₁ D₁ l₁ s₁)
    (hbn : (off + tot) / BSIZE < MAXFILE)
    (href : V₁.ref (D₁ (s.inode ip).inum) (Image.dataRef ((off + tot) / BSIZE)) = b)
    (falls : ∀ j < NREF, j ≠ NDIRECT → V.ref (s.inode ip).d j ≠ 0 →
      Log.Falls (V.ref (s.inode ip).d j) s.blk s₂.blk)
    (view : u.view = Function.update s₂.view b ((s₂.view b).put ((off + tot) % BSIZE) len data))
    (disk : u.blk.bio.disk = s₂.blk.bio.disk)
    (refs : ∀ k, V₂.ref (D₁ (s.inode ip).inum) k = V₁.ref (D₁ (s.inode ip).inum) k)
    (h : FsAt 1 [] l V D s) (out : p < off + tot ∨ off + tot + len ≤ p) (hp : p / BSIZE < MAXFILE)
    (hr : V.ref (D (s.inode ip).inum) (Image.dataRef (p / BSIZE)) ≠ 0)
    (both : BothShow s V (D (s.inode ip).inum) p a) : BothShow u V₂ (D₁ (s.inode ip).inum) p a := by
  have hk := Image.dataRef_lt hp
  have hD := h.loaded hl
  have hi₁ := mapped.at'.alloc (hl.same mapped.same)
  rw [mapped.same.inum] at hi₁
  obtain ⟨c, hc⟩ : ∃ c, c = V.ref (D (s.inode ip).inum) (Image.dataRef (p / BSIZE)) := ⟨_, rfl⟩
  have same₁ : V₁.ref (D₁ (s.inode ip).inum) (Image.dataRef (p / BSIZE)) = c := by
    rw [hc, mapped.grown.refs _ hk hr]
  have both₂ : BothShow s₂ V₁ (D₁ (s.inode ip).inum) p a := by
    refine both.fall (by rw [same₁, hc]) ?_
    rw [hD]
    exact falls _ hk (Image.dataRef_ne _) (by rwa [← hD])
  have view₂ := both₂.view
  have disk₂ := both₂.disk
  rw [same₁] at view₂ disk₂
  refine ⟨?_, ?_⟩
  · rw [refs, same₁, view]
    by_cases hcb : c = b
    · have index := (mapped.at'.ok.laid.inj _ _ hi₁ hi₁ _ hk _ (Image.dataRef_lt hbn)
        (by rwa [same₁, hc]) (same₁.trans (hcb.trans href.symm))).2
      have div := Image.dataRef_inj index
      rw [hcb] at view₂
      rw [hcb, Function.update_self, Bytes.byte_put_of_disjoint, view₂]
      simp only [BSIZE] at *
      omega
    · rw [Function.update_of_ne hcb, view₂]
  · rw [refs, same₁, disk, disk₂]

theorem writeiLoop_sat {fuel : ℕ} (h : FsAt 1 [] l V D s) (hl : Loaded s ip)
    (sup : Supplies userSrc s.user s.de src n bytes) (htot : tot ≤ n) (hfuel : n - tot ≤ fuel)
    (hmax : off + n ≤ MAXFILE * BSIZE) (hF : BITMAP ∈ F)
    (quota : Quota F m (s.inode ip).d l)
    (room : F.card + m + roundsLeft off n tot ≤ 28 ∨ ∀ w t, E w t)
    (htype : userSrc = true → (s.inode ip).d.type ≠ T_DIR)
    (free : full ∨ missing V (s.inode ip).d (blocksLeft off n tot) ≤ V.free)
    (stop : ∀ w t, Limit cap full w t → E w t) :
    Comp.Sat (writeiLoop ip userSrc n fuel tot (off + tot) (src + tot)) s E fun ok s' =>
      (Readable userSrc s.user src n → ok = true) ∧
        ∃ V' D' l', Written F m ip off n tot bytes V D s ok V' D' l' s' := by
  induction fuel generalizing s l V D tot m with
  | zero =>
    refine .pure ⟨fun _ => rfl, V, D, l, ⟨h, .refl s, fun _ _ => rfl, .refl _ V D, .refl _, by rintro ⟨⟩,
      fun _ => quota.mono (Nat.le_add_right _ _), fun _ _ hr => hr, fun _ h1 => by omega,
      fun _ p h1 h2 => by omega, fun _ q x _ _ _ hx => hx, fun _ _ _ _ _ hx => hx,
      fun h1 => by omega, fun _ _ _ _ _ both => both⟩⟩
  | succ fuel ih =>
    unfold writeiLoop
    refine .ite (fun hlt => ?_) fun hge => ?_
    · have hi := h.alloc hl
      have hD := h.loaded hl
      have hbn : (off + tot) / BSIZE < MAXFILE := by
        simp only [BSIZE] at *
        omega
      have rounds : roundsLeft off n tot = (off + n - 1) / BSIZE + 1 - (off + tot) / BSIZE :=
        if_pos hlt
      have one : 1 ≤ roundsLeft off n tot := by
        rw [rounds]
        have := Nat.div_le_div_right (c := BSIZE) (show off + tot ≤ off + n - 1 by omega)
        omega
      have left : blocksLeft off n tot = Finset.Icc ((off + tot) / BSIZE) ((off + n - 1) / BSIZE) :=
        if_pos hlt
      have first : (off + tot) / BSIZE ∈ blocksLeft off n tot := by
        rw [left, Finset.mem_Icc]
        exact ⟨Nat.le_refl _, Nat.div_le_div_right (by omega)⟩
      have small : ∀ c ∈ blocksLeft off n tot, c < MAXFILE := by
        intro c hc
        rw [left, Finset.mem_Icc] at hc
        simp only [BSIZE] at *
        omega
      refine .gets (.call (bmap_sat h hl hbn quota hF (room.imp (fun _ => by omega) id)
        (free.imp_right (Nat.le_trans (bmapCost_le_missing first))) stop) ?_)
      rintro b s₁ ⟨V₁, D₁, l₁, mapped, hb0, href, quota₁, free₁, kept₁, falls₁⟩
      have h₁ := mapped.at'
      have hl₁ := hl.same mapped.same
      have hi₁ := h₁.alloc hl₁
      have hD₁ := h₁.loaded hl₁
      have hk := Image.dataRef_lt hbn
      rw [mapped.same.inum] at hi₁ hD₁
      have own := h₁.ok.laid.own _ hi₁ _ hk (by rwa [href])
      rw [href] at own
      have home : INODES ≤ b := Nat.le_of_lt (Nat.lt_trans (by decide) own.1)
      have len₁ : l₁.length < 29 ∨ ∀ w t, E w t := by
        refine room.imp (fun room => ?_) id
        obtain ⟨k₁, fits₁, le₁⟩ := quota₁
        have sub : ∀ c ∈ l₁, c ∈ noted b l₁ := fun c hc => mem_noted.mpr (Or.inr hc)
        obtain ⟨X, hX, hl'⟩ := fits₁
        have := h₁.blk.length_le ⟨X, hX, fun c hc => hl' c (sub c hc)⟩
        omega
      rw [h.dev hl]
      refine .call (bread_or_sat h₁.blk own.2.1
        (len₁.imp (fun _ => by simp only [Spare, NBUF, List.length_nil]; omega) id)) ?_
      rintro bp s₂ ⟨h₂, only₂, view₂, reread₂⟩
      have falls₂ : ∀ j < NREF, j ≠ NDIRECT → V.ref (s.inode ip).d j ≠ 0 →
          Log.Falls (V.ref (s.inode ip).d j) s.blk s₂.blk :=
        fun j hj hne hr => (falls₁ j hj hne hr).trans (reread₂.falls _)
      obtain ⟨w, hw⟩ : ∃ w, w = min (BSIZE - (off + tot) % BSIZE) (n - tot) := ⟨_, rfl⟩
      rw [← hw]
      have hpos : 0 < w := by
        have := Nat.mod_lt (off + tot) (show 0 < BSIZE by decide)
        omega
      have sup₂ : Supplies userSrc s₂.user s₂.de src n bytes := by
        rwa [only₂.user, only₂.de, mapped.same.user, mapped.same.de]
      refine .call (copyIn_sat sup₂ (m := w) (by omega)) ?_
      rintro ⟨ok, data⟩ s₂ ⟨rfl, readable, short, copied⟩
      have keep₂ := mapped.same.trans only₂.same
      -- a byte before the round that the cache and the disk agree on
      have before : ∀ p a, p / BSIZE = (off + tot) / BSIZE →
          V.ref (D (s.inode ip).inum) (Image.dataRef (p / BSIZE)) ≠ 0 →
          BothShow s V (D (s.inode ip).inum) p a →
          (s₂.view b).byte (p % BSIZE) = a ∧ (s₁.blk.bio.disk b).byte (p % BSIZE) = a := by
        intro p a hdiv hr both
        have same : V.ref (D (s.inode ip).inum) (Image.dataRef (p / BSIZE)) = b := by
          rw [← mapped.grown.refs _ (Image.dataRef_lt (hdiv ▸ hbn)) hr, hdiv, href]
        have view := both.view
        have disk := both.disk
        rw [same] at view disk
        have reread := kept₁ (by rwa [← hD, ← hdiv])
        rw [view₂, reread.disk]
        refine ⟨?_, disk⟩
        rcases reread.fall b with e | e
        · rw [e, view]
        · rw [e, disk]
      cases ok with
      | true =>
        obtain ⟨len, get⟩ := copied rfl
        refine modify_or_sat h₂ List.mem_cons_self (not_inLog_of_high home) len₁ _ ?_
        intro s₃ h₃ only₃ view₃
        refine .call (brelse_sat h₃) ?_
        rintro _ s₄ ⟨h₄, only₄, view₄, -⟩
        obtain ⟨ok₄, others, refs, refs0, here, there, apart⟩ := round (x := some _) hl mapped hb0 hbn href
          (fun hc => by cases hc) h
        have only := only₂.trans (only₃.trans only₄)
        have same₄ := mapped.same.trans only.same
        have hl₄ := hl.same same₄
        rw [← only.inode] at ok₄
        have at₄ : FsAt 1 [] _ _ D₁ s₄ := ⟨h₄, ok₄⟩
        have left := roundsLeft_step hlt hw
        have sup₄ : Supplies userSrc s₄.user s₄.de src n bytes := by rwa [same₄.user, same₄.de]
        have quota₄ : Quota F (m + 1) (s₄.inode ip).d (noted b l₁) := by rwa [only.inode]
        have room₄ : F.card + (m + 1) + roundsLeft off n (tot + w) ≤ 28 ∨ ∀ w t, E w t :=
          room.imp (fun _ => by omega) id
        have type₄ : userSrc = true → (s₄.inode ip).d.type ≠ T_DIR := by
          intro hu
          rw [← at₄.loaded hl₄, same₄.inum, mapped.grown.fields.type, hD]
          exact htype hu
        have block0 : Image.ref (Function.update V₁ b (some ((s₂.view b).put ((off + tot) % BSIZE)
            data.length fun j => data.getD j 0))) (D₁ (s.inode ip).inum)
            (Image.dataRef ((off + tot) / BSIZE)) ≠ 0 := by
          rw [refs, href]
          exact hb0
        have rest : blocksLeft off n (tot + w) ⊆ (blocksLeft off n tot).erase ((off + tot) / BSIZE) := by
          intro c hc
          unfold blocksLeft at hc ⊢
          rw [if_pos hlt]
          split at hc
          · rw [Finset.mem_Icc] at hc
            rw [Finset.mem_erase, Finset.mem_Icc]
            simp only [BSIZE] at *
            omega
          · exact absurd hc (Finset.notMem_empty c)
        have free₄ : full ∨ missing (Function.update V₁ b (some ((s₂.view b).put ((off + tot) % BSIZE)
            data.length fun j => data.getD j 0))) (s₄.inode ip).d (blocksLeft off n (tot + w)) ≤
              Image.free (Function.update V₁ b (some ((s₂.view b).put ((off + tot) % BSIZE)
                data.length fun j => data.getD j 0))) := by
          refine free.imp_right fun hf => ?_
          rw [Image.free_congr (Image.bit_update_of_ne (Nat.ne_of_gt own.1))]
          rw [← hD] at hf free₁
          rw [← at₄.loaded hl₄, same₄.inum]
          refine Nat.le_of_add_le_add_right (b := bmapCost V (D (s.inode ip).inum) ((off + tot) / BSIZE))
            (Nat.le_trans (missing_step first rest small refs0 block0) ?_)
          rwa [← free₁]
        have next := ih at₄ hl₄ sup₄ (by omega) (by omega) quota₄ room₄ type₄ free₄
        rw [← Nat.add_assoc, ← Nat.add_assoc] at next
        refine next.post ?_
        rintro r s₅ ⟨hr, V₅, D₅, l₅, wr⟩
        refine ⟨fun hread => hr (by rwa [same₄.user]), V₅, D₅, l₅, ?_⟩
        obtain ⟨at₅, same₅, others₅, apart₅, fields₅, fails₅, quota₅, refs₅, mapped₅, new₅, old₅,
          early₅, -, keeps₅⟩ := wr
        rw [same₄.inum] at others₅ apart₅ fields₅ refs₅ mapped₅ new₅ old₅ early₅ keeps₅
        have below : w + (off + tot) % BSIZE ≤ BSIZE := by
          have := Nat.mod_lt (off + tot) (show 0 < BSIZE by decide)
          omega
        refine ⟨at₅, same₄.trans same₅, fun j hj => (others₅ j hj).trans (others j hj),
          apart.trans apart₅, fields₅.trans mapped.grown.fields, fun hf => Nat.lt_of_le_of_lt (Nat.le_add_right _ _)
            (fails₅ hf), fun hok => (quota₅ hok).mono (by omega),
          fun k hk' hr' => refs₅ k hk' (refs0 k hk' hr'), fun hok _ bn hle hbn' => ?_,
          fun hok p hp1 hp2 => ?_, fun hok q x hq hr' hout hx => ?_, fun q x hq hmax' hr' hx => ?_,
          fun _ p a hp hdiv hr' both => Or.inl ?_, fun p a hout hp hr' both => ?_⟩
        · rcases Nat.lt_or_eq_of_le hle with hgt | rfl
          · refine mapped₅ hok ?_ bn ?_ hbn'
            all_goals
              simp only [BSIZE] at *
              omega
          · exact refs₅ _ hk block0
        · by_cases hpw : p < tot + w
          · obtain ⟨j, rfl⟩ := Nat.exists_eq_add_of_le hp1
            obtain ⟨hdiv, hmod⟩ := round_div hw (show j < w by omega)
            refine old₅ hok _ _ (hdiv ▸ hbn) (by rwa [hdiv]) (Or.inl (by omega)) ?_
            have hlt' := Nat.mod_lt (off + (tot + j)) (show 0 < BSIZE by decide)
            rw [here _ hdiv, Option.map_some, Bytes.byte_put _ _ _ _ _ hlt', hmod,
              if_pos (by omega), Nat.add_sub_cancel_left, get j (by omega)]
          · exact new₅ hok p (by omega) hp2
        · have hq' : Image.rawByte (Function.update V₁ b (some ((s₂.view b).put
              ((off + tot) % BSIZE) data.length fun j => data.getD j 0))) (D₁ (s.inode ip).inum) q =
              some x := by
            by_cases hdiv : q / BSIZE = (off + tot) / BSIZE
            · have grown := mapped.grown.rawByte hq hr'
              rw [hx] at grown
              have view : (s₂.view b).byte (q % BSIZE) = x := by
                rw [← href, ← hdiv]
                refine h₂.rawByte_eq ?_ grown
                rw [hdiv, href]
                exact home
              rw [here q hdiv, Option.map_some, Bytes.byte_put_of_disjoint, view]
              simp only [BSIZE] at *
              omega
            · rw [there q hq hdiv hr', hx]
          refine old₅ hok q x hq (refs0 _ (Image.dataRef_lt hq) hr') ?_ hq'
          rcases hout with hout | hout
          · exact Or.inl (by omega)
          · exact Or.inr hout
        · refine early₅ q x ?_ hmax' (refs0 _ (Image.dataRef_lt hmax') hr') ?_
          · exact Nat.lt_of_lt_of_le hq (Nat.div_le_div_right (by omega))
          · rw [there q hmax' (Nat.ne_of_lt hq) hr', hx]
        · have hmax' : p / BSIZE < MAXFILE := hdiv ▸ hbn
          have byte : Image.rawByte (Function.update V₁ b (some ((s₂.view b).put ((off + tot) % BSIZE)
              data.length fun j => data.getD j 0))) (D₁ (s.inode ip).inum) p = some a := by
            rw [here p hdiv, Option.map_some, Bytes.byte_put_of_disjoint, (before p a hdiv hr' both).1]
            simp only [BSIZE] at *
            omega
          have keep := refs0 _ (Image.dataRef_lt hmax') hr'
          cases r with
          | true => exact old₅ rfl p a hmax' keep (Or.inl (by omega)) byte
          | false =>
            -- the round has filled its block
            have := fails₅ rfl
            refine early₅ p a ?_ hmax' keep byte
            simp only [BSIZE] at *
            omega
        · refine keeps₅ p a (by omega) hp (refs0 _ (Image.dataRef_lt hp) hr') ?_
          exact round_keeps hl mapped hbn href falls₂ (view₄.trans view₃)
            (only₄.disk.trans only₃.disk) refs h (by omega) hp hr' both
      | false =>
        refine .call (setData_sat h₂ List.mem_cons_self (not_inLog_of_high home) _) ?_
        rintro _ s₃ ⟨h₃, only₃, view₃⟩
        refine .call (brelse_sat h₃) ?_
        rintro _ s₄ ⟨h₄, only₄, view₄, -⟩
        dsimp only at view₃ short
        have user : userSrc = true := by
          by_contra hu
          exact Bool.false_ne_true (readable (.kernel (by simpa using hu)))
        obtain ⟨ok₄, others, refs, refs0, here, there, apart⟩ := round hl mapped hb0 hbn href
          (fun _ => htype user) h
        have only := only₂.trans (only₃.trans only₄)
        have same₄ := mapped.same.trans only.same
        rw [← only.inode] at ok₄
        refine .pure ⟨fun hread => ?_, _, D₁, l₁, ⟨⟨h₄, ok₄⟩, same₄, others, apart,
          mapped.grown.fields, fun _ => hlt, by rintro ⟨⟩, refs0,
          by rintro ⟨⟩, by rintro ⟨⟩, by rintro ⟨⟩, fun q x hq hmax' hr' hx => ?_,
          fun _ p a hp hdiv hr' both => ?_, fun p a hout hp hr' both => ?_⟩⟩
        · exact readable (by rwa [only₂.user, mapped.same.user])
        · rw [there q hmax' (Nat.ne_of_lt hq) hr', hx]
        · obtain ⟨view, disk⟩ := before p a hdiv hr' both
          have new : ((s₂.view b).put ((off + tot) % BSIZE) data.length fun j => data.getD j 0).byte
              (p % BSIZE) = a := by
            rw [Bytes.byte_put_of_disjoint, view]
            simp only [BSIZE] at *
            omega
          rw [here p hdiv]
          by_cases hb : b ∈ l₁
          · rw [if_pos hb, Option.map_some, new]
            exact Or.inl rfl
          · refine Or.inr ⟨rfl, ?_, ?_⟩
            · rw [refs, hdiv, href, view₄, view₃, Function.update_self, new]
            · rw [refs, hdiv, href, only.disk, disk]
        · exact round_keeps hl mapped hbn href falls₂ (view₄.trans view₃)
            (only₄.disk.trans only₃.disk) refs h (by omega) hp hr' both
    · have he : tot = n := by omega
      refine .pure ⟨fun _ => rfl, V, D, l, ⟨h, .refl s, fun _ _ => rfl, .refl _ V D, .refl _, by rintro ⟨⟩,
        fun _ => quota.mono (Nat.le_add_right _ _), fun _ _ hr => hr, fun _ h1 => by omega,
        fun _ p h1 h2 => by omega, fun _ q x _ _ _ hx => hx, fun _ _ _ _ _ hx => hx,
        fun h1 => by omega, fun _ _ _ _ _ both => both⟩⟩

/-- The node `x` after a write of `n` bytes at `off`. Bytes that were not certain may have any
    value. -/
structure WrittenNode (off n : ℕ) (bytes : ℕ → UInt8) (x x' : Node) : Prop where
  type : x'.type = x.type
  major : x'.major = x.major
  minor : x'.minor = x.minor
  nlink : x'.nlink = x.nlink
  size : x'.size = max x.size (off + n)
  new : ∀ p < n, x'.byte (off + p) = some (bytes p)
  old : ∀ q a, q < off ∨ off + n ≤ q → x.byte q = some a → x'.byte q = some a

/-- A node that has lost at most contents in the blocks from that of `off` on. -/
structure FailedNode (off : ℕ) (x x' : Node) : Prop where
  type : x'.type = x.type
  major : x'.major = x.major
  minor : x'.minor = x.minor
  nlink : x'.nlink = x.nlink
  size : x'.size = x.size
  early : ∀ q a, q / BSIZE < off / BSIZE → x.byte q = some a → x'.byte q = some a

/-- `if(off > ip->size) ip->size = off` after the loop of `writei`. -/
def grownTo (d : Dinode) (e : ℕ) : Dinode :=
  if d.size.toNat < e then { d with size := BitVec.ofNat 32 e } else d

theorem grownTo_size (d : Dinode) {e : ℕ} (he : e < 2 ^ 32) :
    (grownTo d e).size.toNat = max d.size.toNat e := by
  unfold grownTo
  split
  · dsimp only
    rw [BitVec.toNat_ofNat, Nat.mod_eq_of_lt he]
    omega
  · omega

theorem grownTo_addr (d : Dinode) (e k : ℕ) : (grownTo d e).addr k = d.addr k := by
  unfold grownTo
  split <;> rfl

theorem grownTo_fields (d : Dinode) (e : ℕ) : (grownTo d e).type = d.type ∧
    (grownTo d e).major = d.major ∧ (grownTo d e).minor = d.minor ∧
      (grownTo d e).nlink = d.nlink := by
  unfold grownTo
  split <;> exact ⟨rfl, rfl, rfl, rfl⟩

theorem known_low (laid : Laid V D) : ∀ c ≤ BITMAP, V c ≠ none :=
  fun c hc hn => absurd (laid.known c hn) (Nat.not_lt_of_le hc)

theorem FsAt.node {o : ℤ} {held : List (Fin NBUF × ℕ)} (h : FsAt o held l V D s)
    (hl : Loaded s ip) : nodes V D (s.inode ip).inum = V.node (s.inode ip).d := by
  rw [nodes_of_alloc (h.alloc hl), h.loaded hl]

/-- `writei` refuses to write the bytes from `off` on. -/
def OutOfRange (size off n : ℕ) : Prop :=
  size < off ∨ (off + n) % 2 ^ 64 < off ∨ MAXFILE * BSIZE < off + n

theorem writei_sat (h : FsAt 1 [] l V D s) (hl : Loaded s ip)
    (sup : Supplies userSrc s.user s.de src n bytes) (hF : BITMAP ∈ F)
    (hF' : INODES + (s.inode ip).inum / IPB ∈ F) (quota : Quota F m (s.inode ip).d l)
    (room : F.card + m + roundsLeft off n 0 ≤ 28 ∨ ∀ w t, E w t)
    (htype : userSrc = true → (s.inode ip).d.type ≠ T_DIR)
    (free : full ∨ missing V (s.inode ip).d (blocksLeft off n 0) ≤ V.free)
    (stop : ∀ w t, Limit cap full w t → E w t) :
    Comp.Sat (writei ip userSrc src off n) s E fun r s' =>
      r = -1 ∧ OutOfRange (s.inode ip).d.size.toNat off n ∧ s' = s ∨
      ¬ OutOfRange (s.inode ip).d.size.toNat off n ∧ ∃ V' D' l',
        FsAt 1 [] l' V' D' s' ∧ Same s s' ∧
        (∀ j, j ≠ (s.inode ip).inum → nodes V' D' j = nodes V D j) ∧
        Apart (s.inode ip).inum V D V' D' ∧
        (∀ p a, p < off → p / BSIZE = off / BSIZE → 0 < n → BothShow s V (D (s.inode ip).inum) p a →
          (nodes V' D' (s.inode ip).inum).byte p = some a ∨
            r = -1 ∧ BothShow s' V' (D' (s.inode ip).inum) p a) ∧
        (∀ p a, p < off ∨ off + n ≤ p → p < (s.inode ip).d.size.toNat →
          BothShow s V (D (s.inode ip).inum) p a → BothShow s' V' (D' (s.inode ip).inum) p a) ∧
        (r = n ∧ Fits F (m + roundsLeft off n 0) l' ∧
            WrittenNode off n bytes (nodes V D (s.inode ip).inum) (nodes V' D' (s.inode ip).inum) ∨
          r = -1 ∧ ¬ Readable userSrc s.user src n ∧ 0 < n ∧
            FailedNode off (nodes V D (s.inode ip).inum) (nodes V' D' (s.inode ip).inum)) := by
  have hi := h.alloc hl
  unfold writei
  refine .gets (.ite (fun hout => ?_) fun hin => .ite (fun hbig => ?_) fun hmax => ?_)
  · exact .pure (Or.inl ⟨rfl, hout.imp_right Or.inl, rfl⟩)
  · exact .pure (Or.inl ⟨rfl, Or.inr (Or.inr hbig), rfl⟩)
  have hle : off + n ≤ MAXFILE * BSIZE := by omega
  have inRange : ¬ OutOfRange (s.inode ip).d.size.toNat off n := by
    rintro (hc | hc | hc)
    · exact hin (Or.inl hc)
    · exact hin (Or.inr hc)
    · exact hmax hc
  have hoff : off ≤ (D (s.inode ip).inum).size.toNat := by
    rw [h.loaded hl]
    omega
  -- a byte of the file is in a block that the file has
  have within : ∀ q < (D (s.inode ip).inum).size.toNat, q / BSIZE < MAXFILE ∧
      V.ref (D (s.inode ip).inum) (Image.dataRef (q / BSIZE)) ≠ 0 := by
    intro q hq
    have hbn : q / BSIZE * BSIZE < (D (s.inode ip).inum).size.toNat :=
      Nat.lt_of_le_of_lt (Nat.div_mul_le_self _ _) hq
    exact ⟨h.ok.laid.index_lt hi hbn, h.ok.laid.full _ hi _ hbn⟩
  refine .call (writeiLoop_sat h hl sup (Nat.zero_le n) (Nat.le_refl _) hle hF quota room htype free
    stop) ?_
  rintro ok s₁ ⟨readable, V₁, D₁, l₁, w⟩
  have hl₁ := hl.same w.same
  have node₁ := w.at'.node hl₁
  have hD₁ := w.at'.loaded hl₁
  have hi₁ := w.at'.alloc hl₁
  have hin₁ := w.same.inum ip
  rw [hin₁] at node₁ hD₁ hi₁
  refine .ite (fun hok => ?_) fun hfail => ?_
  · have hsize₁ : (s₁.inode ip).d.size = (s.inode ip).d.size := by
      rw [← hD₁, w.fields.size, h.loaded hl]
    have h32 : off + n < 2 ^ 32 := by
      simp only [MAXFILE, NDIRECT, NINDIRECT, BSIZE] at hle
      omega
    obtain ⟨d, hd⟩ : ∃ d, d = grownTo (s₁.inode ip).d (off + n) := ⟨_, rfl⟩
    have hsize : d.size.toNat = max (s.inode ip).d.size.toNat (off + n) := by
      rw [hd, grownTo_size _ h32, hsize₁]
    obtain ⟨type, major, minor, nlink⟩ := grownTo_fields (s₁.inode ip).d (off + n)
    rw [← hd] at type major minor nlink
    have refs : ∀ (W : Image) k, W.ref d k = W.ref (s₁.inode ip).d k := by
      refine fun W => Image.ref_congr fun k _ => ?_
      rw [hd, grownTo_addr]
    have mapped : ∀ bn, bn * BSIZE < d.size.toNat → V₁.ref d (Image.dataRef bn) ≠ 0 := by
      intro bn hbn
      rw [refs, ← hD₁]
      by_cases hold : bn * BSIZE < (s.inode ip).d.size.toNat
      · rw [← h.loaded hl] at hold
        exact w.refs _ (Image.dataRef_lt (h.ok.laid.index_lt hi hold)) (h.ok.laid.full _ hi bn hold)
      · refine w.mapped hok (by omega) bn ?_ (by omega)
        simp only [BSIZE] at *
        omega
    have set : s₁.setInode ip (if (s₁.inode ip).d.size.toNat < off + n
        then { s₁.inode ip with d := { (s₁.inode ip).d with size := BitVec.ofNat 32 (off + n) } }
        else s₁.inode ip) = s₁.setInode ip { s₁.inode ip with d := d } := by
      rw [hd, grownTo]
      split <;> rfl
    refine .modify ?_
    rw [set]
    have same₂ := w.same.trans (setInode_same s₁ ip d)
    have blk₂ : At 1 [] l₁ V₁ (s₁.setInode ip { s₁.inode ip with d := d }) :=
      w.at'.blk.congr rfl rfl
    obtain ⟨k₁, fits₁, le₁⟩ := w.quota hok
    refine .call (iupdate_sat blk₂ ?_ ?_ (known_low w.at'.ok.laid) fits₁ ?_
      (room.imp (fun _ => by omega) id) (Nat.zero_le _)) ?_
    · rw [same₂.dev]
      exact h.dev hl
    · rw [same₂.inum]
      exact hi.2.1
    · rwa [same₂.inum]
    rintro _ s₃ ⟨l₃, h₃, fits₃, -, only₃, falls₃⟩
    obtain ⟨ok₃, nodes₃⟩ := w.at'.ok.iupdate (d := d) hl₁.live hl₁.valid type
      (fun k _ _ => refs V₁ k) (by rw [hsize]; have := h.size_le hl; omega) mapped
    rw [setInode_self] at h₃
    dsimp only at h₃
    rw [hin₁] at h₃ ok₃ nodes₃
    refine .pure (Or.inr ⟨inRange, _, _, l₃, ⟨h₃, by rw [only₃.inode]; exact ok₃⟩,
      same₂.trans only₃.same, fun j hj => ?_, w.apart.trans fun j hj hne => ⟨?_, fun k => ?_⟩,
      fun p a hp hdiv hn both => Or.inl ?_, fun p a out hp both => ?_,
      Or.inl ⟨?_, fits₃.mono (by omega), ?_⟩⟩)
    · rw [nodes₃, Function.update_of_ne hj, w.others j hj]
    · exact Function.update_of_ne hne ..
    · rw [Function.update_of_ne hne]
      exact w.at'.ok.laid.ref_of_high hj (fun c hc => Image.putDino_of_high hi.2.1 (Nat.le_of_lt hc)) k
    · rw [nodes₃, Function.update_self]
      change V₁.byteAt d p = _
      rw [Image.byteAt, if_pos (by omega), Image.rawByte, refs, ← hD₁]
      rcases w.tail hn p a hp hdiv (within p (by omega)).2 both with byte | ⟨bad, -⟩
      · exact byte
      · exact absurd (hok.symm.trans bad) (by decide)
    · obtain ⟨hbn, hr⟩ := within p (by rwa [h.loaded hl])
      have kept := w.keeps p a out hbn hr both
      have hr₁ := w.refs _ (Image.dataRef_lt hbn) hr
      have own := w.at'.ok.laid.own _ hi₁ _ (Image.dataRef_lt hbn) hr₁
      refine kept.fall ?_ (falls₃ _ own.1)
      rw [Function.update_self, refs, ← hD₁]
      exact w.at'.ok.laid.ref_of_high hi₁
        (fun c hc => Image.putDino_of_high hi.2.1 (Nat.le_of_lt hc)) _
    · refine i32_of_small ?_
      simp only [MAXFILE, NDIRECT, NINDIRECT, BSIZE] at hle
      omega
    · rw [nodes₃, Function.update_self, nodes_of_alloc hi]
      refine ⟨?_, ?_, ?_, ?_, ?_, fun p hp => ?_, fun q a hq ha => ?_⟩
      · exact type.trans (hD₁ ▸ w.fields.type)
      · exact major.trans (hD₁ ▸ w.fields.major)
      · exact minor.trans (hD₁ ▸ w.fields.minor)
      · exact nlink.trans (hD₁ ▸ w.fields.nlink)
      · change d.size.toNat = max (D (s.inode ip).inum).size.toNat (off + n)
        rw [hsize, h.loaded hl]
      · change V₁.byteAt d (off + p) = _
        rw [Image.byteAt, if_pos (by omega), Image.rawByte, refs, ← hD₁]
        exact w.new hok p (Nat.zero_le p) hp
      · change V₁.byteAt d q = _
        change V.byteAt (D (s.inode ip).inum) q = some a at ha
        unfold Image.byteAt at ha
        split at ha
        next hlt =>
          obtain ⟨hbn, hr⟩ := within q hlt
          rw [h.loaded hl] at hlt
          rw [Image.byteAt, if_pos (by omega), Image.rawByte, refs, ← hD₁]
          exact w.old hok q a hbn hr hq ha
        next => cases ha
  · have hn : 0 < n := by
      by_contra hn
      have := w.fails (by simpa using hfail)
      omega
    have size₁ : (D₁ (s.inode ip).inum).size = (D (s.inode ip).inum).size := w.fields.size
    refine .pure (Or.inr ⟨inRange, V₁, D₁, l₁, w.at', w.same, w.others,
      w.apart, fun p a hp hdiv hn both => ?_, fun p a out hp both => ?_,
      Or.inr ⟨rfl, fun hread => hfail (readable hread), hn, ?_⟩⟩)
    · rcases w.tail hn p a hp hdiv (within p (by omega)).2 both with byte | ⟨-, both'⟩
      · refine Or.inl ?_
        rw [nodes_of_alloc hi₁]
        change V₁.byteAt (D₁ (s.inode ip).inum) p = _
        rw [Image.byteAt, if_pos (by rw [size₁]; omega), byte]
      · exact Or.inr ⟨rfl, both'⟩
    · obtain ⟨hbn, hr⟩ := within p (by rwa [h.loaded hl])
      exact w.keeps p a out hbn hr both
    · rw [nodes_of_alloc hi, nodes_of_alloc hi₁]
      refine ⟨w.fields.type, w.fields.major, w.fields.minor, w.fields.nlink,
        congrArg BitVec.toNat w.fields.size, fun q a hq ha => ?_⟩
      change V.byteAt (D (s.inode ip).inum) q = some a at ha
      change V₁.byteAt (D₁ (s.inode ip).inum) q = some a
      unfold Image.byteAt at ha ⊢
      split at ha
      next hlt =>
        rw [if_pos (by rwa [size₁])]
        exact w.early q a hq (within q hlt).1 (within q hlt).2 ha
      next => cases ha

end EasyXv6.Fs.Vol
