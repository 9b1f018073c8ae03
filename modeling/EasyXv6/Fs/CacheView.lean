import EasyXv6.Fs.Bio

set_option autoImplicit false

/-!
# What the buffer cache shows

`view` is the contents of each block as the kernel sees it. `Inv J held p` says that the buffers
in `held` are in use (once for each occurrence), that the blocks in `p` are pinned, and that every
other cached block outside `J` agrees with the disk.
-/
namespace EasyXv6.Fs.Bio
open Lib

def holder (s : Bio) (b : ℕ) : Option (Fin NBUF) := (List.finRange NBUF).find? (s.Holds · b)

def view (s : Bio) (b : ℕ) : Block :=
  match s.holder b with
  | some i => (s.buf i).data
  | none => s.disk b

structure Inv (J : Set ℕ) (held : List (Fin NBUF)) (p : List ℕ) (s : Bio) : Prop where
  wf : s.WF
  refs : ∀ i, (s.buf i).refcnt =
    held.count i + if (s.buf i).dev = ROOTDEV ∧ (s.buf i).blockno ∈ p then 1 else 0
  cached : ∀ b ∈ p, ∃ i, s.Holds i b
  clean : ∀ i b, s.Holds i b → b ∉ p → b ∉ J → (s.buf i).data = s.disk b

section View

variable {s s' : Bio} {i : Fin NBUF} {b : ℕ}

theorem WF.view_of_holds (wf : s.WF) (h : s.Holds i b) : s.view b = (s.buf i).data := by
  unfold view
  cases hf : s.holder b with
  | none =>
    have := List.find?_eq_none.mp hf i (List.mem_finRange i)
    simp [h] at this
  | some j =>
    have hj : s.Holds j b := by simpa using List.find?_some hf
    rw [wf.unique j i b hj h]

theorem view_of_not_holds (h : ∀ i, ¬ s.Holds i b) : s.view b = s.disk b := by
  unfold view
  cases hf : s.holder b with
  | none => rfl
  | some j => exact absurd (by simpa using List.find?_some hf) (h j)

/-- The view depends only on the buffers and the disk. -/
theorem view_congr (hb : s'.buf = s.buf) (hd : s'.disk = s.disk) : s'.view b = s.view b := by
  obtain ⟨d, w, f, l⟩ := s
  obtain ⟨d', w', f', l'⟩ := s'
  dsimp only at hb hd
  subst hb hd
  rfl

/-- Changing a buffer of another block, without changing its identity, does not show. -/
theorem WF.view_modBuf_of_ne (wf : s.WF) {c : ℕ} (h : s.Holds i b) (hc : c ≠ b) (f : Buf → Buf)
    (hf : ∀ x, (f x).dev = x.dev ∧ (f x).blockno = x.blockno ∧ (f x).valid = x.valid) :
    (s.modBuf i f).view c = s.view c := by
  have wf' := wf.modBuf h f hf
  by_cases hh : ∃ j, s.Holds j c
  · obtain ⟨j, hj⟩ := hh
    have ji : j ≠ i := by
      rintro rfl
      exact hc (hj.2.symm.trans h.2)
    have hj' : (s.modBuf i f).Holds j c := by
      unfold Holds
      rw [modBuf_buf_of_ne _ _ ji]
      exact hj
    rw [wf.view_of_holds hj, wf'.view_of_holds hj', modBuf_buf_of_ne _ _ ji]
  · rw [not_exists] at hh
    rw [view_of_not_holds hh, view_of_not_holds, modBuf_disk]
    intro j hj
    by_cases ji : j = i
    · subst ji
      unfold Holds at hj
      rw [modBuf_buf_self, (hf _).1, (hf _).2.1] at hj
      exact hh j hj
    · unfold Holds at hj
      rw [modBuf_buf_of_ne _ _ ji] at hj
      exact hh j hj

theorem holds_modBuf (f : Buf → Buf)
    (hf : ∀ x, (f x).dev = x.dev ∧ (f x).blockno = x.blockno) (j : Fin NBUF) (c : ℕ) :
    (s.modBuf i f).Holds j c ↔ s.Holds j c := by
  unfold Holds
  by_cases hj : j = i
  · subst hj
    rw [modBuf_buf_self, (hf _).1, (hf _).2]
  · rw [modBuf_buf_of_ne _ _ hj]

theorem WF.view_modBuf_self (wf : s.WF) (h : s.Holds i b) (f : Buf → Buf)
    (hf : ∀ x, (f x).dev = x.dev ∧ (f x).blockno = x.blockno ∧ (f x).valid = x.valid) :
    (s.modBuf i f).view b = (f (s.buf i)).data := by
  have h' : (s.modBuf i f).Holds i b := (holds_modBuf f (fun x => ⟨(hf x).1, (hf x).2.1⟩) i b).mpr h
  rw [(wf.modBuf h f hf).view_of_holds h', modBuf_buf_self]

/-- Changing only the reference count of a buffer does not show. -/
theorem WF.view_modBuf_refcnt (wf : s.WF) (h : s.Holds i b) (g : ℕ → ℕ) (c : ℕ) :
    (s.modBuf i (fun x => { x with refcnt := g x.refcnt })).view c = s.view c := by
  by_cases hc : c = b
  · subst hc
    rw [wf.view_modBuf_self h (fun x => { x with refcnt := g x.refcnt }) (fun _ => ⟨rfl, rfl, rfl⟩),
      wf.view_of_holds h]
  · exact wf.view_modBuf_of_ne h hc _ (fun _ => ⟨rfl, rfl, rfl⟩)

end View

section Inv

variable {J : Set ℕ} {held : List (Fin NBUF)} {p : List ℕ} {s s' : Bio} {i : Fin NBUF} {b : ℕ}

theorem bioInit_Inv (disk : ℕ → Block) : (bioInit disk).Inv ∅ [] [] where
  wf := bioInit_WF disk
  refs := fun _ => by simp [bioInit]
  cached := by simp
  clean := fun i b h => by simp [Holds, bioInit] at h

theorem Inv.mono {K : Set ℕ} (h : s.Inv J held p) (hJ : J ⊆ K) : s.Inv K held p :=
  ⟨h.wf, h.refs, h.cached, fun i b hb hp hK => h.clean i b hb hp (fun hj => hK (hJ hj))⟩

theorem Inv.perm {held' : List (Fin NBUF)} (h : s.Inv J held p) (hp : held.Perm held') :
    s.Inv J held' p :=
  ⟨h.wf, fun i => by rw [h.refs i, hp.count_eq], h.cached, h.clean⟩

/-- A block that is neither pinned nor in `J` shows what is on the disk. -/
theorem Inv.view_of_clean (h : s.Inv J held p) (hp : b ∉ p) (hJ : b ∉ J) : s.view b = s.disk b := by
  by_cases hh : ∃ j, s.Holds j b
  · obtain ⟨j, hj⟩ := hh
    rw [h.wf.view_of_holds hj, h.clean j b hj hp hJ]
  · exact view_of_not_holds (not_exists.mp hh)

theorem Inv.refcnt_pos (h : s.Inv J held p) (hi : i ∈ held) : 0 < (s.buf i).refcnt := by
  rw [h.refs i]
  have := List.count_pos_iff.mpr hi
  omega

theorem Inv.holds_of_mem (h : s.Inv J held p) (hi : i ∈ held) : s.Holds i (s.buf i).blockno :=
  h.wf.holds_of_refcnt (h.refcnt_pos hi)

/-- As long as fewer than `NBUF` references are in use, some buffer is unreferenced. -/
theorem Inv.exists_unreferenced (h : s.Inv J held p) (room : held.length + p.length < NBUF) :
    ∃ j, (s.buf j).refcnt = 0 := by
  by_contra hn
  rw [not_exists] at hn
  let pinned : Finset (Fin NBUF) :=
    Finset.univ.filter fun j => (s.buf j).dev = ROOTDEV ∧ (s.buf j).blockno ∈ p
  have cover : (Finset.univ : Finset (Fin NBUF)) ⊆ held.toFinset ∪ pinned := by
    intro j _
    have hj := hn j
    rw [h.refs j] at hj
    simp only [Finset.mem_union, List.mem_toFinset, pinned, Finset.mem_filter, Finset.mem_univ,
      true_and]
    by_cases hm : j ∈ held
    · exact Or.inl hm
    · rw [List.count_eq_zero_of_not_mem hm] at hj
      exact Or.inr (by simpa using hj)
  have small : pinned.card ≤ p.toFinset.card := by
    apply Finset.card_le_card_of_injOn (fun j => (s.buf j).blockno)
    · intro j hj
      simp only [pinned, Finset.coe_filter, Finset.mem_univ, true_and, Set.mem_ofPred_eq] at hj
      simpa using hj.2
    · intro j hj k hk e
      simp only [pinned, Finset.coe_filter, Finset.mem_univ, true_and, Set.mem_ofPred_eq] at hj hk
      exact h.wf.unique j k _ ⟨hj.1, rfl⟩ ⟨hk.1, e.symm⟩
  have c1 := Finset.card_le_card cover
  have c2 := Finset.card_union_le held.toFinset pinned
  have c3 := List.toFinset_card_le held
  have c4 := List.toFinset_card_le p
  have c5 : (Finset.univ : Finset (Fin NBUF)).card = NBUF := Finset.card_univ.trans (Fintype.card_fin NBUF)
  omega

theorem Inv.bread_returns (h : s.Inv J held p) (hb : b < FSSIZE)
    (room : b ∈ p ∨ held.length + p.length < NBUF) : ∃ i s', (bread ROOTDEV b).run s = .ok i s' := by
  apply Bio.bread_returns h.wf hb
  rcases room with hp | hr
  · exact Or.inl (h.cached b hp)
  · exact Or.inr (h.exists_unreferenced hr)

/-- What `bread` leaves: the block is held once more and shows the same contents; nothing else
    shows a change, except that blocks in `J` may fall back to the disk. -/
structure BreadPost (J : Set ℕ) (held : List (Fin NBUF)) (p : List ℕ) (s : Bio) (b : ℕ)
    (i : Fin NBUF) (s' : Bio) : Prop where
  inv : s'.Inv J (i :: held) p
  lt : b < FSSIZE
  holds : s'.Holds i b
  disk : s'.disk = s.disk
  issued : s'.issued = s.issued
  data : (s'.buf i).data = s.view b
  others : ∀ j ∈ held, (s'.buf j).data = (s.buf j).data ∧ ∀ c, s.Holds j c → s'.Holds j c
  view : ∀ c, (c ∉ J ∨ c = b) → s'.view c = s.view c
  fall : ∀ c, s'.view c = s.view c ∨ s'.view c = s.disk c

theorem Inv.bread (h : s.Inv J held p) (hr : (bread ROOTDEV b).run s = .ok i s') :
    BreadPost J held p s b i s' := by
  have wf' := bread_WF h.wf hr
  have holds' := bread_holds h.wf hr
  obtain ⟨hb, ⟨hh, rfl⟩ | ⟨hn, h0, rfl⟩⟩ := bread_cases h.wf hr
  · have keep := holds_modBuf (s := s) (i := i) (fun c => { c with refcnt := c.refcnt + 1 })
      (fun _ => ⟨rfl, rfl⟩)
    refine ⟨⟨wf', ?_, ?_, ?_⟩, hb, holds', rfl, rfl, ?_, ?_, ?_, fun c =>
      Or.inl (h.wf.view_modBuf_refcnt hh _ c)⟩
    · intro j
      by_cases hj : j = i
      · subst hj
        rw [modBuf_buf_self, List.count_cons_self]
        have := h.refs j
        dsimp only
        omega
      · rw [modBuf_buf_of_ne _ _ hj, List.count_cons_of_ne (Ne.symm hj)]
        exact h.refs j
    · intro c hc
      obtain ⟨j, hj⟩ := h.cached c hc
      exact ⟨j, (keep j c).mpr hj⟩
    · intro j c hj hp hJ
      have old := h.clean j c ((keep j c).mp hj) hp hJ
      by_cases hji : j = i
      · subst hji
        rwa [modBuf_buf_self]
      · rwa [modBuf_buf_of_ne _ _ hji]
    · rw [modBuf_buf_self, h.wf.view_of_holds hh]
    · intro j _
      refine ⟨?_, fun c hc => (keep j c).mpr hc⟩
      by_cases hji : j = i
      · subst hji
        rw [modBuf_buf_self]
      · rw [modBuf_buf_of_ne _ _ hji]
    · intro c _
      exact h.wf.view_modBuf_refcnt hh _ c
  · -- the buffer is unreferenced: it is not held, and its old block is not pinned
    have hi : i ∉ held := fun hm => absurd (h.refcnt_pos hm) (by omega)
    have hpin : ∀ c, s.Holds i c → c ∉ p := by
      intro c hc hp
      have := h.refs i
      rw [h0, if_pos ⟨hc.1, hc.2 ▸ hp⟩] at this
      omega
    have hbp : b ∉ p := by
      intro hp
      obtain ⟨j, hj⟩ := h.cached b hp
      exact hn j hj
    have other : ∀ j c, j ≠ i → ((s.modBuf i (fun _ => ⟨true, ROOTDEV, b, 1, s.disk b⟩)).Holds j c ↔
        s.Holds j c) := by
      intro j c hj
      unfold Holds
      rw [modBuf_buf_of_ne _ _ hj]
    refine ⟨⟨wf', ?_, ?_, ?_⟩, hb, holds', rfl, rfl, ?_, ?_, ?_, ?_⟩
    · intro j
      by_cases hj : j = i
      · subst hj
        rw [modBuf_buf_self, List.count_cons_self, List.count_eq_zero_of_not_mem hi]
        simp [hbp]
      · rw [modBuf_buf_of_ne _ _ hj, List.count_cons_of_ne (Ne.symm hj)]
        exact h.refs j
    · intro c hc
      obtain ⟨j, hj⟩ := h.cached c hc
      have hji : j ≠ i := by
        rintro rfl
        exact hpin c hj hc
      exact ⟨j, (other j c hji).mpr hj⟩
    · intro j c hj hp hJ
      by_cases hji : j = i
      · subst hji
        rw [modBuf_buf_self]
        rw [show c = b from hj.2.symm.trans (by rw [modBuf_buf_self])]
        rfl
      · rw [modBuf_buf_of_ne _ _ hji]
        exact h.clean j c ((other j c hji).mp hj) hp hJ
    · rw [modBuf_buf_self, view_of_not_holds hn]
    · intro j hj
      have hji : j ≠ i := by
        rintro rfl
        exact hi hj
      exact ⟨by rw [modBuf_buf_of_ne _ _ hji], fun c hc => (other j c hji).mpr hc⟩
    · intro c hc
      by_cases hcb : c = b
      · subst hcb
        rw [wf'.view_of_holds holds', modBuf_buf_self, view_of_not_holds hn]
      · have hJ : c ∉ J := hc.resolve_right hcb
        by_cases hh : ∃ j, j ≠ i ∧ s.Holds j c
        · obtain ⟨j, hji, hj⟩ := hh
          rw [h.wf.view_of_holds hj, wf'.view_of_holds ((other j c hji).mpr hj),
            modBuf_buf_of_ne _ _ hji]
        · have gone : ∀ j, ¬ (s.modBuf i (fun _ => ⟨true, ROOTDEV, b, 1, s.disk b⟩)).Holds j c := by
            intro j hj
            by_cases hji : j = i
            · subst hji
              exact hcb (hj.2.symm.trans (by rw [modBuf_buf_self]))
            · exact hh ⟨j, hji, (other j c hji).mp hj⟩
          rw [view_of_not_holds gone]
          by_cases hic : s.Holds i c
          · exact (h.view_of_clean (hpin c hic) hJ).symm
          · rw [view_of_not_holds, modBuf_disk]
            intro j hj
            by_cases hji : j = i
            · exact hic (hji ▸ hj)
            · exact hh ⟨j, hji, hj⟩
    · intro c
      by_cases hh : ∃ j, j ≠ i ∧ s.Holds j c
      · obtain ⟨j, hji, hj⟩ := hh
        left
        rw [h.wf.view_of_holds hj, wf'.view_of_holds ((other j c hji).mpr hj), modBuf_buf_of_ne _ _ hji]
      · right
        by_cases hcb : c = b
        · rw [hcb, wf'.view_of_holds holds', modBuf_buf_self]
        · refine view_of_not_holds fun j hj => ?_
          by_cases hji : j = i
          · subst hji
            exact hcb (hj.2.symm.trans (by rw [modBuf_buf_self]))
          · exact hh ⟨j, hji, (other j c hji).mp hj⟩

theorem Inv.brelse_returns (h : s.Inv J held p) (hi : i ∈ held) :
    ∃ s', (brelse i).run s = .ok () s' :=
  Bio.brelse_returns (h.refcnt_pos hi)

/-- What `brelse`, `bpin` and `bunpin` leave unchanged. -/
structure Same (s s' : Bio) : Prop where
  disk : s'.disk = s.disk
  issued : s'.issued = s.issued
  holds : ∀ j c, s'.Holds j c ↔ s.Holds j c
  data : ∀ j, (s'.buf j).data = (s.buf j).data
  view : ∀ c, s'.view c = s.view c

theorem Inv.brelse (h : s.Inv J held p) (hi : i ∈ held) (hr : (brelse i).run s = .ok () s') :
    s'.Inv J (held.erase i) p ∧ Same s s' := by
  have wf' := brelse_WF h.wf hr
  obtain ⟨hpos, hd, hiss, hb, _⟩ := brelse_cases hr
  have hh := h.holds_of_mem hi
  have keep : ∀ j c, s'.Holds j c ↔ s.Holds j c := by
    intro j c
    rw [← holds_modBuf (s := s) (i := i) (fun c => { c with refcnt := c.refcnt - 1 })
      (fun _ => ⟨rfl, rfl⟩) j c]
    unfold Holds
    rw [hb]
  have hdata : ∀ j, (s'.buf j).data = (s.buf j).data := by
    intro j
    rw [hb]
    by_cases hj : j = i
    · subst hj
      rw [modBuf_buf_self]
    · rw [modBuf_buf_of_ne _ _ hj]
  refine ⟨⟨wf', ?_, ?_, ?_⟩, hd, hiss, keep, hdata, ?_⟩
  · intro j
    rw [hb]
    have old := h.refs j
    by_cases hj : j = i
    · subst hj
      rw [modBuf_buf_self, List.count_erase_self]
      have := List.count_pos_iff.mpr hi
      dsimp only
      omega
    · rw [modBuf_buf_of_ne _ _ hj, List.count_erase_of_ne hj]
      exact old
  · intro c hc
    obtain ⟨j, hj⟩ := h.cached c hc
    exact ⟨j, (keep j c).mpr hj⟩
  · intro j c hj hp hJ
    rw [hdata, hd]
    exact h.clean j c ((keep j c).mp hj) hp hJ
  · intro c
    rw [← h.wf.view_modBuf_refcnt hh (fun n => n - 1) c]
    exact view_congr hb hd

/-- A change of the contents of a held buffer shows at its block, which joins `J` unless it is
    pinned. -/
theorem Inv.setData (h : s.Inv J held p) (hi : i ∈ held) (hb : s.Holds i b) (f : Block → Block)
    (s' : Bio) (hs : s' = s.modBuf i (fun c => { c with data := f c.data })) :
    s'.Inv (if b ∈ p then J else insert b J) held p ∧ s'.disk = s.disk ∧ s'.issued = s.issued ∧
      (∀ j c, s'.Holds j c ↔ s.Holds j c) ∧ (s'.buf i).data = f (s.view b) ∧
      (∀ j, j ≠ i → (s'.buf j).data = (s.buf j).data) ∧
      s'.view = Function.update s.view b (f (s.view b)) := by
  subst hs
  have keep := holds_modBuf (s := s) (i := i) (fun c => { c with data := f c.data })
    (fun _ => ⟨rfl, rfl⟩)
  have hdata : ((s.modBuf i (fun c => { c with data := f c.data })).buf i).data = f (s.view b) := by
    rw [modBuf_buf_self, h.wf.view_of_holds hb]
  refine ⟨⟨h.wf.modBuf hb _ (fun _ => ⟨rfl, rfl, rfl⟩), ?_, ?_, ?_⟩, rfl, rfl, keep, hdata, ?_, ?_⟩
  · intro j
    by_cases hj : j = i
    · subst hj
      rw [modBuf_buf_self]
      exact h.refs j
    · rw [modBuf_buf_of_ne _ _ hj]
      exact h.refs j
  · intro c hc
    obtain ⟨j, hj⟩ := h.cached c hc
    exact ⟨j, (keep j c).mpr hj⟩
  · intro j c hj hp hJ
    have hj' := (keep j c).mp hj
    by_cases hji : j = i
    · subst hji
      have hcb : c = b := hj'.2.symm.trans hb.2
      subst hcb
      rw [if_neg hp] at hJ
      exact absurd (Set.mem_insert _ _) hJ
    · rw [modBuf_buf_of_ne _ _ hji]
      apply h.clean j c hj' hp
      split at hJ
      · exact hJ
      · exact fun hm => hJ (Set.mem_insert_of_mem _ hm)
  · intro j hj
    rw [modBuf_buf_of_ne _ _ hj]
  · funext c
    by_cases hc : c = b
    · subst hc
      rw [Function.update_self, h.wf.view_modBuf_self hb (fun x => { x with data := f x.data })
        (fun _ => ⟨rfl, rfl, rfl⟩), h.wf.view_of_holds hb]
    · rw [Function.update_of_ne hc]
      exact h.wf.view_modBuf_of_ne hb hc _ (fun _ => ⟨rfl, rfl, rfl⟩)

theorem Inv.bwrite_returns (h : s.Inv J held p) (hi : i ∈ held) :
    ∃ s', (bwrite i).run s = .ok () s' :=
  Bio.bwrite_returns (h.refcnt_pos hi)

/-- Writing a held buffer makes its block agree with the disk. -/
theorem Inv.bwrite (h : s.Inv J held p) (hb : s.Holds i b) (hr : (bwrite i).run s = .ok () s') :
    s'.Inv (J \ {b}) held p ∧ s'.disk = Function.update s.disk b (s.view b) ∧
      s'.issued = s.issued ++ [(b, s.view b)] ∧ s'.buf = s.buf ∧ s'.view = s.view := by
  have hs := bwrite_cases hr
  rw [hb.2, ← h.wf.view_of_holds hb] at hs
  subst hs
  refine ⟨⟨⟨h.wf.lru_nodup, h.wf.lru_all, h.wf.used, h.wf.unique⟩, h.refs, h.cached, ?_⟩,
    rfl, rfl, rfl, ?_⟩
  · intro j c hj hp hJ
    dsimp only
    by_cases hc : c = b
    · subst hc
      rw [Function.update_self, h.wf.view_of_holds hj]
    · rw [Function.update_of_ne hc]
      exact h.clean j c hj hp (fun hm => hJ ⟨hm, hc⟩)
  · funext c
    by_cases hh : ∃ j, s.Holds j c
    · obtain ⟨j, hj⟩ := hh
      have wf' : Bio.WF { s with
          disk := Function.update s.disk b (s.view b)
          issued := s.issued ++ [(b, s.view b)] } :=
        ⟨h.wf.lru_nodup, h.wf.lru_all, h.wf.used, h.wf.unique⟩
      rw [h.wf.view_of_holds hj]
      exact wf'.view_of_holds hj
    · rw [not_exists] at hh
      rw [view_of_not_holds hh, view_of_not_holds (s := { s with
          disk := Function.update s.disk b (s.view b)
          issued := s.issued ++ [(b, s.view b)] }) hh]
      have hc : c ≠ b := by
        rintro rfl
        exact hh i hb
      exact Function.update_of_ne hc ..

theorem Inv.bpin (h : s.Inv J held p) (hb : s.Holds i b) (hp : b ∉ p) (s' : Bio)
    (hs : s' = s.modBuf i (fun c => { c with refcnt := c.refcnt + 1 })) :
    s'.Inv (J \ {b}) held (p ++ [b]) ∧ Same s s' := by
  subst hs
  have keep := holds_modBuf (s := s) (i := i) (fun c => { c with refcnt := c.refcnt + 1 })
    (fun _ => ⟨rfl, rfl⟩)
  have hdata : ∀ j, ((s.modBuf i (fun c => { c with refcnt := c.refcnt + 1 })).buf j).data =
      (s.buf j).data := by
    intro j
    by_cases hj : j = i
    · subst hj
      rw [modBuf_buf_self]
    · rw [modBuf_buf_of_ne _ _ hj]
  refine ⟨⟨h.wf.modBuf hb _ (fun _ => ⟨rfl, rfl, rfl⟩), ?_, ?_, ?_⟩, rfl, rfl, keep, hdata,
    h.wf.view_modBuf_refcnt hb (fun n => n + 1)⟩
  · intro j
    have old := h.refs j
    by_cases hj : j = i
    · subst hj
      rw [modBuf_buf_self]
      have h1 : ¬ ((s.buf j).dev = ROOTDEV ∧ (s.buf j).blockno ∈ p) := fun hm => hp (hb.2 ▸ hm.2)
      rw [if_neg h1] at old
      rw [if_pos ⟨hb.1, by simp [hb.2]⟩]
      dsimp only
      omega
    · rw [modBuf_buf_of_ne _ _ hj, old]
      congr 1
      apply if_congr _ rfl rfl
      have hne : (s.buf j).dev = ROOTDEV → (s.buf j).blockno ≠ b :=
        fun hd hn => hj (h.wf.unique j i b ⟨hd, hn⟩ hb)
      constructor
      · rintro ⟨hd, hm⟩
        exact ⟨hd, List.mem_append_left _ hm⟩
      · rintro ⟨hd, hm⟩
        refine ⟨hd, ?_⟩
        rcases List.mem_append.mp hm with hm | hm
        · exact hm
        · exact absurd (List.mem_singleton.mp hm) (hne hd)
  · intro c hc
    rcases List.mem_append.mp hc with hc | hc
    · obtain ⟨j, hj⟩ := h.cached c hc
      exact ⟨j, (keep j c).mpr hj⟩
    · rw [List.mem_singleton.mp hc]
      exact ⟨i, (keep i b).mpr hb⟩
  · intro j c hj hp' hJ
    simp only [List.mem_append, List.mem_singleton, not_or] at hp'
    rw [hdata]
    exact h.clean j c ((keep j c).mp hj) hp'.1 (fun hm => hJ ⟨hm, hp'.2⟩)

/-- Unpinning a block whose buffer agrees with the disk. -/
theorem Inv.bunpin (h : s.Inv J held (b :: p)) (hb : s.Holds i b) (hp : b ∉ p)
    (hd : (s.buf i).data = s.disk b) (s' : Bio)
    (hs : s' = s.modBuf i (fun c => { c with refcnt := c.refcnt - 1 })) :
    s'.Inv J held p ∧ Same s s' := by
  subst hs
  have keep := holds_modBuf (s := s) (i := i) (fun c => { c with refcnt := c.refcnt - 1 })
    (fun _ => ⟨rfl, rfl⟩)
  have hdata : ∀ j, ((s.modBuf i (fun c => { c with refcnt := c.refcnt - 1 })).buf j).data =
      (s.buf j).data := by
    intro j
    by_cases hj : j = i
    · subst hj
      rw [modBuf_buf_self]
    · rw [modBuf_buf_of_ne _ _ hj]
  refine ⟨⟨h.wf.modBuf hb _ (fun _ => ⟨rfl, rfl, rfl⟩), ?_, ?_, ?_⟩, rfl, rfl, keep, hdata,
    h.wf.view_modBuf_refcnt hb (fun n => n - 1)⟩
  · intro j
    have old := h.refs j
    by_cases hj : j = i
    · subst hj
      rw [modBuf_buf_self]
      rw [if_pos ⟨hb.1, by simp [hb.2]⟩] at old
      have h1 : ¬ ((s.buf j).dev = ROOTDEV ∧ (s.buf j).blockno ∈ p) := fun hm => hp (hb.2 ▸ hm.2)
      rw [if_neg h1]
      dsimp only
      omega
    · rw [modBuf_buf_of_ne _ _ hj, old]
      congr 1
      apply if_congr _ rfl rfl
      have hne : (s.buf j).dev = ROOTDEV → (s.buf j).blockno ≠ b :=
        fun hd hn => hj (h.wf.unique j i b ⟨hd, hn⟩ hb)
      constructor
      · rintro ⟨hd, hm⟩
        exact ⟨hd, (List.mem_cons.mp hm).resolve_left (hne hd)⟩
      · rintro ⟨hd, hm⟩
        exact ⟨hd, List.mem_cons_of_mem _ hm⟩
  · intro c hc
    obtain ⟨j, hj⟩ := h.cached c (List.mem_cons_of_mem _ hc)
    exact ⟨j, (keep j c).mpr hj⟩
  · intro j c hj hp' hJ
    have hj' := (keep j c).mp hj
    rw [hdata]
    by_cases hc : c = b
    · subst hc
      rw [h.wf.unique j i c hj' hb]
      exact hd
    · exact h.clean j c hj' (by simp [hc, hp']) hJ

end Inv

end EasyXv6.Fs.Bio
