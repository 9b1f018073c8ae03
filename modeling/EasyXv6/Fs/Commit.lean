import EasyXv6.Fs.LogView

set_option autoImplicit false

/-!
# Commit and recovery

Each round of `write_log`, `write_head` and `install_trans` issues one block write. The lemmas
state that write, and that the functions return.
-/
namespace EasyXv6.Fs.Log
open Lib Blk

/-- One block write: its effect on the disk, the device trace and the log area, with everything
    else outside `J` unchanged. -/
structure Writes1 (J : Set ℕ) (b : ℕ) (d : Block) (s s' : Blk) : Prop where
  ctx : s'.ctx = s.ctx
  disk : s'.bio.disk = Function.update s.bio.disk b d
  issued : s'.bio.issued = s.bio.issued ++ [(b, d)]
  self : s'.bio.view b = d
  view : ∀ c, c ≠ b → c ∉ J → s'.bio.view c = s.bio.view c
  fall : ∀ c, c ≠ b → s'.bio.view c = s.bio.view c ∨ s'.bio.view c = s.bio.disk c

/-- Block `c` has not been written; a change of its buffer may have been lost. -/
structure Falls (c : ℕ) (s s' : Blk) : Prop where
  view : s'.bio.view c = s.bio.view c ∨ s'.bio.view c = s.bio.disk c
  disk : s'.bio.disk c = s.bio.disk c

theorem Falls.refl (c : ℕ) (s : Blk) : Falls c s s := ⟨Or.inl rfl, rfl⟩

theorem Falls.trans {c : ℕ} {s t u : Blk} (h : Falls c s t) (h' : Falls c t u) : Falls c s u := by
  refine ⟨?_, h'.disk.trans h.disk⟩
  rcases h'.view with e | e
  · rw [e]
    exact h.view
  · rw [e, h.disk]
    exact Or.inr rfl

theorem Writes1.falls {J : Set ℕ} {b c : ℕ} {d : Block} {s s' : Blk} (h : Writes1 J b d s s')
    (hc : c ≠ b) : Falls c s s' := by
  refine ⟨h.fall c hc, ?_⟩
  rw [h.disk, Function.update_of_ne hc]

section Rounds

variable {J : Set ℕ} {l p q : List ℕ} {s : Blk} {k : ℕ}

/-- What two reads leave of the contents that a block shows. -/
theorem breads_fall {held held' : List (Fin NBUF)} {p' : List ℕ} {a b c : ℕ} {i j : Fin NBUF}
    {s t u : Bio} (h : Bio.BreadPost J held p s a i t) (h' : Bio.BreadPost J held' p' t b j u) :
    u.view c = s.view c ∨ u.view c = s.disk c := by
  rcases h'.fall c with e | e
  · rw [e]
    exact h.fall c
  · rw [e, h.disk]
    exact Or.inr rfl

theorem writeHead_returns (hb : s.bio.Inv J [] p) (hc : CtxIs l s.ctx) (room : p.length < NBUF)
    (hp : 2 ∉ p) (hJ : 2 ∉ J) :
    ∃ s', writeHead.run s = .ok () s' ∧ s'.bio.Inv J [] p ∧
      Writes1 J 2 ((s.bio.disk 2).putHeader s.ctx.lh) s s' := by
  obtain ⟨i, t1, h1⟩ := hb.bread_returns (b := 2) (by decide) (Or.inr (by simpa using room))
  have p1 := hb.bread h1
  have hi : i ∈ [i] := List.mem_singleton.mpr rfl
  obtain ⟨inv2, d2, w2, holds2, _, _, v2⟩ :=
    p1.inv.setData hi p1.holds (fun d => d.putHeader s.ctx.lh) _ rfl
  rw [if_neg hp] at inv2
  generalize ht2 : t1.modBuf i (fun c => { c with data := c.data.putHeader s.ctx.lh }) = t2 at *
  obtain ⟨t3, h3⟩ := inv2.bwrite_returns hi
  obtain ⟨inv3, d3, w3, b3, v3⟩ := inv2.bwrite ((holds2 i 2).mpr p1.holds) h3
  have inv3' := inv3.mono (K := J) (by rintro c ⟨hc | hc, hn⟩; exacts [absurd hc hn, hc])
  obtain ⟨t4, h4⟩ := inv3'.brelse_returns hi
  obtain ⟨inv4, same⟩ := inv3'.brelse hi h4
  have show2 : t2.view 2 = (s.bio.disk 2).putHeader s.ctx.lh := by
    rw [v2, Function.update_self, p1.view 2 (Or.inr rfl), hb.view_of_clean hp hJ]
  refine ⟨{ s with bio := t4 }, ?_, by simpa using inv4, rfl, ?_, ?_, ?_, ?_, ?_⟩
  · unfold writeHead
    rw [Comp.bind_get_run, hc.dev, hc.u64_start]
    refine (Comp.run_bind_of_ok (liftBio_run_of_ok h1)).trans ?_
    refine (Comp.run_bind_of_ok (setData_run ht2)).trans ?_
    refine (Comp.run_bind_of_ok (liftBio_run_of_ok h3)).trans ?_
    exact liftBio_run_of_ok h4
  · rw [same.disk, d3, d2, p1.disk, show2]
  · rw [same.issued, w3, w2, p1.issued, show2]
  · rw [same.view, v3, show2]
  · intro c hc hcJ
    rw [same.view, v3, v2, Function.update_of_ne hc, p1.view c (Or.inl hcJ)]
  · intro c hc
    rw [same.view, v3, v2, Function.update_of_ne hc]
    exact p1.fall c

theorem writeLogBlock_returns (h : Inv J [] l s) (hk : k < l.length) :
    ∃ s', (writeLogBlock k).run s = .ok () s' ∧ Inv J [] l s' ∧
      Writes1 J (3 + k) (s.bio.view l[k]) s s' := by
  have home : ∀ c ∈ l, c < FSSIZE := fun c hc => (h.home c hc).1
  have hmem : l[k] ∈ l := List.getElem_mem hk
  have short := h.short
  have inlog : InLog (3 + k) := ⟨by omega, by omega⟩
  have hp : 3 + k ∉ l := fun hm => (h.home _ hm).2 inlog
  obtain ⟨i, t1, h1⟩ := h.bio.bread_returns (b := 3 + k) (by simp only [FSSIZE]; omega)
    (Or.inr (by simp only [List.length_nil, NBUF]; omega))
  have p1 := h.bio.bread h1
  obtain ⟨j, t2, h2⟩ := p1.inv.bread_returns (home _ hmem) (Or.inl hmem)
  have p2 := p1.inv.bread h2
  have hi : i ∈ [j, i] := by simp
  have holdi := (p2.others i (by simp)).2 _ p1.holds
  have hdata : (t2.buf j).data = s.bio.view l[k] := by
    rw [p2.data, p1.view _ (Or.inl (h.disj _ hmem))]
  obtain ⟨inv3, d3, w3, holds3, _, _, v3⟩ :=
    p2.inv.setData hi holdi (fun _ => (t2.buf j).data) _ rfl
  rw [if_neg hp] at inv3
  generalize ht3 : t2.modBuf i (fun c => { c with data := (t2.buf j).data }) = t3 at *
  obtain ⟨t4, h4⟩ := inv3.bwrite_returns hi
  obtain ⟨inv4, d4, w4, b4, v4⟩ := inv3.bwrite ((holds3 i _).mpr holdi) h4
  have inv4' := inv4.mono (K := J) (by rintro c ⟨hc | hc, hn⟩; exacts [absurd hc hn, hc])
  obtain ⟨t5, h5⟩ := inv4'.brelse_returns (i := j) (by simp)
  obtain ⟨inv5, same5⟩ := inv4'.brelse (by simp) h5
  rw [List.erase_cons_head] at inv5
  obtain ⟨t6, h6⟩ := inv5.brelse_returns (i := i) (by simp)
  obtain ⟨inv6, same6⟩ := inv5.brelse (by simp) h6
  have show3 : t3.view (3 + k) = s.bio.view l[k] := by
    rw [v3, Function.update_self, hdata]
  refine ⟨{ s with bio := t6 }, ?_, ⟨by simpa using inv6, h.ctx, h.nodup, h.home, h.short, h.disj⟩,
    rfl, ?_, ?_, ?_, ?_, ?_⟩
  · unfold writeLogBlock
    rw [Comp.bind_get_run, h.ctx.dev, h.ctx.u64_copy k (by omega), h.ctx.u64_block home k hk]
    refine (Comp.run_bind_of_ok (liftBio_run_of_ok h1)).trans ?_
    refine (Comp.run_bind_of_ok (liftBio_run_of_ok h2)).trans ?_
    refine (Comp.run_bind_of_ok (data_run _ _)).trans ?_
    refine (Comp.run_bind_of_ok (setData_run ht3)).trans ?_
    refine (Comp.run_bind_of_ok (liftBio_run_of_ok h4)).trans ?_
    refine (Comp.run_bind_of_ok (liftBio_run_of_ok h5)).trans ?_
    exact liftBio_run_of_ok h6
  · rw [same6.disk, same5.disk, d4, d3, p2.disk, p1.disk, show3]
  · rw [same6.issued, same5.issued, w4, w3, p2.issued, p1.issued, show3]
  · rw [same6.view, same5.view, v4, show3]
  · intro c hc hcJ
    rw [same6.view, same5.view, v4, v3, Function.update_of_ne hc, p2.view c (Or.inl hcJ),
      p1.view c (Or.inl hcJ)]
  · intro c hc
    rw [same6.view, same5.view, v4, v3, Function.update_of_ne hc]
    exact breads_fall p1 p2

/-- One round of `install_trans` during recovery, when no block is pinned. -/
theorem installTransBlock_recovering (hb : s.bio.Inv J [] []) (hc : CtxIs l s.ctx)
    (home : ∀ b ∈ l, b < FSSIZE) (short : l.length ≤ 29) (hJ : ∀ b ∈ J, ¬ InLog b)
    (hk : k < l.length) :
    ∃ s', (installTransBlock true k).run s = .ok () s' ∧ s'.bio.Inv J [] [] ∧
      Writes1 J l[k] (s.bio.disk (3 + k)) s s' := by
  have hmem : l[k] ∈ l := List.getElem_mem hk
  have hcopy : 3 + k ∉ J := fun hm => hJ _ hm ⟨by omega, by omega⟩
  obtain ⟨i, t1, h1⟩ := hb.bread_returns (b := 3 + k) (by simp only [FSSIZE]; omega)
    (Or.inr (by decide))
  have p1 := hb.bread h1
  obtain ⟨j, t2, h2⟩ := p1.inv.bread_returns (home _ hmem)
    (Or.inr (by simp only [List.length_cons, List.length_nil, NBUF]; omega))
  have p2 := p1.inv.bread h2
  have hdata : (t2.buf i).data = s.bio.disk (3 + k) := by
    rw [(p2.others i (by simp)).1, p1.data, hb.view_of_clean (by simp) hcopy]
  obtain ⟨inv3, d3, w3, holds3, _, _, v3⟩ :=
    p2.inv.setData (i := j) (by simp) p2.holds (fun _ => (t2.buf i).data) _ rfl
  rw [if_neg (by simp)] at inv3
  generalize ht3 : t2.modBuf j (fun c => { c with data := (t2.buf i).data }) = t3 at *
  obtain ⟨t4, h4⟩ := inv3.bwrite_returns (i := j) (by simp)
  obtain ⟨inv4, d4, w4, b4, v4⟩ := inv3.bwrite ((holds3 j _).mpr p2.holds) h4
  have inv4' := inv4.mono (K := J) (by rintro c ⟨hc | hc, hn⟩; exacts [absurd hc hn, hc])
  have inv4' := inv4'.perm (List.Perm.swap i j [])
  obtain ⟨t5, h5⟩ := inv4'.brelse_returns (i := i) (by simp)
  obtain ⟨inv5, same5⟩ := inv4'.brelse (by simp) h5
  rw [List.erase_cons_head] at inv5
  obtain ⟨t6, h6⟩ := inv5.brelse_returns (i := j) (by simp)
  obtain ⟨inv6, same6⟩ := inv5.brelse (by simp) h6
  have show3 : t3.view l[k] = s.bio.disk (3 + k) := by
    rw [v3, Function.update_self, hdata]
  refine ⟨{ s with bio := t6 }, ?_, by simpa using inv6, rfl, ?_, ?_, ?_, ?_, ?_⟩
  · unfold installTransBlock
    rw [Comp.bind_get_run, hc.dev, hc.u64_copy k (by omega), hc.u64_block home k hk]
    refine (Comp.run_bind_of_ok (liftBio_run_of_ok h1)).trans ?_
    refine (Comp.run_bind_of_ok (liftBio_run_of_ok h2)).trans ?_
    refine (Comp.run_bind_of_ok (data_run _ _)).trans ?_
    refine (Comp.run_bind_of_ok (setData_run ht3)).trans ?_
    refine (Comp.run_bind_of_ok (liftBio_run_of_ok h4)).trans ?_
    refine (Comp.run_bind_of_ok (liftBio_run_of_ok h5)).trans ?_
    exact liftBio_run_of_ok h6
  · rw [same6.disk, same5.disk, d4, d3, p2.disk, p1.disk, show3]
  · rw [same6.issued, same5.issued, w4, w3, p2.issued, p1.issued, show3]
  · rw [same6.view, same5.view, v4, show3]
  · intro c hc hcJ
    rw [same6.view, same5.view, v4, v3, Function.update_of_ne hc, p2.view c (Or.inl hcJ),
      p1.view c (Or.inl hcJ)]
  · intro c hc
    rw [same6.view, same5.view, v4, v3, Function.update_of_ne hc]
    exact breads_fall p1 p2

/-- One round of `install_trans` after a commit: the first pinned block goes home and is unpinned. -/
theorem installTransBlock_commit (hb : s.bio.Inv J [] p) (hc : CtxIs l s.ctx)
    (home : ∀ b ∈ l, b < FSSIZE ∧ ¬ InLog b) (hp : ∀ b ∈ p, b ∈ l) (nodup : p.Nodup)
    (short : l.length ≤ 29) (room : p.length ≤ 29) (hJ : ∀ b ∈ J, ¬ InLog b) (hk : k < l.length)
    (hpq : p = l[k] :: q) :
    ∃ s', (installTransBlock false k).run s = .ok () s' ∧ s'.bio.Inv J [] q ∧
      Writes1 J l[k] (s.bio.disk (3 + k)) s s' := by
  have hmem : l[k] ∈ l := List.getElem_mem hk
  have hlp : l[k] ∈ p := hpq ▸ List.mem_cons_self
  have hlq : l[k] ∉ q := (List.nodup_cons.mp (hpq ▸ nodup)).1
  have inlog : InLog (3 + k) := ⟨by omega, by omega⟩
  have hcopy : 3 + k ∉ J := fun hm => hJ _ hm inlog
  have hcopyp : 3 + k ∉ p := fun hm => (home _ (hp _ hm)).2 inlog
  obtain ⟨i, t1, h1⟩ := hb.bread_returns (b := 3 + k) (by simp only [FSSIZE]; omega)
    (Or.inr (by simp only [List.length_nil, NBUF]; omega))
  have p1 := hb.bread h1
  obtain ⟨j, t2, h2⟩ := p1.inv.bread_returns (home _ hmem).1 (Or.inl hlp)
  have p2 := p1.inv.bread h2
  have hdata : (t2.buf i).data = s.bio.disk (3 + k) := by
    rw [(p2.others i (by simp)).1, p1.data, hb.view_of_clean hcopyp hcopy]
  obtain ⟨inv3, d3, w3, holds3, data3, _, v3⟩ :=
    p2.inv.setData (i := j) (by simp) p2.holds (fun _ => (t2.buf i).data) _ rfl
  rw [if_pos hlp] at inv3
  generalize ht3 : t2.modBuf j (fun c => { c with data := (t2.buf i).data }) = t3 at *
  have hold3 := (holds3 j _).mpr p2.holds
  obtain ⟨t4, h4⟩ := inv3.bwrite_returns (i := j) (by simp)
  obtain ⟨inv4, d4, w4, b4, v4⟩ := inv3.bwrite hold3 h4
  have inv4' := (inv4.mono (K := J) Set.sdiff_subset).perm (List.Perm.swap i j [])
  have show3 : t3.view l[k] = s.bio.disk (3 + k) := by
    rw [v3, Function.update_self, hdata]
  have hold4 : t4.Holds j l[k] := by
    unfold Bio.Holds
    rw [b4]
    exact hold3
  rw [hpq] at inv4'
  obtain ⟨inv5, same5⟩ := inv4'.bunpin hold4 hlq
    (by rw [b4, data3, hdata, d4, Function.update_self, show3]) _ rfl
  generalize ht5 : t4.modBuf j (fun c => { c with refcnt := c.refcnt - 1 }) = t5 at *
  obtain ⟨t6, h6⟩ := inv5.brelse_returns (i := i) (by simp)
  obtain ⟨inv6, same6⟩ := inv5.brelse (by simp) h6
  rw [List.erase_cons_head] at inv6
  obtain ⟨t7, h7⟩ := inv6.brelse_returns (i := j) (by simp)
  obtain ⟨inv7, same7⟩ := inv6.brelse (by simp) h7
  refine ⟨{ s with bio := t7 }, ?_, by simpa using inv7, rfl, ?_, ?_, ?_, ?_, ?_⟩
  · unfold installTransBlock
    rw [Comp.bind_get_run, hc.dev, hc.u64_copy k (by omega),
      hc.u64_block (fun b hb => (home b hb).1) k hk]
    refine (Comp.run_bind_of_ok (liftBio_run_of_ok h1)).trans ?_
    refine (Comp.run_bind_of_ok (liftBio_run_of_ok h2)).trans ?_
    refine (Comp.run_bind_of_ok (data_run _ _)).trans ?_
    refine (Comp.run_bind_of_ok (setData_run ht3)).trans ?_
    refine (Comp.run_bind_of_ok (liftBio_run_of_ok h4)).trans ?_
    refine (Comp.run_bind_of_ok (bunpin_run ht5)).trans ?_
    refine (Comp.run_bind_of_ok (liftBio_run_of_ok h6)).trans ?_
    exact liftBio_run_of_ok h7
  · rw [same7.disk, same6.disk, same5.disk, d4, d3, p2.disk, p1.disk, show3]
  · rw [same7.issued, same6.issued, same5.issued, w4, w3, p2.issued, p1.issued, show3]
  · rw [same7.view, same6.view, same5.view, v4, show3]
  · intro c hc hcJ
    rw [same7.view, same6.view, same5.view, v4, v3, Function.update_of_ne hc,
      p2.view c (Or.inl hcJ), p1.view c (Or.inl hcJ)]
  · intro c hc
    rw [same7.view, same6.view, same5.view, v4, v3, Function.update_of_ne hc]
    exact breads_fall p1 p2

end Rounds

/-- The device has performed the writes `ws` between two states. -/
structure Issued (ws : List (ℕ × Block)) (s s' : Blk) : Prop where
  disk : s'.bio.disk = applyWrites ws s.bio.disk
  issued : s'.bio.issued = s.bio.issued ++ ws

theorem Issued.nil (s : Blk) : Issued [] s s := ⟨rfl, (List.append_nil _).symm⟩

theorem Issued.append {xs ys : List (ℕ × Block)} {s t u : Blk} (hx : Issued xs s t)
    (hy : Issued ys t u) : Issued (xs ++ ys) s u :=
  ⟨by rw [hy.disk, hx.disk, applyWrites_append],
    by rw [hy.issued, hx.issued, List.append_assoc]⟩

theorem Writes1.issued1 {J : Set ℕ} {b : ℕ} {d : Block} {s s' : Blk} (h : Writes1 J b d s s') :
    Issued [(b, d)] s s' :=
  ⟨by simpa using h.disk, h.issued⟩

/-- One more round of a loop that issues the writes of a list in order. -/
theorem Issued.snoc {J : Set ℕ} {ws : List (ℕ × Block)} {s t u : Blk} {k : ℕ} (hk : k < ws.length)
    (hx : Issued (ws.take k) s t) (hy : Writes1 J ws[k].1 ws[k].2 t u) :
    Issued (ws.take (k + 1)) s u := by
  rw [List.take_succ_eq_append_getElem hk]
  exact hx.append hy.issued1

/-- The writes of `write_log`. -/
def copies (l : List ℕ) (view : ℕ → Block) : List (ℕ × Block) :=
  l.mapIdx fun i b => (3 + i, view b)

/-- The writes of `install_trans`. -/
def installs (l : List ℕ) (d : ℕ → Block) : List (ℕ × Block) :=
  l.mapIdx fun i b => (b, d (3 + i))

theorem installs_fst (l : List ℕ) (d : ℕ → Block) : (installs l d).map Prod.fst = l := by
  apply List.ext_getElem
  · simp [installs]
  · intro i h1 h2
    simp [installs]

theorem copies_fst {l : List ℕ} {view : ℕ → Block} {c : ℕ} (h : c ∈ (copies l view).map Prod.fst) :
    ∃ i < l.length, c = 3 + i := by
  obtain ⟨i, hi, rfl⟩ := List.mem_iff_getElem.mp h
  simp only [copies, List.length_map, List.length_mapIdx] at hi
  exact ⟨i, hi, by simp [copies]⟩

section Loops

variable {J : Set ℕ} {l : List ℕ} {s : Blk}

theorem writeLog_returns (h : Inv J [] l s) :
    ∃ s', writeLog.run s = .ok () s' ∧ Inv J [] l s' ∧ s'.ctx = s.ctx ∧
      Issued (copies l s.bio.view) s s' ∧
      (∀ c, ¬ InLog c → c ∉ J → s'.bio.view c = s.bio.view c) ∧
      ∀ c, ¬ InLog c → Falls c s s' := by
  let I : ℕ → Blk → Prop := fun k t => Inv J [] l t ∧ t.ctx = s.ctx ∧
    Issued ((copies l s.bio.view).take k) s t ∧
    (∀ c, ¬ InLog c → c ∉ J → t.bio.view c = s.bio.view c) ∧ ∀ c, ¬ InLog c → Falls c s t
  have len : (copies l s.bio.view).length = l.length := by simp [copies]
  have step : ∀ k < l.length, ∀ t, I k t → ∃ u, (writeLogBlock k).run t = .ok () u ∧ I (k + 1) u := by
    rintro k hk t ⟨inv, ctx, iss, view, falls⟩
    obtain ⟨u, hu, inv', w⟩ := writeLogBlock_returns inv hk
    have hmem : l[k] ∈ l := List.getElem_mem hk
    rw [view _ (h.home _ hmem).2 (h.disj _ hmem)] at w
    have short := h.short
    have other : ∀ c, ¬ InLog c → c ≠ 3 + k := by
      rintro c hc rfl
      exact hc ⟨by omega, by omega⟩
    refine ⟨u, hu, inv', w.ctx.trans ctx, ?_, ?_, fun c hc => (falls c hc).trans (w.falls (other c hc))⟩
    · exact iss.snoc (by omega) (by simpa [copies] using w)
    · intro c hc hcJ
      rw [w.view c (other c hc) hcJ, view c hc hcJ]
  obtain ⟨u, hu, inv, ctx, iss, view, falls⟩ := Comp.forUpTo_returns I
    ⟨h, rfl, by simpa using Issued.nil s, fun _ _ _ => rfl, fun c _ => .refl c s⟩ step
  rw [← len, List.take_length] at iss
  refine ⟨u, ?_, inv, ctx, iss, view, falls⟩
  unfold writeLog
  rw [Comp.bind_get_run, h.ctx.toNat_n]
  exact hu

theorem installTrans_recovering (hb : s.bio.Inv J [] []) (hc : CtxIs l s.ctx)
    (home : ∀ b ∈ l, b < FSSIZE ∧ ¬ InLog b) (short : l.length ≤ 29) (hJ : ∀ b ∈ J, ¬ InLog b) :
    ∃ s', (installTrans true).run s = .ok () s' ∧ s'.bio.Inv J [] [] ∧ s'.ctx = s.ctx ∧
      Issued (installs l s.bio.disk) s s' := by
  let I : ℕ → Blk → Prop := fun k t => t.bio.Inv J [] [] ∧ t.ctx = s.ctx ∧
    Issued ((installs l s.bio.disk).take k) s t
  have len : (installs l s.bio.disk).length = l.length := by simp [installs]
  have step : ∀ k < l.length, ∀ t, I k t →
      ∃ u, (installTransBlock true k).run t = .ok () u ∧ I (k + 1) u := by
    rintro k hk t ⟨inv, ctx, iss⟩
    obtain ⟨u, hu, inv', w⟩ := installTransBlock_recovering inv (ctx ▸ hc)
      (fun b hb => (home b hb).1) short hJ hk
    have same : t.bio.disk (3 + k) = s.bio.disk (3 + k) := by
      rw [iss.disk]
      apply applyWrites_of_notMem
      rw [List.map_take, installs_fst]
      exact fun hm => (home _ (List.mem_of_mem_take hm)).2 ⟨by omega, by omega⟩
    rw [same] at w
    exact ⟨u, hu, inv', w.ctx.trans ctx, iss.snoc (by omega) (by simpa [installs] using w)⟩
  obtain ⟨u, hu, inv, ctx, iss⟩ := Comp.forUpTo_returns I
    ⟨hb, rfl, by simpa using Issued.nil s⟩ step
  rw [← len, List.take_length] at iss
  refine ⟨u, ?_, inv, ctx, iss⟩
  unfold installTrans
  rw [Comp.bind_get_run, hc.toNat_n]
  exact hu

theorem installTrans_commit (h : Inv J [] l s) (hJ : ∀ b ∈ J, ¬ InLog b) :
    ∃ s', (installTrans false).run s = .ok () s' ∧ s'.bio.Inv J [] [] ∧ s'.ctx = s.ctx ∧
      Issued (installs l s.bio.disk) s s' ∧
      (∀ c, c ∉ l → c ∉ J → s'.bio.view c = s.bio.view c) ∧ ∀ c, c ∉ l → Falls c s s' := by
  let I : ℕ → Blk → Prop := fun k t => t.bio.Inv J [] (l.drop k) ∧ t.ctx = s.ctx ∧
    Issued ((installs l s.bio.disk).take k) s t ∧
    (∀ c, c ∉ l → c ∉ J → t.bio.view c = s.bio.view c) ∧ ∀ c, c ∉ l → Falls c s t
  have len : (installs l s.bio.disk).length = l.length := by simp [installs]
  have short := h.short
  have step : ∀ k < l.length, ∀ t, I k t →
      ∃ u, (installTransBlock false k).run t = .ok () u ∧ I (k + 1) u := by
    rintro k hk t ⟨inv, ctx, iss, view, falls⟩
    have room : (l.drop k).length ≤ 29 := by
      rw [List.length_drop]
      omega
    obtain ⟨u, hu, inv', w⟩ := installTransBlock_commit inv (ctx ▸ h.ctx) h.home
      (fun b hb => List.mem_of_mem_drop hb) ((List.drop_sublist k l).nodup h.nodup) short room hJ hk
      (List.drop_eq_getElem_cons hk)
    have same : t.bio.disk (3 + k) = s.bio.disk (3 + k) := by
      rw [iss.disk]
      apply applyWrites_of_notMem
      rw [List.map_take, installs_fst]
      exact fun hm => (h.home _ (List.mem_of_mem_take hm)).2 ⟨by omega, by omega⟩
    rw [same] at w
    have other : ∀ c, c ∉ l → c ≠ l[k] := by
      rintro c hc rfl
      exact hc (List.getElem_mem hk)
    refine ⟨u, hu, inv', w.ctx.trans ctx, iss.snoc (by omega) (by simpa [installs] using w), ?_,
      fun c hc => (falls c hc).trans (w.falls (other c hc))⟩
    intro c hc hcJ
    rw [w.view c (other c hc) hcJ, view c hc hcJ]
  obtain ⟨u, hu, inv, ctx, iss, view, falls⟩ := Comp.forUpTo_returns I
    ⟨by simpa using h.bio, rfl, by simpa using Issued.nil s, fun _ _ _ => rfl, fun c _ => .refl c s⟩
    step
  rw [← len, List.take_length] at iss
  rw [List.drop_length] at inv
  refine ⟨u, ?_, inv, ctx, iss, view, falls⟩
  unfold installTrans
  rw [Comp.bind_get_run, h.ctx.toNat_n]
  exact hu

end Loops

/-- A header block on the disk that lists the blocks of `l`. -/
structure HeaderIs (l : List ℕ) (b : Block) : Prop where
  n : b.headerN = l.length
  block : ∀ i (h : i < l.length), b.headerBlock i = (l[i] : ℤ)

theorem HeaderIs.putHeader {l : List ℕ} {c : LogCtx} (h : CtxIs l c) (home : ∀ b ∈ l, b < FSSIZE)
    (short : l.length ≤ 29) (b : Block) : HeaderIs l (b.putHeader c.lh) := by
  have hn : c.lh.n ≤ LOGSIZE := by
    rw [h.n]
    simp only [LOGSIZE]
    omega
  refine ⟨?_, ?_⟩
  · rw [Block.headerN_putHeader _ (by rw [h.n]; omega) hn, h.n]
  · intro i hi
    have hb : l[i] < 1000 := home _ (List.getElem_mem hi)
    rw [Block.headerBlock_putHeader _ hn _ (by rw [h.n]; omega), h.block i hi] <;>
      rw [h.block i hi] <;> omega

theorem HeaderIs.of_n {b : Block} (h : b.headerN = 0) : HeaderIs [] b :=
  ⟨by simpa using h, fun i hi => absurd hi (Nat.not_lt_zero i)⟩

/-- The block writes of a commit of the blocks `l`. -/
inductive CommitTrace (l : List ℕ) (view : ℕ → Block) : List (ℕ × Block) → Prop
  | empty (h : l = []) : CommitTrace l view []
  | full (hd clear : Block) (hh : HeaderIs l hd) (hc : clear.headerN = 0) :
      CommitTrace l view
        (copies l view ++ (2, hd) :: (l.map (fun b => (b, view b)) ++ [(2, clear)]))

section Commit

variable {J : Set ℕ} {l : List ℕ} {s : Blk}

theorem CtxIs.clear {c : LogCtx} (h : CtxIs l c) : CtxIs [] (c.setLh { c.lh with n := 0 }) :=
  ⟨h.dev, h.start, h.size, rfl, fun i hi => absurd hi (Nat.not_lt_zero i)⟩

theorem copies_apply (view : ℕ → Block) (d : ℕ → Block) (i : ℕ) (hi : i < l.length) :
    applyWrites (copies l view) d (3 + i) = view l[i] := by
  have nodup : ((copies l view).map Prod.fst).Nodup := by
    refine List.nodup_iff_injective_getElem.mpr ?_
    intro x y h
    simp only [copies, List.getElem_map, List.getElem_mapIdx] at h
    exact Fin.ext (by omega)
  have hm : (3 + i, view l[i]) ∈ copies l view := by
    refine List.mem_iff_getElem.mpr ⟨i, by simpa [copies] using hi, ?_⟩
    simp [copies]
  exact applyWrites_of_mem _ d nodup hm

theorem clearHead_run : clearHead.run s =
    .ok () { s with ctx := s.ctx.setLh { s.ctx.lh with n := 0 } } := rfl

theorem commit_returns (h : Inv J [] l s) (hJ : ∀ b ∈ J, ¬ InLog b) :
    ∃ s' ws, commit.run s = .ok () s' ∧ Inv J [] [] s' ∧
      s'.ctx.outstanding = s.ctx.outstanding ∧ s'.ctx.committing = s.ctx.committing ∧
      CommitTrace l s.bio.view ws ∧ Issued ws s s' ∧
      (∀ c, ¬ InLog c → c ∉ J → s'.bio.view c = s.bio.view c) ∧
      ∀ c, ¬ InLog c → c ∉ l → Falls c s s' := by
  have home : ∀ c ∈ l, c < FSSIZE := fun c hc => (h.home c hc).1
  have two : InLog 2 := by decide
  by_cases hl : l = []
  · subst hl
    refine ⟨s, [], ?_, h, rfl, rfl, .empty rfl, .nil s, fun _ _ _ => rfl, fun c _ _ => .refl c s⟩
    unfold commit
    rw [Comp.bind_get_run, h.ctx.n]
    rfl
  · have pos : 0 < l.length := List.length_pos_of_ne_nil hl
    obtain ⟨t1, h1, inv1, c1, i1, v1, f1⟩ := writeLog_returns h
    have p2 : 2 ∉ l := fun hm => (h.home _ hm).2 two
    obtain ⟨t2, h2, bio2, w2⟩ := writeHead_returns inv1.bio inv1.ctx
      (by have := h.short; simp only [NBUF]; omega) p2 (fun hm => hJ _ hm two)
    have inv2 : Inv J [] l t2 :=
      ⟨bio2, w2.ctx ▸ inv1.ctx, h.nodup, h.home, h.short, h.disj⟩
    obtain ⟨t3, h3, bio3, c3, i3, v3, f3⟩ := installTrans_commit inv2 hJ
    let t4 : Blk := { t3 with ctx := t3.ctx.setLh { t3.ctx.lh with n := 0 } }
    have ctx4 : CtxIs [] t4.ctx := CtxIs.clear (c3 ▸ inv2.ctx)
    obtain ⟨t5, h5, bio5, w5⟩ := writeHead_returns (s := t4) bio3 ctx4 (by decide) (by simp)
      (fun hm => hJ _ hm two)
    have hinst : installs l t2.bio.disk = l.map (fun b => (b, s.bio.view b)) := by
      apply List.ext_getElem
      · simp [installs]
      · intro i hi1 hi2
        have hi : i < l.length := by simpa [installs] using hi1
        have same : t2.bio.disk (3 + i) = s.bio.view l[i] := by
          rw [w2.disk, Function.update_of_ne (by omega), i1.disk]
          exact copies_apply _ _ i hi
        simp [installs, same]
    rw [hinst] at i3
    have i5 : Issued [(2, (t3.bio.disk 2).putHeader t4.ctx.lh)] t3 t5 :=
      ⟨w5.issued1.disk, w5.issued1.issued⟩
    refine ⟨t5, _, ?_, ⟨bio5, w5.ctx ▸ ctx4, List.nodup_nil, by simp, by simp, by simp⟩, ?_, ?_,
      .full _ _ (HeaderIs.putHeader inv1.ctx home h.short _)
        (HeaderIs.putHeader ctx4 (by simp) (by simp) _).n,
      i1.append (w2.issued1.append (i3.append i5)), ?_, fun c hc hcl => ?_⟩
    · unfold commit
      rw [Comp.bind_get_run, h.ctx.n]
      have hn : (l.length : ℤ) > 0 := by omega
      simp only [hn, ↓reduceIte]
      refine (Comp.run_bind_of_ok h1).trans ?_
      refine (Comp.run_bind_of_ok h2).trans ?_
      refine (Comp.run_bind_of_ok h3).trans ?_
      refine (Comp.run_bind_of_ok clearHead_run).trans ?_
      exact h5
    · rw [w5.ctx]
      change t3.ctx.outstanding = _
      rw [c3, w2.ctx, c1]
    · rw [w5.ctx]
      change t3.ctx.committing = _
      rw [c3, w2.ctx, c1]
    · intro c hc hcJ
      have c2 : c ≠ 2 := by
        rintro rfl
        exact hc two
      have last : t5.bio.view c = t3.bio.view c := w5.view c c2 hcJ
      rw [last]
      by_cases hcl : c ∈ l
      · -- installed: after the commit the cache shows the disk again
        rw [bio3.view_of_clean (by simp) hcJ, i3.disk, applyWrites_map, if_pos hcl]
      · rw [v3 c hcl hcJ, w2.view c c2 hcJ, v1 c hc hcJ]
    · have c2 : c ≠ 2 := by
        rintro rfl
        exact hc two
      have last := w5.falls c2
      exact ((f1 c hc).trans (w2.falls c2)).trans ((f3 c hcl).trans ⟨last.view, last.disk⟩)

theorem endOp_returns (h : Inv J [] l s) (hJ : ∀ b ∈ J, ¬ InLog b)
    (ho : s.ctx.outstanding = 1) (hc : s.ctx.committing = false) :
    ∃ s' ws, endOp.run s = .ok () s' ∧ Inv J [] [] s' ∧
      s'.ctx.outstanding = 0 ∧ s'.ctx.committing = false ∧
      CommitTrace l s.bio.view ws ∧ Issued ws s s' ∧
      (∀ c, ¬ InLog c → c ∉ J → s'.bio.view c = s.bio.view c) ∧
      ∀ c, ¬ InLog c → c ∉ l → Falls c s s' := by
  let t : Blk := { s with ctx := { s.ctx with outstanding := 0, committing := true } }
  have inv : Inv J [] l t :=
    ⟨h.bio, ⟨h.ctx.dev, h.ctx.start, h.ctx.size, h.ctx.n, h.ctx.block⟩, h.nodup, h.home, h.short,
      h.disj⟩
  obtain ⟨u, ws, hu, inv', out, _, trace, iss, view, falls⟩ := commit_returns inv hJ
  refine ⟨{ u with ctx := { u.ctx with committing := false } }, ws, ?_, ⟨inv'.bio, ⟨inv'.ctx.dev,
    inv'.ctx.start, inv'.ctx.size, inv'.ctx.n, inv'.ctx.block⟩, inv'.nodup, inv'.home, inv'.short,
    inv'.disj⟩, out, rfl, trace, ⟨iss.disk, iss.issued⟩, view, fun c hc hcl =>
    ⟨(falls c hc hcl).view, (falls c hc hcl).disk⟩⟩
  unfold endOp
  simp only [modCtx, Comp.bind_modify_run, Comp.bind_get_run, hc, ho, Int.sub_self, ↓reduceIte,
    Bool.false_eq_true]
  exact (Comp.run_bind_of_ok hu).trans rfl

theorem beginOp_returns (hn : s.ctx.lh.n = 0) (ho : s.ctx.outstanding = 0)
    (hc : s.ctx.committing = false) :
    beginOp.run s = .ok () { s with ctx := { s.ctx with outstanding := 1 } } := by
  unfold beginOp
  simp [hc, hn, ho, modCtx]

end Commit

end EasyXv6.Fs.Log
