import EasyXv6.Fs.Log

set_option autoImplicit false

/-!
# What the log keeps

The open transaction has recorded the blocks of a list `l`: the in-memory header lists them and
the cache pins them. A commit moves their contents to the disk.
-/
namespace EasyXv6.Fs
open Lib

namespace Block

section Header

variable {lh : LogHeader}

private theorem headerN_fold (b : Block) (is : List ℕ) :
    (is.foldl (fun d i => d.putNum (4 + 4 * i) 4 (i32Bits (lh.block i))) b).headerN = b.headerN := by
  induction is generalizing b with
  | nil => rfl
  | cons i is ih =>
    rw [List.foldl_cons, ih]
    unfold headerN
    rw [Bytes.num_putNum_of_disjoint _ _ _ _ _ _ (by omega)]

theorem headerN_putHeader (b : Block) (h0 : 0 ≤ lh.n) (h : lh.n ≤ LOGSIZE) :
    (b.putHeader lh).headerN = lh.n := by
  have h' : lh.n ≤ 30 := h
  unfold putHeader
  rw [headerN_fold]
  unfold headerN
  rw [Bytes.num_putNum_self _ _ _ _ (by decide), Nat.mod_eq_of_lt (i32Bits_lt _), i32_i32Bits] <;> omega

private theorem headerBlock_fold (b : Block) (k : ℕ) (hk : k ≤ LOGSIZE) (i : ℕ) (hi : i < k) :
    ((List.range k).foldl (fun d i => d.putNum (4 + 4 * i) 4 (i32Bits (lh.block i))) b).num
      (4 + 4 * i) 4 = i32Bits (lh.block i) := by
  simp only [LOGSIZE] at hk
  induction k with
  | zero => omega
  | succ k ih =>
    rw [List.range_succ, List.foldl_append, List.foldl_cons, List.foldl_nil]
    by_cases h : i = k
    · subst h
      rw [Bytes.num_putNum_self _ _ _ _ (by simp only [BSIZE]; omega), Nat.mod_eq_of_lt (i32Bits_lt _)]
    · rw [Bytes.num_putNum_of_disjoint _ _ _ _ _ _ (by omega), ih (by omega) (by omega)]

theorem headerBlock_putHeader (b : Block) (h : lh.n ≤ LOGSIZE) (i : ℕ) (hi : i < lh.n)
    (hl : -2 ^ 31 ≤ lh.block i) (hu : lh.block i < 2 ^ 31) :
    (b.putHeader lh).headerBlock i = lh.block i := by
  unfold headerBlock putHeader
  rw [headerBlock_fold _ _ (by omega) _ (by omega), i32_i32Bits hl hu]

end Header

end Block

namespace Blk

section Lift

variable {α : Type} {s s' : Blk} {t : Bio}

theorem liftBio_ok_iff (m : Comp Bio α) (a : α) :
    (liftBio m).run s = .ok a s' ↔ ∃ t, m.run s.bio = .ok a t ∧ s' = { s with bio := t } :=
  Comp.zoom_ok_iff _ _ _ _ _ _

theorem liftBio_run_of_ok {m : Comp Bio α} {a : α} (h : m.run s.bio = .ok a t) :
    (liftBio m).run s = .ok a { s with bio := t } :=
  Comp.zoom_run_of_ok h

theorem data_run (s : Blk) (i : Fin NBUF) : (data i).run s = .ok (s.bio.buf i).data s := rfl

theorem setData_run {i : Fin NBUF} {f : Block → Block}
    (h : s.bio.modBuf i (fun c => { c with data := f c.data }) = t) :
    (setData i f).run s = .ok () { s with bio := t } :=
  liftBio_run_of_ok (by rw [← h]; rfl)

theorem bunpin_run {i : Fin NBUF}
    (h : s.bio.modBuf i (fun c => { c with refcnt := c.refcnt - 1 }) = t) :
    (bunpin i).run s = .ok () { s with bio := t } :=
  liftBio_run_of_ok (by rw [← h]; rfl)

end Lift

end Blk

namespace Log
open Blk

/-- The blocks of the log: the header at 2 and the copies from 3 on. -/
def InLog (b : ℕ) : Prop := 2 ≤ b ∧ b < 2 + 30

instance (b : ℕ) : Decidable (InLog b) := by
  unfold InLog
  infer_instance

/-- The in-memory log of a file system formatted by `fs_init` that lists the blocks of `l`. -/
structure CtxIs (l : List ℕ) (c : LogCtx) : Prop where
  dev : c.dev = ROOTDEV
  start : c.start = 2
  size : c.size = 30
  n : c.lh.n = l.length
  block : ∀ i (h : i < l.length), c.lh.block i = (l[i] : ℤ)

structure Inv (J : Set ℕ) (held : List (Fin NBUF)) (l : List ℕ) (s : Blk) : Prop where
  bio : s.bio.Inv J held l
  ctx : CtxIs l s.ctx
  nodup : l.Nodup
  home : ∀ b ∈ l, b < FSSIZE ∧ ¬ InLog b
  short : l.length ≤ 29
  disj : ∀ b ∈ l, b ∉ J

section Ctx

variable {l : List ℕ} {c : LogCtx}

theorem CtxIs.u64_block (h : CtxIs l c) (home : ∀ b ∈ l, b < FSSIZE) (i : ℕ) (hi : i < l.length) :
    u64 (c.lh.block i) = l[i] := by
  have hb : l[i] < 1000 := home _ (List.getElem_mem hi)
  rw [h.block i hi, u64_of_small (by omega) (by omega), Int.toNat_natCast]

theorem CtxIs.u64_copy (h : CtxIs l c) (k : ℕ) (hk : k < 30) : u64 (c.start + k + 1) = 3 + k := by
  rw [h.start, u64_of_small (by omega) (by omega)]
  omega

theorem CtxIs.u64_start (h : CtxIs l c) : u64 c.start = 2 := by
  rw [h.start]
  rfl

theorem CtxIs.toNat_n (h : CtxIs l c) : c.lh.n.toNat = l.length := by
  rw [h.n, Int.toNat_natCast]

/-- The blocks that the open transaction has recorded. -/
def LogCtx.logged (c : LogCtx) : List ℕ :=
  (List.range c.lh.n.toNat).map fun i => (c.lh.block i).toNat

theorem CtxIs.logged (h : CtxIs l c) : LogCtx.logged c = l := by
  unfold LogCtx.logged
  rw [h.toNat_n]
  refine List.ext_getElem (by simp) fun i hi hi' => ?_
  rw [List.getElem_map, List.getElem_range, h.block i hi', Int.toNat_natCast]

theorem CtxIs.slotOf_mem (h : CtxIs l c) (home : ∀ b ∈ l, b < FSSIZE) {b : ℕ} (hb : b ∈ l) :
    ∃ hi : slotOf c.lh b < l.length, l[slotOf c.lh b] = b := by
  unfold slotOf
  rw [h.toNat_n]
  cases hf : (List.range l.length).find? (fun i => u64 (c.lh.block i) = b) with
  | none =>
    obtain ⟨i, hi, rfl⟩ := List.mem_iff_getElem.mp hb
    have := List.find?_eq_none.mp hf i (List.mem_range.mpr hi)
    simp [h.u64_block home i hi] at this
  | some i =>
    have hi : i < l.length := List.mem_range.mp (List.mem_of_find?_eq_some hf)
    have hu : u64 (c.lh.block i) = b := by simpa using List.find?_some hf
    exact ⟨hi, by rw [← h.u64_block home i hi, hu]⟩

theorem CtxIs.slotOf_notMem (h : CtxIs l c) (home : ∀ b ∈ l, b < FSSIZE) {b : ℕ} (hb : b ∉ l) :
    slotOf c.lh b = l.length := by
  unfold slotOf
  rw [h.toNat_n]
  cases hf : (List.range l.length).find? (fun i => u64 (c.lh.block i) = b) with
  | none => rfl
  | some i =>
    have hi : i < l.length := List.mem_range.mp (List.mem_of_find?_eq_some hf)
    have hu : u64 (c.lh.block i) = b := by simpa using List.find?_some hf
    exact absurd (List.getElem_mem hi) (by rw [← h.u64_block home i hi, hu]; exact hb)

end Ctx

section LogWrite

variable {J : Set ℕ} {held : List (Fin NBUF)} {l : List ℕ} {s s' : Blk} {i : Fin NBUF} {b : ℕ}

/-- `log_write` records the block of a held buffer once and shows no change. -/
theorem Inv.logWrite (h : Inv J held l s) (hb : s.bio.Holds i b) (hh : ¬ InLog b)
    (hr : (logWrite i).run s = .ok () s') :
    Inv (J \ {b}) held (if b ∈ l then l else l ++ [b]) s' ∧ Bio.Same s.bio s'.bio ∧
      s'.ctx.outstanding = s.ctx.outstanding ∧ s'.ctx.committing = s.ctx.committing ∧
      l.length < 29 ∧ 1 ≤ s.ctx.outstanding := by
  have home : ∀ c ∈ l, c < FSSIZE := fun c hc => (h.home c hc).1
  have hlt : b < 1000 := h.bio.wf.lt_of_holds hb
  unfold Log.logWrite at hr
  simp only [Comp.bind_get_run, Comp.run_ite] at hr
  split at hr
  · simp at hr
  next hbig =>
  split at hr
  · simp at hr
  next hout =>
  rw [h.ctx.n, h.ctx.size] at hbig
  have room : l.length < 29 := by omega
  simp only [modCtx, Comp.bind_modify_run, hb.2] at hr
  by_cases hm : b ∈ l
  · obtain ⟨hs, he⟩ := h.ctx.slotOf_mem home hm
    have hne : ¬ ((slotOf s.ctx.lh b : ℤ) = s.ctx.lh.n) := by
      rw [h.ctx.n]
      omega
    simp only [hne, ↓reduceIte, Comp.run_pure, Outcome.ok.injEq, true_and] at hr
    subst hr
    rw [if_pos hm]
    refine ⟨⟨?_, ⟨h.ctx.dev, h.ctx.start, h.ctx.size, h.ctx.n, ?_⟩, h.nodup, h.home, h.short,
      fun c hc hJ => h.disj c hc hJ.1⟩, ⟨rfl, rfl, fun _ _ => Iff.rfl, fun _ => rfl, fun _ => rfl⟩,
      rfl, rfl, room, by omega⟩
    · refine ⟨h.bio.wf, h.bio.refs, h.bio.cached, ?_⟩
      intro j c hj hc hJ
      refine h.bio.clean j c hj hc (fun hm' => hJ ⟨hm', ?_⟩)
      rintro rfl
      exact hc hm
    · intro k hk
      simp only [LogCtx.setLh_lh]
      by_cases hks : k = slotOf s.ctx.lh b
      · subst hks
        rw [Function.update_self, he, i32_of_small (by omega)]
      · rw [Function.update_of_ne hks]
        exact h.ctx.block k hk
  · have hslot := h.ctx.slotOf_notMem home hm
    have heq : (slotOf s.ctx.lh b : ℤ) = s.ctx.lh.n := by rw [h.ctx.n, hslot]
    simp only [heq, ↓reduceIte] at hr
    obtain ⟨_, t, hp, hr⟩ := (Comp.bind_ok_iff _ _ _ _ _).mp hr
    obtain ⟨u, hu, rfl⟩ := (liftBio_ok_iff _ _).mp hp
    simp only [Bio.bpin, Comp.run_modify, Outcome.ok.injEq, true_and] at hu hr
    obtain ⟨inv', same⟩ := h.bio.bpin hb hm u hu.symm
    subst hr
    rw [if_neg hm]
    refine ⟨⟨inv', ⟨h.ctx.dev, h.ctx.start, h.ctx.size, ?_, ?_⟩, ?_, ?_, ?_, ?_⟩, same, rfl, rfl,
      room, by omega⟩
    · simp only [List.length_append, List.length_singleton, Int.natCast_add]
      rw [h.ctx.n]
      rfl
    · intro k hk
      simp only [List.length_append, List.length_singleton] at hk
      simp only [LogCtx.setLh_lh]
      by_cases hks : k = l.length
      · subst hks
        rw [hslot, Function.update_self, i32_of_small (by omega)]
        simp
      · rw [hslot, Function.update_of_ne hks, List.getElem_append_left (by omega)]
        exact h.ctx.block k (by omega)
    · exact List.nodup_append.mpr ⟨h.nodup, List.nodup_singleton b,
        fun x hx y hy e => hm (List.mem_singleton.mp hy ▸ e ▸ hx)⟩
    · intro c hc
      rcases List.mem_append.mp hc with hc | hc
      · exact h.home c hc
      · rw [List.mem_singleton.mp hc]
        exact ⟨hlt, hh⟩
    · simp only [List.length_append, List.length_singleton]
      omega
    · intro c hc hJ
      rcases List.mem_append.mp hc with hc | hc
      · exact h.disj c hc hJ.1
      · exact hJ.2 (by simpa using hc)

theorem Inv.logWrite_returns (h : Inv J held l s) (room : l.length < 29)
    (hout : 1 ≤ s.ctx.outstanding) : ∃ s', (Log.logWrite i).run s = .ok () s' := by
  unfold Log.logWrite
  have h1 : ¬ ((LOGSIZE : ℤ) ≤ s.ctx.lh.n ∨ s.ctx.size - 1 ≤ s.ctx.lh.n) := by
    rw [h.ctx.n, h.ctx.size]
    simp only [LOGSIZE]
    omega
  have h2 : ¬ s.ctx.outstanding < 1 := by omega
  simp only [Comp.bind_get_run, Comp.run_ite, h1, h2, ↓reduceIte, modCtx, Comp.bind_modify_run]
  split
  · exact ⟨_, (Comp.run_bind_of_ok (Blk.liftBio_run_of_ok rfl)).trans rfl⟩
  · exact ⟨_, rfl⟩

end LogWrite

end Log

end EasyXv6.Fs
