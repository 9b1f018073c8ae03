import EasyXv6.Fs.Recovery

set_option autoImplicit false

/-!
# Transactions

What the callers of the log do between `begin_op` and `end_op`: they read blocks, change the
buffers they hold, record each change by `log_write` and release the buffers.
-/
namespace EasyXv6.Fs.Log
open Lib Blk

inductive Act
  | bread (b : ℕ)
  | modify (k : ℕ) (f : Block → Block)
  | logWrite (k : ℕ)
  | brelse (k : ℕ)

/-- The blocks of the references that a transaction holds, and the blocks that it has changed and
    not yet recorded. -/
structure Refs where
  held : List ℕ
  dirty : List ℕ

namespace Act

/-- The rules of use: no block of the log is changed, and a change is recorded before its buffer
    is released. -/
def next : Act → Refs → Option Refs
  | bread b, r => some { r with held := b :: r.held }
  | modify k _, r => match r.held[k]? with
    | some b => if InLog b then none else some { r with dirty := b :: r.dirty }
    | none => none
  | logWrite k, r => match r.held[k]? with
    | some b => if InLog b then none else some { r with dirty := r.dirty.filter (· ≠ b) }
    | none => none
  | brelse k, r => match r.held[k]? with
    | some b => if b ∈ r.dirty then none else some { r with held := r.held.eraseIdx k }
    | none => none

def effect : Act → Refs → (ℕ → Block) → ℕ → Block
  | modify k f, r, c => match r.held[k]? with
    | some b => Function.update c b (f (c b))
    | none => c
  | _, _, c => c

/-- The `k`-th reference in use. -/
def ref (held : List (Fin NBUF)) (k : ℕ) : Comp Blk (Fin NBUF) :=
  match held[k]? with
  | some i => return i
  | none => .halt "no such reference"

def run : Act → List (Fin NBUF) → Comp Blk (List (Fin NBUF))
  | bread b, held => do
    let i ← Blk.bread ROOTDEV b
    return i :: held
  | modify k f, held => do
    let i ← ref held k
    setData i f
    return held
  | logWrite k, held => do
    let i ← ref held k
    Log.logWrite i
    return held
  | brelse k, held => do
    let i ← ref held k
    Blk.brelse i
    return held.eraseIdx k

end Act

def refsAfter : List Act → Refs → Option Refs
  | [], r => some r
  | a :: as, r => (a.next r).bind (refsAfter as)

def effectOf : List Act → Refs → (ℕ → Block) → ℕ → Block
  | [], _, c => c
  | a :: as, r, c => match a.next r with
    | some r' => effectOf as r' (a.effect r c)
    | none => c

def runActs : List Act → List (Fin NBUF) → Comp Blk Unit
  | [], _ => return ()
  | a :: as, held => do
    let held' ← a.run held
    runActs as held'

/-- A transaction that keeps the rules and ends with every buffer released. -/
structure Transaction where
  acts : List Act
  complete : refsAfter acts ⟨[], []⟩ = some ⟨[], []⟩

namespace Transaction

def run (t : Transaction) : Comp Blk Unit := do
  beginOp
  runActs t.acts []
  endOp

/-- The contents of the disk after the transaction. -/
def effect (t : Transaction) : (ℕ → Block) → ℕ → Block := effectOf t.acts ⟨[], []⟩

end Transaction

section Within

theorem cons_eraseIdx_perm {α : Type} {l : List α} {k : ℕ} {a : α} (h : l[k]? = some a) :
    (a :: l.eraseIdx k).Perm l := by
  obtain ⟨hk, rfl⟩ := List.getElem?_eq_some_iff.mp h
  exact List.getElem_cons_eraseIdx_perm hk

/-- Inside a transaction over the disk `d`: the cache shows `c` outside the log. -/
structure Within (d c : ℕ → Block) (r : Refs) (held : List (Fin NBUF)) (s : Blk) : Prop where
  inv : ∃ J l, Inv J held l s ∧ ∀ b ∈ J, b ∈ r.dirty
  refs : held.map (fun i => (s.bio.buf i).blockno) = r.held
  cover : ∀ b ∈ r.dirty, b ∈ r.held
  view : ∀ b, ¬ InLog b → s.bio.view b = c b
  disk : s.bio.disk = d
  outstanding : s.ctx.outstanding = 1
  committing : s.ctx.committing = false

variable {d c : ℕ → Block} {r r' : Refs} {held held' : List (Fin NBUF)} {s s' : Blk}

theorem Within.ref (h : Within d c r held s) {k b : ℕ} (hk : r.held[k]? = some b) :
    ∃ i, held[k]? = some i ∧ i ∈ held ∧ s.bio.Holds i b := by
  obtain ⟨J, l, inv, sub⟩ := h.inv
  rw [← h.refs, List.getElem?_map, Option.map_eq_some_iff] at hk
  obtain ⟨i, hi, rfl⟩ := hk
  have hm := List.mem_of_getElem? hi
  exact ⟨i, hi, hm, inv.bio.holds_of_mem hm⟩

theorem Act.ref_run {k : ℕ} {i : Fin NBUF} (hi : held[k]? = some i) :
    (Act.ref held k).run s = .ok i s := by
  unfold Act.ref
  rw [hi]
  rfl

theorem refs_congr {t t' : Bio} (h : ∀ j ∈ held, t.Holds j (t.buf j).blockno)
    (keep : ∀ j ∈ held, ∀ b, t.Holds j b → t'.Holds j b) :
    held.map (fun i => (t'.buf i).blockno) = held.map (fun i => (t.buf i).blockno) :=
  List.map_congr_left fun j hj => (keep j hj _ (h j hj)).2

theorem Within.bread {b : ℕ} (h : Within d c r held s)
    (hr : ((Act.bread b).run held).run s = .ok held' s') :
    Within d c { r with held := b :: r.held } held' s' := by
  obtain ⟨J, l, inv, sub⟩ := h.inv
  obtain ⟨i, t, hb, hr⟩ := (Comp.bind_ok_iff _ _ _ _ _).mp hr
  cases hr
  obtain ⟨u, hu, rfl⟩ := (liftBio_ok_iff _ _).mp hb
  have post := inv.bio.bread hu
  refine ⟨⟨J, l, ⟨post.inv, inv.ctx, inv.nodup, inv.home, inv.short, inv.disj⟩, sub⟩, ?_, ?_, ?_,
    post.disk.trans h.disk, h.outstanding, h.committing⟩
  · rw [List.map_cons, post.holds.2, ← h.refs]
    exact congrArg _ (refs_congr (fun j hj => inv.bio.holds_of_mem hj)
      (fun j hj => (post.others j hj).2))
  · intro e he
    exact List.mem_cons_of_mem _ (h.cover e he)
  · intro e he
    rw [← h.view e he]
    by_cases hd : e ∈ r.dirty
    · have hm := h.cover e hd
      rw [← h.refs, List.mem_map] at hm
      obtain ⟨j, hj, rfl⟩ := hm
      have old := inv.bio.holds_of_mem hj
      obtain ⟨data, keep⟩ := post.others j hj
      rw [inv.bio.wf.view_of_holds old, ← data]
      exact post.inv.wf.view_of_holds (keep _ old)
    · exact post.view e (Or.inl (fun hJ => hd (sub e hJ)))

theorem Within.modify {k b : ℕ} {f : Block → Block} (h : Within d c r held s)
    (hk : r.held[k]? = some b) (hb : ¬ InLog b)
    (hr : ((Act.modify k f).run held).run s = .ok held' s') :
    Within d (Function.update c b (f (c b))) { r with dirty := b :: r.dirty } held' s' := by
  obtain ⟨J, l, inv, sub⟩ := h.inv
  obtain ⟨i, hi, hm, holds⟩ := h.ref hk
  obtain ⟨inv', disk, issued, keep, _, _, view⟩ := inv.bio.setData hm holds f _ rfl
  rw [Act.run, Comp.run_bind_of_ok (Act.ref_run hi), Comp.run_bind_of_ok (setData_run rfl)] at hr
  cases hr
  refine ⟨⟨if b ∈ l then J else insert b J, l, ⟨inv', inv.ctx, inv.nodup, inv.home, inv.short, ?_⟩,
    ?_⟩, ?_, ?_, ?_, disk.trans h.disk, h.outstanding, h.committing⟩
  · intro e he hJ
    split at hJ
    · exact inv.disj e he hJ
    next hn =>
    rcases hJ with rfl | hJ
    · exact hn he
    · exact inv.disj e he hJ
  · intro e he
    split at he
    · exact List.mem_cons_of_mem _ (sub e he)
    rcases he with rfl | he
    · exact List.mem_cons_self
    · exact List.mem_cons_of_mem _ (sub e he)
  · rw [← h.refs]
    exact refs_congr (fun j hj => inv.bio.holds_of_mem hj) (fun j _ e he => (keep j e).mpr he)
  · intro e he
    rcases List.mem_cons.mp he with rfl | he
    · exact List.mem_of_getElem? hk
    · exact h.cover e he
  · intro e he
    rw [view]
    by_cases hne : e = b
    · subst hne
      rw [Function.update_self, Function.update_self, h.view e he]
    · rw [Function.update_of_ne hne, Function.update_of_ne hne, h.view e he]

/-- What a step that shows no change leaves. -/
theorem Within.of_same {J : Set ℕ} {l : List ℕ} (h : Within d c r held s) (inv : Inv J held' l s')
    (sub : ∀ b ∈ J, b ∈ r'.dirty) (same : Bio.Same s.bio s'.bio)
    (refs : held'.map (fun i => (s.bio.buf i).blockno) = r'.held) (cover : ∀ b ∈ r'.dirty, b ∈ r'.held)
    (hs : ∀ j ∈ held', s.bio.Holds j (s.bio.buf j).blockno) (out : s'.ctx.outstanding = s.ctx.outstanding)
    (com : s'.ctx.committing = s.ctx.committing) : Within d c r' held' s' where
  inv := ⟨J, l, inv, sub⟩
  refs := (refs_congr hs (fun j _ e he => (same.holds j e).mpr he)).trans refs
  cover := cover
  view := fun b hb => (same.view b).trans (h.view b hb)
  disk := same.disk.trans h.disk
  outstanding := out.trans h.outstanding
  committing := com.trans h.committing

theorem Within.logWrite {k b : ℕ} (h : Within d c r held s) (hk : r.held[k]? = some b)
    (hb : ¬ InLog b) (hr : ((Act.logWrite k).run held).run s = .ok held' s') :
    Within d c { r with dirty := r.dirty.filter (· ≠ b) } held' s' := by
  obtain ⟨J, l, inv, sub⟩ := h.inv
  obtain ⟨i, hi, hm, holds⟩ := h.ref hk
  rw [Act.run, Comp.run_bind_of_ok (Act.ref_run hi)] at hr
  obtain ⟨_, t, hl, hr⟩ := (Comp.bind_ok_iff _ _ _ _ _).mp hr
  cases hr
  obtain ⟨inv', same, out, com, _⟩ := inv.logWrite holds hb hl
  refine h.of_same inv' ?_ same h.refs ?_ (fun j hj => inv.bio.holds_of_mem hj) out com
  · rintro e ⟨he, hne⟩
    exact List.mem_filter.mpr ⟨sub e he, by simpa using hne⟩
  · intro e he
    exact h.cover e (List.mem_of_mem_filter he)

theorem Within.brelse {k b : ℕ} (h : Within d c r held s) (hk : r.held[k]? = some b)
    (hb : b ∉ r.dirty) (hr : ((Act.brelse k).run held).run s = .ok held' s') :
    Within d c { r with held := r.held.eraseIdx k } held' s' := by
  obtain ⟨J, l, inv, sub⟩ := h.inv
  obtain ⟨i, hi, hm, holds⟩ := h.ref hk
  rw [Act.run, Comp.run_bind_of_ok (Act.ref_run hi)] at hr
  obtain ⟨_, t, hl, hr⟩ := (Comp.bind_ok_iff _ _ _ _ _).mp hr
  cases hr
  obtain ⟨u, hu, rfl⟩ := (liftBio_ok_iff _ _).mp hl
  obtain ⟨inv', same⟩ := inv.bio.brelse hm hu
  have perm : (held.erase i).Perm (held.eraseIdx k) :=
    ((List.perm_cons_erase hm).symm.trans (cons_eraseIdx_perm hi).symm).cons_inv
  refine h.of_same ⟨inv'.perm perm, inv.ctx, inv.nodup, inv.home, inv.short, inv.disj⟩ sub same ?_ ?_
    (fun j hj => inv.bio.holds_of_mem (List.mem_of_mem_eraseIdx hj)) rfl rfl
  · rw [← h.refs]
    exact (List.eraseIdx_map ..).symm
  · intro e he
    have hm' := (cons_eraseIdx_perm hk).mem_iff.mpr (h.cover e he)
    rcases List.mem_cons.mp hm' with rfl | hm'
    · exact absurd he hb
    · exact hm'

/-- One act that keeps the rules. -/
theorem Within.act {a : Act} (h : Within d c r held s) (hn : a.next r = some r')
    (hr : (a.run held).run s = .ok held' s') : Within d (a.effect r c) r' held' s' := by
  cases a with
  | bread b =>
    cases hn
    exact h.bread hr
  | modify k f =>
    simp only [Act.next] at hn
    split at hn
    · next b hk =>
      split at hn
      · cases hn
      next hb =>
      cases hn
      simp only [Act.effect, hk]
      exact h.modify hk hb hr
    · cases hn
  | logWrite k =>
    simp only [Act.next] at hn
    split at hn
    · next b hk =>
      split at hn
      · cases hn
      next hb =>
      cases hn
      exact h.logWrite hk hb hr
    · cases hn
  | brelse k =>
    simp only [Act.next] at hn
    split at hn
    · next b hk =>
      split at hn
      · cases hn
      next hb =>
      cases hn
      exact h.brelse hk hb hr
    · cases hn

/-- The body of a transaction that returns has done what its acts say, in the cache only. -/
theorem Within.acts {as : List Act} (h : Within d c r held s) (hn : refsAfter as r = some ⟨[], []⟩)
    (hr : (runActs as held).run s = .ok () s') : Within d (effectOf as r c) ⟨[], []⟩ [] s' := by
  induction as generalizing c r held s with
  | nil =>
    cases hn
    cases hr
    have he := h.refs
    rw [List.map_eq_nil_iff] at he
    subst he
    exact h
  | cons a as ih =>
    obtain ⟨r', hr', hn⟩ := Option.bind_eq_some_iff.mp hn
    obtain ⟨held', t, ha, hr⟩ := (Comp.bind_ok_iff _ _ _ _ _).mp hr
    simp only [effectOf, hr']
    exact ih (h.act hr' ha) hn hr

end Within

section Quiet

def Quiet (s s' : Blk) : Prop := Bio.Quiet s.bio s'.bio

theorem Quiet.refl (s : Blk) : Quiet s s := Bio.Quiet.refl _

theorem Quiet.trans (s t u : Blk) (h : Quiet s t) (h' : Quiet t u) : Quiet s u :=
  Bio.Quiet.trans _ _ _ h h'

theorem quiet_liftBio {α : Type} {m : Comp Bio α} (h : Comp.Always Bio.Quiet m) :
    Comp.Always Quiet (liftBio m) :=
  .zoom (fun _ _ hq => hq) h

theorem logWrite_quiet (i : Fin NBUF) : Comp.Always Quiet (logWrite i) := by
  unfold logWrite
  refine .bind Quiet.trans (.get Quiet.refl) fun s => .ite (.halt Quiet.refl _) ?_
  refine .ite (.halt Quiet.refl _) (.bind Quiet.trans (.modify fun _ => ⟨rfl, rfl⟩) fun _ => ?_)
  refine .ite (.bind Quiet.trans ?_ fun _ => .modify fun _ => ⟨rfl, rfl⟩) (.pure Quiet.refl _)
  exact quiet_liftBio (.modify fun _ => ⟨rfl, rfl⟩)

theorem Act.run_quiet (a : Act) (held : List (Fin NBUF)) : Comp.Always Quiet (a.run held) := by
  have ref : ∀ k, Comp.Always Quiet (Act.ref held k) := by
    intro k
    unfold Act.ref
    split
    · exact .pure Quiet.refl _
    · exact .halt Quiet.refl _
  cases a with
  | bread b =>
    exact .bind Quiet.trans (quiet_liftBio (Bio.bread_quiet _ b)) fun _ => .pure Quiet.refl _
  | modify k f =>
    refine .bind Quiet.trans (ref k) fun i => ?_
    exact .bind Quiet.trans (quiet_liftBio (.modify fun _ => ⟨rfl, rfl⟩)) fun _ =>
      .pure Quiet.refl _
  | logWrite k =>
    refine .bind Quiet.trans (ref k) fun i => ?_
    exact .bind Quiet.trans (logWrite_quiet i) fun _ => .pure Quiet.refl _
  | brelse k =>
    refine .bind Quiet.trans (ref k) fun i => ?_
    exact .bind Quiet.trans (quiet_liftBio (Bio.brelse_quiet i)) fun _ => .pure Quiet.refl _

theorem runActs_quiet (as : List Act) (held : List (Fin NBUF)) :
    Comp.Always Quiet (runActs as held) := by
  induction as generalizing held with
  | nil => exact .pure Quiet.refl ()
  | cons a as ih => exact .bind Quiet.trans (a.run_quiet held) fun held' => ih held'

end Quiet

end EasyXv6.Fs.Log
