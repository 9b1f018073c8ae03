import EasyXv6.Fs.Inode
import EasyXv6.Fs.Recovery

set_option autoImplicit false

/-!
# Blocks between `begin_op` and `end_op`

`V c` is the contents of the block `c` as the kernel sees them, or nothing if its buffer may have
been changed without a `log_write`: such a buffer falls back to the disk when it is reused.
-/
namespace EasyXv6.Fs
open Lib

abbrev Image := ℕ → Option Block

/-- The blocks whose contents are not certain. -/
def Image.unsure (V : Image) : Set ℕ := {c | V c = none}

namespace Vol

/-- The contents of a block as the kernel sees them. -/
def view (s : Vol) (c : ℕ) : Block := s.blk.bio.view c

/-- Inside a system call: `o` transactions are open, the buffers of `held` are in use, the open
    transaction has recorded the blocks of `l`. -/
structure At (o : ℤ) (held : List (Fin NBUF × ℕ)) (l : List ℕ) (V : Image) (s : Vol) : Prop where
  inv : Log.Inv V.unsure (held.map Prod.fst) l s.blk
  holds : ∀ x ∈ held, s.blk.bio.Holds x.1 x.2
  view : ∀ c d, ¬ Log.InLog c → V c = some d → s.view c = d
  outstanding : s.blk.ctx.outstanding = o
  committing : s.blk.ctx.committing = false
  sb : s.sb = Log.formatted

/-- Only the cache and the log have changed, and nothing has reached the disk. -/
structure OnlyBlk (s s' : Vol) : Prop where
  rest : s' = { s with blk := s'.blk }
  disk : s'.blk.bio.disk = s.blk.bio.disk

theorem OnlyBlk.refl (s : Vol) : OnlyBlk s s := ⟨rfl, rfl⟩

theorem OnlyBlk.trans {s t u : Vol} (h : OnlyBlk s t) (h' : OnlyBlk t u) : OnlyBlk s u := by
  refine ⟨?_, h'.disk.trans h.disk⟩
  rw [h'.rest, h.rest]

theorem OnlyBlk.inode {s s' : Vol} (h : OnlyBlk s s') : s'.inode = s.inode := by rw [h.rest]

theorem OnlyBlk.user {s s' : Vol} (h : OnlyBlk s s') : s'.user = s.user := by rw [h.rest]

theorem OnlyBlk.de {s s' : Vol} (h : OnlyBlk s s') : s'.de = s.de := by rw [h.rest]

/-- A call of `bread` or of `brelse`. -/
inductive Moves : Bio → Bio → Prop
  | bread {c c' : Bio} {dev b : ℕ} {i : Fin NBUF} (h : (Bio.bread dev b).run c = .ok i c') : Moves c c'
  | brelse {c c' : Bio} {i : Fin NBUF} (h : (Bio.brelse i).run c = .ok () c') : Moves c c'

/-- Buffers have been read, and none has been changed: a block shows what it did, or what is on the
    disk. -/
structure Reread (s s' : Vol) : Prop where
  rest : s' = { s with blk := { s.blk with bio := s'.blk.bio } }
  disk : s'.blk.bio.disk = s.blk.bio.disk
  fall : ∀ c, s'.view c = s.view c ∨ s'.view c = s.blk.bio.disk c
  moves : Relation.ReflTransGen Moves s.blk.bio s'.blk.bio

theorem Reread.refl (s : Vol) : Reread s s := ⟨rfl, rfl, fun _ => Or.inl rfl, .refl⟩

theorem Reread.trans {s t u : Vol} (h : Reread s t) (h' : Reread t u) : Reread s u := by
  refine ⟨?_, h'.disk.trans h.disk, fun c => ?_, h.moves.trans h'.moves⟩
  · rw [h'.rest, h.rest]
  · rcases h'.fall c with e | e
    · rw [e]
      exact h.fall c
    · rw [e, h.disk]
      exact Or.inr rfl

theorem Reread.onlyBlk {s s' : Vol} (h : Reread s s') : OnlyBlk s s' := by
  refine ⟨?_, h.disk⟩
  rw [h.rest]

theorem Reread.falls {s s' : Vol} (h : Reread s s') (c : ℕ) : Log.Falls c s.blk s'.blk :=
  ⟨h.fall c, congrFun h.disk c⟩

theorem OnlyBlk.falls {s s' : Vol} {b c : ℕ} {d : Block} (h : OnlyBlk s s')
    (view : s'.view = Function.update s.view b d) (hc : c ≠ b) : Log.Falls c s.blk s'.blk :=
  ⟨Or.inl ((congrFun view c).trans (Function.update_of_ne hc ..)), congrFun h.disk c⟩

variable {o : ℤ} {held : List (Fin NBUF × ℕ)} {l : List ℕ} {V : Image} {s : Vol} {i : Fin NBUF}
  {b : ℕ} {d : Block} {E : String → Vol → Prop}

theorem At.congr {s' : Vol} (h : At o held l V s) (blk : s'.blk = s.blk) (sb : s'.sb = s.sb) :
    At o held l V s' := by
  refine ⟨blk ▸ h.inv, blk ▸ h.holds, ?_, blk ▸ h.outstanding, blk ▸ h.committing, sb.trans h.sb⟩
  intro c d hc hd
  unfold Vol.view
  rw [blk]
  exact h.view c d hc hd

theorem At.lt_of_held (h : At o held l V s) (hi : (i, b) ∈ held) : b < FSSIZE :=
  h.inv.bio.wf.lt_of_holds (h.holds _ hi)

theorem At.data_eq (h : At o held l V s) (hi : (i, b) ∈ held) : (s.blk.bio.buf i).data = s.view b :=
  (h.inv.bio.wf.view_of_holds (h.holds _ hi)).symm

/-- Room for one more buffer. -/
def Spare (held : List (Fin NBUF × ℕ)) (l : List ℕ) : Prop := held.length + l.length < NBUF

/-- `bread` where there is room for one more buffer, or any panic is allowed. -/
theorem bread_or_sat (h : At o held l V s) (hb : b < FSSIZE) (room : Spare held l ∨ ∀ w t, E w t) :
    Comp.Sat (bread ROOTDEV b) s E fun i s' => At o ((i, b) :: held) l V s' ∧ OnlyBlk s s' ∧
      s'.view b = s.view b ∧ Reread s s' := by
  refine .of_outcome (fun i t hr => ?_) fun w t hr => ?_
  · obtain ⟨u, hu, rfl⟩ := (Comp.zoom_ok_iff _ _ _ _ _ _).mp hr
    obtain ⟨v, hv, rfl⟩ := (Blk.liftBio_ok_iff _ _).mp hu
    have post := h.inv.bio.bread hv
    refine ⟨⟨?_, ?_, ?_, h.outstanding, h.committing, h.sb⟩, ⟨rfl, post.disk⟩, post.view b (Or.inr rfl),
      rfl, post.disk, post.fall, .single (.bread hv)⟩
    · exact ⟨post.inv, h.inv.ctx, h.inv.nodup, h.inv.home, h.inv.short, h.inv.disj⟩
    · intro x hx
      rcases List.mem_cons.mp hx with rfl | hx
      · exact post.holds
      · exact (post.others x.1 (List.mem_map_of_mem hx)).2 x.2 (h.holds x hx)
    · intro c e hc he
      rw [← h.view c e hc he]
      exact post.view c (Or.inl fun hn => by simp [Image.unsure, he] at hn)
  · refine room.resolve_left (fun spare => ?_) w t
    obtain ⟨i, u, hu⟩ := h.inv.bio.bread_returns hb (Or.inr (by rwa [List.length_map]))
    cases hr.symm.trans (Comp.zoom_run_of_ok (Blk.liftBio_run_of_ok hu))

theorem bread_sat (h : At o held l V s) (hb : b < FSSIZE) (room : Spare held l) :
    Comp.Sat (bread ROOTDEV b) s E fun i s' => At o ((i, b) :: held) l V s' ∧ OnlyBlk s s' ∧
      s'.view b = s.view b ∧ Reread s s' := bread_or_sat h hb (Or.inl room)

theorem data_sat (h : At o held l V s) (hi : (i, b) ∈ held) :
    Comp.Sat (data i) s E fun d s' => s' = s ∧ d = s.view b :=
  .of_run (t := s) rfl ⟨rfl, h.data_eq hi⟩

theorem brelse_sat (h : At o ((i, b) :: held) l V s) :
    Comp.Sat (brelse i) s E fun _ s' => At o held l V s' ∧ OnlyBlk s s' ∧ s'.view = s.view ∧
      Reread s s' := by
  have hi : i ∈ ((i, b) :: held).map Prod.fst := List.mem_cons_self
  obtain ⟨t, hr⟩ := h.inv.bio.brelse_returns hi
  obtain ⟨inv, same⟩ := h.inv.bio.brelse hi hr
  rw [List.map_cons, List.erase_cons_head] at inv
  refine .of_run (Comp.zoom_run_of_ok (Blk.liftBio_run_of_ok hr)) ⟨?_, ⟨rfl, same.disk⟩, ?_⟩
  · refine ⟨?_, ?_, ?_, h.outstanding, h.committing, h.sb⟩
    · exact ⟨inv, h.inv.ctx, h.inv.nodup, h.inv.home, h.inv.short, h.inv.disj⟩
    · intro x hx
      exact (same.holds _ _).mpr (h.holds x (List.mem_cons_of_mem _ hx))
    · intro c e hc he
      rw [← h.view c e hc he]
      exact same.view c
  · exact ⟨funext same.view, rfl, same.disk, fun c => Or.inl (same.view c), .single (.brelse hr)⟩

/-- The log after `log_write` of the block `b`. -/
def noted (b : ℕ) (l : List ℕ) : List ℕ := if b ∈ l then l else l ++ [b]

/-- A change of a held buffer that is not recorded. -/
theorem setData_sat (h : At o held l V s) (hi : (i, b) ∈ held) (hb : ¬ Log.InLog b)
    (f : Block → Block) : Comp.Sat (setData i f) s E fun _ s' =>
      At o held l (Function.update V b (if b ∈ l then some (f (s.view b)) else none)) s' ∧
        OnlyBlk s s' ∧ s'.view = Function.update s.view b (f (s.view b)) := by
  have holds : s.blk.bio.Holds i b := h.holds _ hi
  have mem : i ∈ held.map Prod.fst := List.mem_map_of_mem (f := Prod.fst) hi
  obtain ⟨t, ht⟩ : ∃ t, t = s.blk.bio.modBuf i fun c => { c with data := f c.data } := ⟨_, rfl⟩
  obtain ⟨inv, disk, issued, keep, -, -, view⟩ := h.inv.bio.setData mem holds f t ht
  have hr : (setData i f).run s = .ok () { s with blk := { s.blk with bio := t } } := by
    unfold setData onBlk
    rw [Comp.zoom_run_of_ok (Blk.setData_run ht.symm)]
  refine .of_run hr ⟨?_, ⟨rfl, disk⟩, view⟩
  have unsure : Image.unsure (Function.update V b (if b ∈ l then some (f (s.view b)) else none)) =
      if b ∈ l then V.unsure else insert b V.unsure := by
    ext c
    by_cases hc : c = b
    · subst hc
      by_cases hl : c ∈ l
      · simp [Image.unsure, hl, show V c ≠ none from h.inv.disj c hl]
      · simp [Image.unsure, hl]
    · by_cases hl : b ∈ l <;> simp [Image.unsure, hl, hc]
  refine ⟨?_, ?_, ?_, h.outstanding, h.committing, h.sb⟩
  · rw [unsure]
    refine ⟨inv, h.inv.ctx, h.inv.nodup, h.inv.home, h.inv.short, ?_⟩
    intro c hc hJ
    split at hJ
    · exact h.inv.disj c hc hJ
    next hn =>
    rcases hJ with rfl | hJ
    · exact hn hc
    · exact h.inv.disj c hc hJ
  · intro x hx
    exact (keep _ _).mpr (h.holds x hx)
  · intro c e hc he
    change t.view c = e
    rw [view]
    by_cases hcb : c = b
    · subst hcb
      rw [Function.update_self] at he ⊢
      split at he
      · exact Option.some.inj he
      · cases he
    · rw [Function.update_of_ne hcb] at he ⊢
      exact h.view c e hc he

theorem logWrite_or_sat (h : At 1 held l V s) (hi : (i, b) ∈ held) (hb : ¬ Log.InLog b)
    (room : l.length < 29 ∨ ∀ w t, E w t) : Comp.Sat (logWrite i) s E fun _ s' =>
      At 1 held (noted b l) (Function.update V b (some (s.view b))) s' ∧ OnlyBlk s s' ∧
        s'.view = s.view := by
  refine .of_outcome (fun _ t hr => ?_) fun w t hr => ?_
  rotate_left
  · refine room.resolve_left (fun short => ?_) w t
    obtain ⟨u, hu⟩ := h.inv.logWrite_returns (i := i) short (by rw [h.outstanding])
    cases hr.symm.trans (Comp.zoom_run_of_ok hu)
  obtain ⟨u, hu, rfl⟩ := (Comp.zoom_ok_iff _ _ _ _ _ _).mp hr
  obtain ⟨inv, same, out, com, -, -⟩ := h.inv.logWrite (h.holds _ hi) hb hu
  refine ⟨?_, ⟨rfl, same.disk⟩, funext same.view⟩
  have unsure : Image.unsure (Function.update V b (some (s.view b))) = V.unsure \ {b} := by
    ext c
    by_cases hc : c = b
    · subst hc
      simp [Image.unsure]
    · simp [Image.unsure, hc]
  refine ⟨?_, ?_, ?_, out.trans h.outstanding, com.trans h.committing, h.sb⟩
  · rw [unsure]
    exact inv
  · intro x hx
    exact (same.holds _ _).mpr (h.holds x hx)
  · intro c e hc he
    refine (same.view c).trans ?_
    by_cases hcb : c = b
    · subst hcb
      rw [Function.update_self] at he
      exact Option.some.inj he
    · rw [Function.update_of_ne hcb] at he
      exact h.view c e hc he

/-- A change of a held buffer that is recorded at once. -/
theorem modify_or_sat (h : At 1 held l V s) (hi : (i, b) ∈ held) (hb : ¬ Log.InLog b)
    (room : l.length < 29 ∨ ∀ w t, E w t) (f : Block → Block) {α : Type} {k : Comp Vol α}
    {Q : α → Vol → Prop}
    (next : ∀ s', At 1 held (noted b l) (Function.update V b (some (f (s.view b)))) s' →
      OnlyBlk s s' → s'.view = Function.update s.view b (f (s.view b)) → Comp.Sat k s' E Q) :
    Comp.Sat (setData i f >>= fun _ => logWrite i >>= fun _ => k) s E Q := by
  refine .call (setData_sat h hi hb f) ?_
  rintro _ s₁ ⟨h₁, only₁, view₁⟩
  refine .call (logWrite_or_sat h₁ hi hb room) ?_
  rintro _ s₂ ⟨h₂, only₂, view₂⟩
  rw [view₁, Function.update_self, Function.update_idem] at h₂
  exact next s₂ h₂ (only₁.trans only₂) (view₂.trans view₁)

theorem modify_sat (h : At 1 held l V s) (hi : (i, b) ∈ held) (hb : ¬ Log.InLog b)
    (room : l.length < 29) (f : Block → Block) {α : Type} {k : Comp Vol α} {Q : α → Vol → Prop}
    (next : ∀ s', At 1 held (noted b l) (Function.update V b (some (f (s.view b)))) s' →
      OnlyBlk s s' → Comp.Sat k s' E Q) :
    Comp.Sat (setData i f >>= fun _ => logWrite i >>= fun _ => k) s E Q :=
  modify_or_sat h hi hb (Or.inl room) f fun s' h' only _ => next s' h' only

section Noted

theorem mem_noted {c : ℕ} : c ∈ noted b l ↔ c = b ∨ c ∈ l := by
  unfold noted
  split
  next hb =>
    constructor
    · exact Or.inr
    · rintro (rfl | hc)
      · exact hb
      · exact hc
  next => simp [or_comm]

theorem noted_length_le (b : ℕ) (l : List ℕ) : (noted b l).length ≤ l.length + 1 := by
  unfold noted
  split
  · omega
  · simp

/-- The open transaction has recorded the blocks of `l'`: those of `l` and none but those in `F`. -/
structure Logged (F : Set ℕ) (l l' : List ℕ) : Prop where
  keep : ∀ c ∈ l, c ∈ l'
  only : ∀ c ∈ l', c ∈ l ∨ c ∈ F

theorem Logged.refl (F : Set ℕ) (l : List ℕ) : Logged F l l := ⟨fun _ h => h, fun _ h => Or.inl h⟩

theorem Logged.noted {F : Set ℕ} {b : ℕ} (l : List ℕ) (h : b ∈ F) : Logged F l (Vol.noted b l) := by
  refine ⟨fun c hc => mem_noted.mpr (Or.inr hc), fun c hc => ?_⟩
  rcases mem_noted.mp hc with rfl | hc
  · exact Or.inr h
  · exact Or.inl hc

theorem Logged.trans {F G : Set ℕ} {l l' l'' : List ℕ} (h : Logged F l l') (h' : Logged G l' l'') :
    Logged (F ∪ G) l l'' := by
  refine ⟨fun c hc => h'.keep c (h.keep c hc), fun c hc => ?_⟩
  rcases h'.only c hc with hc | hc
  · rcases h.only c hc with hc | hc
    · exact Or.inl hc
    · exact Or.inr (Or.inl hc)
  · exact Or.inr (Or.inr hc)

theorem Logged.mono {F G : Set ℕ} {l l' : List ℕ} (h : Logged F l l') (hFG : F ⊆ G) :
    Logged G l l' :=
  ⟨h.keep, fun c hc => (h.only c hc).imp id (fun hF => hFG hF)⟩

end Noted

end Vol

end EasyXv6.Fs
