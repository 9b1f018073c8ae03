import EasyXv6.Fs.Transaction

set_option autoImplicit false

/-!
# Crash atomicity of the log

A run is a sequence of recoveries and transactions, each of which a crash may cut short.
-/
namespace EasyXv6.Fs.Log
open Lib Blk

/-- The writes `done` of a computation with outcome `o` reach the disk before a crash. -/
def CrashAfter {α : Type} (s : Blk) (o : Outcome Blk α) (done : List (ℕ × Block)) : Prop :=
  ∃ ws, o.state.bio.issued = s.bio.issued ++ ws ∧ done <+: ws

inductive Machine
  | off (disk : ℕ → Block)
  | on (s : Blk)

/-- A transaction of a run, with the writes that preceded the crash if one interrupted it. -/
inductive Item
  | returned (t : Transaction)
  | interrupted (t : Transaction) (done : List (ℕ × Block))

/-- The runs of a machine whose disk holds `D` at first. -/
inductive Run (D : ℕ → Block) : List Item → Machine → Prop
  | start {d : ℕ → Block} (h : Recoverable D d) : Run D [] (.off d)
  | recovered {items : List Item} {d : ℕ → Block} {s : Blk} (r : Run D items (.off d))
      (h : (logInit ROOTDEV formatted).run (boot d) = .ok () s) : Run D items (.on s)
  | crashedInRecovery {items : List Item} {d : ℕ → Block} {done : List (ℕ × Block)}
      (r : Run D items (.off d))
      (h : CrashAfter (boot d) ((logInit ROOTDEV formatted).run (boot d)) done) :
      Run D items (.off (applyWrites done d))
  | transacted {items : List Item} {s s' : Blk} (r : Run D items (.on s)) (t : Transaction)
      (h : t.run.run s = .ok () s') : Run D (items ++ [.returned t]) (.on s')
  | crashedInTransaction {items : List Item} {s : Blk} {done : List (ℕ × Block)}
      (r : Run D items (.on s)) (t : Transaction) (h : CrashAfter s (t.run.run s) done) :
      Run D (items ++ [.interrupted t done]) (.off (applyWrites done s.bio.disk))
  | poweredOff {items : List Item} {s : Blk} (r : Run D items (.on s)) :
      Run D items (.off s.bio.disk)

def Item.returned? : Item → Option Transaction
  | .returned t => some t
  | .interrupted _ _ => none

def Item.committed? : Item → Option Transaction
  | .returned t => some t
  | .interrupted t done => if atCommitPoint done then some t else none

/-- The transactions whose `end_op` returned. -/
def returns (items : List Item) : List Transaction := items.filterMap Item.returned?

/-- The transactions that returned or reached their commit point before the crash. -/
def commits (items : List Item) : List Transaction := items.filterMap Item.committed?

/-- The contents after the transactions `ts`, in order. -/
def effects (ts : List Transaction) (D : ℕ → Block) : ℕ → Block :=
  ts.foldl (fun c t => t.effect c) D

theorem effects_returned (items : List Item) (t : Transaction) (D : ℕ → Block) :
    effects (commits (items ++ [.returned t])) D = t.effect (effects (commits items) D) := by
  unfold effects commits
  rw [List.filterMap_append, List.foldl_append]
  rfl

theorem effects_interrupted (items : List Item) (t : Transaction) (done : List (ℕ × Block))
    (D : ℕ → Block) : effects (commits (items ++ [.interrupted t done])) D =
      if atCommitPoint done then t.effect (effects (commits items) D)
      else effects (commits items) D := by
  unfold effects commits
  rw [List.filterMap_append, List.foldl_append]
  cases h : atCommitPoint done <;> simp [Item.committed?, h]

/-- Between transactions: nothing is in use and the disk holds `C`. -/
structure Settled (C : ℕ → Block) (s : Blk) : Prop where
  inv : Inv ∅ [] [] s
  outstanding : s.ctx.outstanding = 0
  committing : s.ctx.committing = false
  clean : (s.bio.disk 2).headerN = 0
  disk : ∀ b, ¬ InLog b → s.bio.disk b = C b

section Transaction

variable {C : ℕ → Block} {s : Blk}

theorem Settled.within (h : Settled C s) :
    Within s.bio.disk C ⟨[], []⟩ [] { s with ctx := { s.ctx with outstanding := 1 } } where
  inv := ⟨∅, [], ⟨h.inv.bio, ⟨h.inv.ctx.dev, h.inv.ctx.start, h.inv.ctx.size, h.inv.ctx.n,
    h.inv.ctx.block⟩, h.inv.nodup, h.inv.home, h.inv.short, h.inv.disj⟩, by simp⟩
  refs := rfl
  cover := by simp
  view := fun b hb => (h.inv.bio.view_of_clean (by simp) (by simp)).trans (h.disk b hb)
  disk := rfl
  outstanding := rfl
  committing := h.committing

/-- A crash in a transaction leaves the old contents up to the commit point and the new ones from
    it on; a transaction that returns leaves the new ones. -/
theorem Settled.transaction (h : Settled C s) (t : Transaction) :
    (∀ done, CrashAfter s (t.run.run s) done →
      Recoverable (if atCommitPoint done then t.effect C else C) (applyWrites done s.bio.disk)) ∧
    ∀ s', t.run.run s = .ok () s' → Settled (t.effect C) s' := by
  have old : Recoverable C s.bio.disk := .of_clean h.clean h.disk
  have hbegin := beginOp_returns (s := s) h.inv.ctx.n h.outstanding h.committing
  have hrun : t.run.run s = (do runActs t.acts []; endOp : Comp Blk Unit).run
      { s with ctx := { s.ctx with outstanding := 1 } } := Comp.run_bind_of_ok hbegin
  have quiet := runActs_quiet t.acts [] { s with ctx := { s.ctx with outstanding := 1 } }
  rw [hrun]
  cases hbody : (runActs t.acts []).run { s with ctx := { s.ctx with outstanding := 1 } } with
  | halt w u =>
    rw [hbody] at quiet
    rw [Comp.run_bind_of_halt hbody]
    refine ⟨?_, fun s' hs => by cases hs⟩
    rintro done ⟨ws, hws, hdone⟩
    rw [List.append_right_eq_self.mp (hws.symm.trans quiet.2), List.prefix_nil] at hdone
    subst hdone
    exact old
  | ok a u =>
    rw [hbody] at quiet
    rw [Comp.run_bind_of_ok hbody]
    have after := h.within.acts t.complete hbody
    obtain ⟨J, l, inv, sub⟩ := after.inv
    have hJ : J = ∅ := Set.eq_empty_of_forall_notMem fun b hb => by simpa using sub b hb
    subst hJ
    obtain ⟨v, ws, hend, inv', out, com, trace, iss, view, -⟩ :=
      endOp_returns inv (by simp) after.outstanding after.committing
    have disk' : v.bio.disk = applyWrites ws s.bio.disk := by
      rw [iss.disk, after.disk]
    have issued' : v.bio.issued = s.bio.issued ++ ws := 
      iss.issued.trans (congrArg (· ++ ws) quiet.2)
    have new : ∀ b, ¬ InLog b → committed l u.bio.view s.bio.disk b = t.effect C b := by
      intro b hb
      unfold committed
      split
      · exact after.view b hb
      next hn =>
      rw [← after.disk, ← inv.bio.view_of_clean hn (by simp)]
      exact after.view b hb
    obtain ⟨crash, clean, disk⟩ := crash_commit h.clean inv.short inv.home trace
    rw [hend]
    refine ⟨?_, ?_⟩
    · rintro done ⟨ws', hws', hdone⟩
      cases List.append_cancel_left (issued'.symm.trans hws')
      rw [List.prefix_iff_eq_take.mp hdone]
      have hk := crash done.length
      split
      next hc =>
        rw [if_pos hc] at hk
        exact hk.congr new
      next hc =>
        rw [if_neg hc] at hk
        exact hk.congr h.disk
    · rintro s' hs
      cases hs
      refine ⟨inv', out, com, ?_, ?_⟩
      · rw [disk']
        exact clean
      · intro b hb
        rw [disk', disk b hb, new b hb]

end Transaction

section Runs

variable {D : ℕ → Block} {items : List Item}

/-- What holds of the machine after every run. -/
def Good (D : ℕ → Block) (items : List Item) : Machine → Prop
  | .off d => Recoverable (effects (commits items) D) d
  | .on s => Settled (effects (commits items) D) s

theorem Run.good {m : Machine} (r : Run D items m) : Good D items m := by
  induction r with
  | start h => exact h
  | recovered r h ih =>
    obtain ⟨s', ws, hrun, inv, out, com, _, _, clean, disk⟩ := logInit_returns ih
    rw [hrun] at h
    cases h
    exact ⟨inv, out, com, clean, disk⟩
  | crashedInRecovery r h ih =>
    obtain ⟨s', ws, hrun, _, _, _, iss, crash, _⟩ := logInit_returns ih
    obtain ⟨ws', hws', hdone⟩ := h
    rw [hrun] at hws'
    cases List.append_cancel_left (iss.issued.symm.trans hws')
    rw [List.prefix_iff_eq_take.mp hdone]
    exact crash _
  | transacted r t h ih =>
    change Settled _ _
    rw [effects_returned]
    exact (Settled.transaction ih t).2 _ h
  | crashedInTransaction r t h ih =>
    change Recoverable _ _
    rw [effects_interrupted]
    exact (Settled.transaction ih t).1 _ h
  | poweredOff r ih => exact .of_clean ih.clean ih.disk

end Runs

end EasyXv6.Fs.Log
