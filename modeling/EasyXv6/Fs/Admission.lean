import EasyXv6.Fs.Log
import EasyXv6.Lib.Trace

set_option autoImplicit false

/-!
# Who is admitted to the log (log.c)

Kernel code runs with interrupts on, and the timer gives the processor to another process after any
statement of `begin_op` and `end_op`. Of a commit only what it does to `log_ctx` is followed here.
-/
namespace EasyXv6.Fs.Log
open Lib

/-- Where a process is. -/
inductive Loc
  | out
  | waits -- in the loop of `begin_op`
  | admitted
  | inOp
  | ended -- in `end_op`, past `outstanding--`
  | checked
  | commits
  | installs
  | committed
  deriving DecidableEq

/-- The statements of the log, one at a time. -/
inductive Stmt
  | call
  | test
  | enter
  | write (blockno : ℕ)
  | leave
  | check
  | decide
  | flush
  | clear
  | finish
  deriving DecidableEq

/-- Where a process is that takes the step. -/
def Stmt.loc : Stmt → Loc
  | .call => .out
  | .test => .waits
  | .enter => .admitted
  | .write _ => .inOp
  | .leave => .inOp
  | .check => .ended
  | .decide => .checked
  | .flush => .commits
  | .clear => .installs
  | .finish => .committed

/-- The tests of `begin_op` let a process pass. -/
def admits (c : LogCtx) : Bool :=
  !c.committing && !decide (c.lh.n + (c.outstanding + 1) * LOGSIZE > LOGSIZE)

/-- What `log_write` does to the log when it does not panic. -/
def record (blockno : ℕ) (c : LogCtx) : LogCtx :=
  let i := slotOf c.lh blockno
  c.setLh { n := if i = c.lh.n then c.lh.n + 1 else c.lh.n
            block := Function.update c.lh.block i (i32 blockno) }

/-- The statement, and where it leaves the process. -/
def Stmt.comp : Stmt → Comp LogCtx Loc
  | .call => return .waits
  | .test => do
    let c ← .get
    return if admits c then .admitted else .waits
  | .enter => do
    .modify fun c => { c with outstanding := c.outstanding + 1 }
    return .inOp
  | .write blockno => do
    let c ← .get
    if LOGSIZE ≤ c.lh.n ∨ c.size - 1 ≤ c.lh.n then
      .halt "too big a transaction"
    else if c.outstanding < 1 then
      .halt "log_write outside of trans"
    else
      .modify (record blockno)
      return .inOp
  | .leave => do
    .modify fun c => { c with outstanding := c.outstanding - 1 }
    return .ended
  | .check => do
    let c ← .get
    if c.committing then .halt "log_ctx.committing" else return .checked
  | .decide => do
    let c ← .get
    if c.outstanding = 0 then
      .modify fun c => { c with committing := true }
      return .commits
    else
      return .out
  | .flush => do
    let c ← .get
    return if c.lh.n > 0 then .installs else .committed
  | .clear => do
    .modify fun c => c.setLh { c.lh with n := 0 }
    return .committed
  | .finish => do
    .modify fun c => { c with committing := false }
    return .out

/-- The log and the processes that use it. -/
structure Admission (P : Type) where
  ctx : LogCtx
  loc : P → Loc

variable {P : Type}

/-- The process `l.1` takes the step `l.2`. -/
def Step [DecidableEq P] (s : Admission P) (l : P × Stmt) (s' : Admission P) : Prop :=
  s.loc l.1 = l.2.loc ∧ ∃ next c, l.2.comp.run s.ctx = .ok next c ∧
    s' = ⟨c, Function.update s.loc l.1 next⟩

/-- The step that the process `l.1` is about to take is a panic. -/
def Panics (s : Admission P) (l : P × Stmt) (why : String) : Prop :=
  s.loc l.1 = l.2.loc ∧ ∃ c, l.2.comp.run s.ctx = .halt why c

/-- No operation runs and nothing is recorded. -/
structure Start (s : Admission P) : Prop where
  out : ∀ p, s.loc p = .out
  outstanding : s.ctx.outstanding = 0
  committing : s.ctx.committing = false
  n : s.ctx.lh.n = 0

/-- The process is in `end_op` and has set `committing`. -/
def Loc.commit : Loc → Prop
  | .commits | .installs | .committed => True
  | _ => False

structure Safe (s : Admission P) : Prop where
  blocks : s.ctx.lh.n ≤ LOGSIZE
  outstanding : s.ctx.outstanding * LOGSIZE ≤ LOGSIZE
  exclusive : ∀ p q, (s.loc p).commit → s.loc q ≠ .inOp
  noPanic : ∀ p, ¬ Panics s (p, .check) "log_ctx.committing"

/-- When a process passes the tests of `begin_op`, no other one is between these tests and
    `outstanding++`, or in `end_op` between `outstanding--` and the test whether it was the last. -/
def Undisturbed (s : Admission P) : P × Stmt → Prop
  | (_, .test) => admits s.ctx = true →
      ∀ q, s.loc q ≠ .admitted ∧ s.loc q ≠ .ended ∧ s.loc q ≠ .checked
  | _ => True

section Invariant

variable {s s' : Admission P} {l : P × Stmt} {p q : P}

def Loc.idle : Loc → Prop
  | .out | .waits => True
  | _ => False

theorem Loc.commit.active {place : Loc} (h : place.commit) : ¬ place.idle := by
  cases place <;> first | exact id | cases h

/-- The log while one process at this place uses it. -/
def Loc.Flags (c : LogCtx) : Loc → Prop
  | .inOp => c.outstanding = 1 ∧ c.committing = false
  | .commits | .installs | .committed => c.outstanding = 0 ∧ c.committing = true
  | _ => c.outstanding = 0 ∧ c.committing = false

/-- At most one process uses the log. -/
structure Single (s : Admission P) : Prop where
  n : 0 ≤ s.ctx.lh.n ∧ s.ctx.lh.n ≤ LOGSIZE
  user : (∀ q, (s.loc q).idle) ∧ s.ctx.outstanding = 0 ∧ s.ctx.committing = false ∨
    ∃ p, (∀ q, q ≠ p → (s.loc q).idle) ∧ ¬ (s.loc p).idle ∧ (s.loc p).Flags s.ctx

theorem Start.single (h : Start s) : Single s where
  n := by rw [h.n]; decide
  user := Or.inl ⟨fun q => by rw [h.out]; trivial, h.outstanding, h.committing⟩

theorem Single.flags (h : Single s) (hp : ¬ (s.loc p).idle) :
    (∀ q, q ≠ p → (s.loc q).idle) ∧ (s.loc p).Flags s.ctx := by
  rcases h.user with ⟨idle, -⟩ | ⟨p', others, -, flags⟩
  · exact absurd (idle p) hp
  · have same : p = p' := by
      by_contra ne
      exact hp (others p ne)
    subst same
    exact ⟨others, flags⟩

theorem admits_iff (c : LogCtx) : admits c = true ↔
    c.committing = false ∧ c.lh.n + (c.outstanding + 1) * LOGSIZE ≤ LOGSIZE := by
  rw [admits, Bool.and_eq_true, Bool.not_eq_true', Bool.not_eq_true', decide_eq_false_iff_not,
    not_lt]

/-- Who passes the tests undisturbed finds the log unused. -/
theorem Single.unused (h : Single s) (pass : admits s.ctx = true)
    (alone : ∀ q, s.loc q ≠ .admitted ∧ s.loc q ≠ .ended ∧ s.loc q ≠ .checked) :
    (∀ q, (s.loc q).idle) ∧ s.ctx.outstanding = 0 ∧ s.ctx.committing = false := by
  rcases h.user with unused | ⟨p, -, active, flags⟩
  · exact unused
  exfalso
  obtain ⟨committing, room⟩ := (admits_iff _).mp pass
  obtain ⟨notAdmitted, notEnded, notChecked⟩ := alone p
  have pos := h.n.1
  cases hl : s.loc p with
  | out => exact active (by rw [hl]; trivial)
  | waits => exact active (by rw [hl]; trivial)
  | admitted => exact notAdmitted hl
  | ended => exact notEnded hl
  | checked => exact notChecked hl
  | inOp =>
    rw [hl] at flags
    rw [flags.1] at room
    simp only [LOGSIZE] at room
    omega
  | commits =>
    rw [hl] at flags
    exact absurd (flags.2.symm.trans committing) (by decide)
  | installs =>
    rw [hl] at flags
    exact absurd (flags.2.symm.trans committing) (by decide)
  | committed =>
    rw [hl] at flags
    exact absurd (flags.2.symm.trans committing) (by decide)

theorem write_ok {blockno : ℕ} {c c' : LogCtx} {next : Loc}
    (h : (Stmt.write blockno).comp.run c = .ok next c') :
    c.lh.n < LOGSIZE ∧ next = .inOp ∧ c' = record blockno c := by
  dsimp only [Stmt.comp] at h
  rw [Comp.bind_get_run] at h
  split at h
  · cases h
  next room =>
    split at h
    · cases h
    · cases h
      exact ⟨not_le.mp fun full => room (Or.inl full), rfl, rfl⟩

theorem check_run (c : LogCtx) : Stmt.check.comp.run c =
    if c.committing then .halt "log_ctx.committing" c else .ok .checked c := by
  dsimp only [Stmt.comp]
  rw [Comp.bind_get_run]
  split <;> rfl

theorem check_ok {c c' : LogCtx} {next : Loc} (h : Stmt.check.comp.run c = .ok next c') :
    c.committing = false ∧ next = .checked ∧ c' = c := by
  rw [check_run] at h
  split at h
  · cases h
  next no =>
    cases h
    exact ⟨Bool.eq_false_iff.mpr no, rfl, rfl⟩

theorem decide_run (c : LogCtx) : Stmt.decide.comp.run c =
    if c.outstanding = 0 then .ok .commits { c with committing := true } else .ok .out c := by
  dsimp only [Stmt.comp]
  rw [Comp.bind_get_run]
  split <;> rfl

variable [DecidableEq P]

/-- One process moves and no other one uses the log. -/
theorem Single.moved {next : Loc} {c : LogCtx} (others : ∀ q, q ≠ p → (s.loc q).idle)
    (hn : 0 ≤ c.lh.n ∧ c.lh.n ≤ LOGSIZE) (flags : next.Flags c) :
    Single ⟨c, Function.update s.loc p next⟩ where
  n := hn
  user := by
    have others' : ∀ q, q ≠ p → (Function.update s.loc p next q).idle := by
      intro q hq
      rw [Function.update_of_ne hq]
      exact others q hq
    by_cases idle : next.idle
    · left
      refine ⟨fun q => ?_, ?_⟩
      · by_cases hq : q = p
        · dsimp only
          rw [hq, Function.update_self]
          exact idle
        · exact others' q hq
      · cases next <;> first | exact flags | cases idle
    · right
      refine ⟨p, others', ?_, ?_⟩ <;> dsimp only <;> rw [Function.update_self]
      · exact idle
      · exact flags

/-- A process that does not use the log moves and still does not use it. -/
theorem Single.waits {next : Loc} (h : Single s) (hp : (s.loc p).idle) (hnext : next.idle) :
    Single ⟨s.ctx, Function.update s.loc p next⟩ where
  n := h.n
  user := by
    have idle : ∀ q, (s.loc q).idle → (Function.update s.loc p next q).idle := by
      intro q hq
      by_cases same : q = p
      · rw [same, Function.update_self]
        exact hnext
      · rw [Function.update_of_ne same]
        exact hq
    rcases h.user with ⟨all, flags⟩ | ⟨p', others, active, flags⟩
    · exact Or.inl ⟨fun q => idle q (all q), flags⟩
    · have ne : p' ≠ p := by
        rintro rfl
        exact active hp
      refine Or.inr ⟨p', fun q hq => idle q (others q hq), ?_, ?_⟩ <;> dsimp only <;>
        rw [Function.update_of_ne ne]
      · exact active
      · exact flags

theorem record_n (blockno : ℕ) (c : LogCtx) :
    (record blockno c).lh.n = c.lh.n ∨ (record blockno c).lh.n = c.lh.n + 1 := by
  dsimp only [record, LogCtx.setLh]
  split
  · exact Or.inr rfl
  · exact Or.inl rfl

theorem Single.step (h : Single s) (hs : Step s l s') (hl : Undisturbed s l) : Single s' := by
  obtain ⟨p, a⟩ := l
  obtain ⟨at', next, c, hr, rfl⟩ := hs
  dsimp only at at' hr ⊢
  have user : ¬ a.loc.idle → (∀ q, q ≠ p → (s.loc q).idle) ∧ a.loc.Flags s.ctx := by
    intro active
    rw [← at'] at active ⊢
    exact h.flags active
  cases a with
  | call =>
    cases hr
    exact h.waits (by rw [at']; trivial) trivial
  | test =>
    cases hr
    by_cases pass : admits s.ctx = true
    · rw [if_pos pass]
      obtain ⟨idle, flags⟩ := h.unused pass (hl pass)
      exact .moved (fun q _ => idle q) h.n flags
    · rw [if_neg pass]
      exact h.waits (by rw [at']; trivial) trivial
  | enter =>
    cases hr
    obtain ⟨others, outstanding, committing⟩ := user id
    exact .moved others h.n ⟨by dsimp only; rw [outstanding]; rfl, committing⟩
  | write blockno =>
    obtain ⟨others, outstanding, committing⟩ := user id
    obtain ⟨full, rfl, rfl⟩ := write_ok hr
    refine .moved others ?_ ⟨outstanding, committing⟩
    have bounds := h.n
    rcases record_n blockno s.ctx with eq | eq <;> rw [eq] <;> omega
  | leave =>
    cases hr
    obtain ⟨others, outstanding, committing⟩ := user id
    exact .moved others h.n ⟨by dsimp only; rw [outstanding]; rfl, committing⟩
  | check =>
    obtain ⟨others, flags⟩ := user id
    obtain ⟨-, rfl, rfl⟩ := check_ok hr
    exact .moved others h.n flags
  | decide =>
    obtain ⟨others, outstanding, committing⟩ := user id
    have run : Stmt.decide.comp.run s.ctx = .ok .commits { s.ctx with committing := true } := by
      rw [decide_run, if_pos outstanding]
    rw [run] at hr
    cases hr
    exact .moved others h.n ⟨outstanding, rfl⟩
  | flush =>
    cases hr
    obtain ⟨others, flags⟩ := user id
    refine .moved others h.n ?_
    split <;> exact flags
  | clear =>
    cases hr
    obtain ⟨others, flags⟩ := user id
    exact .moved others ⟨Int.le_refl 0, Int.natCast_nonneg _⟩ flags
  | finish =>
    cases hr
    obtain ⟨others, outstanding, -⟩ := user id
    exact .moved others h.n ⟨outstanding, rfl⟩

theorem Single.safe (h : Single s) : Safe s where
  blocks := h.n.2
  outstanding := by
    rcases h.user with ⟨-, outstanding, -⟩ | ⟨p, -, -, flags⟩
    · rw [outstanding]
      decide
    · cases hl : s.loc p <;> rw [hl] at flags <;> rw [flags.1] <;> decide
  exclusive := by
    intro p q commit inOp
    have same : p = q := by
      by_contra ne
      exact commit.active ((h.flags (p := q) (by rw [inOp]; exact id)).1 p ne)
    rw [same, inOp] at commit
    cases commit
  noPanic := by
    rintro p ⟨at', c, hr⟩
    obtain ⟨-, flags⟩ := h.flags (p := p) (by rw [at']; exact id)
    rw [at'] at flags
    rw [check_run, if_neg (by rw [flags.2]; decide)] at hr
    cases hr

/-- Some run from here on is not safe. -/
def CanFail (s : Admission P) : Prop :=
  ∃ more, Along Step s more ∧ ¬ Safe (final s more)

theorem CanFail.step (h : CanFail s') (hs : Step s l s') : CanFail s := by
  obtain ⟨more, run, fails⟩ := h
  exact ⟨(l, s') :: more, ⟨hs, run⟩, fails⟩

end Invariant

section Connection

/-- `begin_op` in one piece. -/
theorem beginOp_steps {s t : Blk} (hr : beginOp.run s = .ok () t) :
    Stmt.test.comp.run s.ctx = .ok .admitted s.ctx ∧
      Stmt.enter.comp.run s.ctx = .ok .inOp t.ctx ∧ t.bio = s.bio := by
  unfold beginOp at hr
  rw [Comp.bind_get_run] at hr
  split at hr
  · cases hr
  next idle =>
    split at hr
    · cases hr
    next room =>
      cases hr
      have pass : admits s.ctx = true :=
        (admits_iff _).mpr ⟨Bool.eq_false_iff.mpr idle, not_lt.mp room⟩
      exact ⟨congrArg (Outcome.ok · s.ctx) (if_pos pass), rfl, rfl⟩

/-- `log_write` is a step. -/
theorem logWrite_step {s t : Blk} {b : Fin NBUF} (hr : (logWrite b).run s = .ok () t) :
    (Stmt.write (s.bio.buf b).blockno).comp.run s.ctx = .ok .inOp t.ctx := by
  unfold logWrite at hr
  rw [Comp.bind_get_run] at hr
  dsimp only [Stmt.comp]
  rw [Comp.bind_get_run]
  split at hr
  · cases hr
  next room =>
  split at hr
  · cases hr
  next inside =>
  rw [if_neg room, if_neg inside, Comp.bind_modify_run, Comp.run_pure, record]
  dsimp only at hr ⊢
  rw [Blk.modCtx, Comp.bind_modify_run] at hr
  split at hr
  next new =>
    obtain ⟨_, u, pinned, hr⟩ := (Comp.bind_ok_iff _ _ _ _ _).mp hr
    rw [Blk.bpin, Blk.liftBio, Comp.zoom_ok_iff] at pinned
    obtain ⟨_, _, rfl⟩ := pinned
    cases hr
    rw [if_pos new]
    rfl
  next old =>
    cases hr
    rw [if_neg old]

end Connection

section Example

end Example

end EasyXv6.Fs.Log
