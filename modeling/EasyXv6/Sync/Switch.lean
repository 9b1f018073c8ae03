import EasyXv6.Lib.Trace
import EasyXv6.Sync.Spinlock

set_option autoImplicit false

/-!
# The interrupt-enable bit across locks and switches

`noff` and `origin` belong to the CPU, the nesting to a thread. `proc_sched` saves `origin`, and what
the scheduler takes for a process is given back by that process, so that at any time they are those
of the thread on the CPU.
-/
namespace EasyXv6.Sync
open Lib Proc

variable {ι κ : Type}

section Code

variable {s : Core ι κ} {l : LockName ι κ} {p : ι}

theorem popOff_run (off : s.intr = false) (deep : 1 ≤ s.noff) :
    popOff.run s = .ok () { s with
      noff := s.noff - 1
      intr := if s.noff - 1 = 0 ∧ s.origin = true then true else s.intr } := by
  simp [popOff, off, Comp.run_bind, Int.not_lt.mpr deep]

theorem procSched_run (held : s.lock (.own p) = ⟨true, MYCPU⟩) (one : s.noff = 1)
    (state : s.state p ≠ .running) (off : s.intr = false) :
    (procSched p).run s = .ok s.origin s := by
  have holding : s.holding (.own p) = true := by simp [Core.holding, held]
  simp [procSched, holding, one, state, off, Comp.run_bind]

/-- `push_off` and `pop_off` around a reading leave a CPU with a lock as it was. -/
theorem myproc_run (off : s.intr = false) (one : s.noff = 1) : myproc.run s = .ok s.proc s := by
  cases s
  simp_all [myproc, pushOff, popOff, Comp.run_bind]

variable [DecidableEq ι] [DecidableEq κ]

/-- After `spinlock_acquire` of a free lock. -/
def Core.acquired (s : Core ι κ) (l : LockName ι κ) : Core ι κ :=
  { s with
    intr := false
    origin := if s.noff = 0 then s.intr else s.origin
    noff := s.noff + 1
    lock := Function.update s.lock l ⟨true, MYCPU⟩ }

/-- After `spinlock_release` of a lock that is held. -/
def Core.released (s : Core ι κ) (l : LockName ι κ) : Core ι κ :=
  { s with
    lock := Function.update s.lock l .unlocked
    noff := s.noff - 1
    intr := if s.noff - 1 = 0 ∧ s.origin = true then true else s.intr }

theorem spinlockAcquire_run (free : s.lock l = .unlocked) :
    (spinlockAcquire l).run s = .ok () (s.acquired l) := by
  simp [spinlockAcquire, pushOff, Core.holding, Core.setLock, Core.acquired, free,
    Spinlock.unlocked, Comp.run_bind]

theorem spinlockRelease_run (held : s.lock l = ⟨true, MYCPU⟩) (off : s.intr = false)
    (deep : 1 ≤ s.noff) : (spinlockRelease l).run s = .ok () (s.released l) := by
  have holding : s.holding l = true := by simp [Core.holding, held]
  simp only [spinlockRelease, Comp.bind_get_run, holding, if_true, Comp.bind_modify_run]
  exact popOff_run (s := s.setLock l .unlocked) off deep

theorem schedulerReturn_run (held : s.lock (.own p) = ⟨true, MYCPU⟩) (one : s.noff = 1)
    (off : s.intr = false) :
    (schedulerReturn p).run s = .ok s.proc (Core.released { s with proc := none } (.own p)) := by
  have release := spinlockRelease_run (s := { s with proc := none }) held off (Int.le_of_eq one.symm)
  unfold schedulerReturn
  rw [Comp.run_bind_of_ok (myproc_run off one), Comp.bind_modify_run, Comp.run_bind_of_ok release]
  rfl

theorem schedulerDispatch_run (free : s.lock (.own p) = .unlocked) :
    (schedulerDispatch p).run s = .ok () { s.acquired (.own p) with
      state := Function.update s.state p .running, proc := some p } := by
  unfold schedulerDispatch
  rw [Comp.run_bind_of_ok (spinlockAcquire_run free)]
  rfl

end Code

namespace World

/-- The locks that are held on the CPU. -/
def now (w : World ι κ) : List (LockName ι κ) :=
  match w.on with
  | .back p => [.own p]
  | .run p => w.held (some p)
  | .loop => w.held none

theorem onCore_run {w : World ι κ} {α : Type} {m : Comp (Core ι κ) α} {x : α} {c : Core ι κ}
    (h : m.run w.core = .ok x c) : (onCore m).run w = .ok x { w with core := c } := by
  unfold onCore
  rw [Comp.run_zoom, h]
  rfl

theorem now_of_not_back {w : World ι κ} (h : ∀ p, w.on ≠ .back p) : w.now = w.held w.thread := by
  unfold now thread
  cases hw : w.on with
  | loop => rfl
  | back p => exact absurd hw (h p)
  | run p => rfl

theorem now_of_run {w : World ι κ} {p : ι} (on : w.on = .run p) : w.now = w.held (some p) := by
  unfold now
  rw [on]

theorem notBack_of_run {w : World ι κ} {p : ι} (on : w.on = .run p) : ∀ q, w.on ≠ .back q := by
  rw [on]
  exact nofun

theorem thread_of_run {w : World ι κ} {p : ι} (on : w.on = .run p) : w.thread = some p := by
  unfold thread
  rw [on]

variable [DecidableEq ι] [DecidableEq κ]

/-- After the thread on the CPU has taken a lock. -/
def taken (w : World ι κ) (l : LockName ι κ) : World ι κ :=
  { w with
    core := w.core.acquired l
    held := Function.update w.held w.thread (l :: w.held w.thread)
    entry := if w.held w.thread = [] then Function.update w.entry w.thread w.core.intr
      else w.entry }

/-- After it has given back a lock. -/
def given (w : World ι κ) (l : LockName ι κ) : World ι κ :=
  { w with
    core := w.core.released l
    held := Function.update w.held w.thread ((w.held w.thread).erase l) }

/-- After the process has called `proc_sched` in the state `st`. -/
def left (w : World ι κ) (p : ι) (st : ProcState) : World ι κ :=
  { w with
    core := { w.core with state := Function.update w.core.state p st }
    on := .back p
    ctx := Function.update w.ctx p (.sched w.core.origin) }

/-- After the scheduler has given back the lock of the process. -/
def returned (w : World ι κ) (p : ι) : World ι κ :=
  { w with core := Core.released { w.core with proc := none } (.own p), on := .loop }

/-- The CPU when the scheduler switches to the process. -/
def switched (w : World ι κ) (p : ι) : Core ι κ :=
  { w.core.acquired (.own p) with
    state := Function.update w.core.state p .running, proc := some p }

/-- After the scheduler has switched to the process. -/
def entered (w : World ι κ) (p : ι) : World ι κ :=
  match w.ctx p with
  | .sched origin => { w with core := { w.switched p with origin := origin }, on := .run p }
  | .fresh =>
    { w with
      core := w.switched p
      on := .run p
      held := Function.update w.held (some p) [.own p]
      entry := Function.update w.entry (some p) w.core.intr }

structure Nested (w : World ι κ) : Prop where
  noff : w.core.noff = w.now.length
  lock : ∀ l, w.core.lock l = if l ∈ w.now then ⟨true, MYCPU⟩ else .unlocked
  nodup : w.now.Nodup
  intr : w.now ≠ [] → w.core.intr = false
  origin : (∀ p, w.on ≠ .back p) → w.now ≠ [] → w.core.origin = w.entry w.thread
  idle : w.on ≠ .loop → w.held none = []
  saved : ∀ p o, w.ctx p = .sched o → w.on ≠ .run p →
    w.held (some p) = [.own p] ∧ o = w.entry (some p)

section Steps

variable {w w' : World ι κ} {l : LockName ι κ} {p : ι} {a : Act ι κ}

theorem start_nested (intr : Bool) (state : ι → ProcState) :
    (start intr state : World ι κ).Nested := by
  refine ⟨rfl, fun l => ?_, List.nodup_nil, fun h => absurd rfl h, fun _ h => absurd rfl h,
    fun h => absurd rfl h, nofun⟩
  exact (if_neg List.not_mem_nil).symm

/-- The world after a thread has taken or given back a lock. -/
theorem Nested.change (h : w.Nested) (notBack : ∀ p, w.on ≠ .back p) {c : Core ι κ}
    {ls : List (LockName ι κ)} {entry : Option ι → Bool} (noff : c.noff = ls.length)
    (lock : ∀ l, c.lock l = if l ∈ ls then ⟨true, MYCPU⟩ else .unlocked) (nodup : ls.Nodup)
    (intr : ls ≠ [] → c.intr = false) (origin : ls ≠ [] → c.origin = entry w.thread)
    (others : ∀ t, t ≠ w.thread → entry t = w.entry t) :
    Nested { w with
      core := c, held := Function.update w.held w.thread ls, entry := entry } := by
  have now : World.now { w with
      core := c, held := Function.update w.held w.thread ls, entry := entry } = ls :=
    (now_of_not_back (w := { w with
      core := c, held := Function.update w.held w.thread ls, entry := entry }) notBack).trans
        (Function.update_self ..)
  refine ⟨by rw [now]; exact noff, by rw [now]; exact lock, by rw [now]; exact nodup,
    by rw [now]; exact intr, fun _ => by rw [now]; exact origin, fun hl => ?_, fun p o hp hr => ?_⟩
  · have : none ≠ w.thread := by
      unfold thread
      cases hw : w.on with
      | loop => exact absurd hw hl
      | back p => exact absurd hw (notBack p)
      | run p => exact nofun
    exact (Function.update_of_ne this ..).trans (h.idle hl)
  · have : some p ≠ w.thread := by
      unfold thread
      cases hw : w.on with
      | loop => exact nofun
      | back q => exact nofun
      | run q => exact fun same => hr (hw.trans (congrArg On.run (Option.some.inj same).symm))
    exact ⟨(Function.update_of_ne this ..).trans (h.saved p o hp hr).1,
      (h.saved p o hp hr).2.trans (others _ this).symm⟩

theorem Nested.acquire_run (h : w.Nested) (notBack : ∀ p, w.on ≠ .back p)
    (new : l ∉ w.held w.thread) : (perform (.acquire l)).run w = .ok () (w.taken l) := by
  have free : w.core.lock l = .unlocked := by
    rw [h.lock, if_neg (now_of_not_back notBack ▸ new)]
  unfold perform
  rw [Comp.bind_get_run, Comp.run_bind_of_ok (onCore_run (spinlockAcquire_run free))]
  rfl

theorem Nested.acquire (h : w.Nested) (notBack : ∀ p, w.on ≠ .back p) (new : l ∉ w.held w.thread) :
    ∃ w', (perform (.acquire l)).run w = .ok () w' ∧ w'.Nested := by
  have now := now_of_not_back notBack
  refine ⟨_, h.acquire_run notBack new, ?_⟩
  have length : w.core.noff = (w.held w.thread).length := now ▸ h.noff
  refine h.change notBack ?_ ?_ (List.nodup_cons.mpr ⟨new, now ▸ h.nodup⟩) (fun _ => rfl) ?_ ?_
  · change w.core.noff + 1 = _
    rw [length, List.length_cons]
    rfl
  · intro k
    change Function.update w.core.lock l _ k = _
    by_cases hk : k = l
    · subst hk
      rw [Function.update_self, if_pos List.mem_cons_self]
    · rw [Function.update_of_ne hk, h.lock, now]
      simp [hk]
  · intro _
    change (if w.core.noff = 0 then w.core.intr else w.core.origin) = _
    by_cases outer : w.held w.thread = []
    · rw [if_pos (by rw [length, outer]; rfl), if_pos outer, Function.update_self]
    · have deep : w.core.noff ≠ 0 := by
        rw [length]
        exact fun zero => outer (List.length_eq_zero_iff.mp (by exact_mod_cast zero))
      rw [if_neg deep, if_neg outer]
      exact h.origin notBack (now ▸ outer)
  · intro t ht
    by_cases outer : w.held w.thread = []
    · rw [if_pos outer, Function.update_of_ne ht]
    · rw [if_neg outer]

theorem Nested.release_run (h : w.Nested) (notBack : ∀ p, w.on ≠ .back p)
    (hl : l ∈ w.held w.thread) : (perform (.release l)).run w = .ok () (w.given l) := by
  have now := now_of_not_back notBack
  have off := h.intr (now ▸ List.ne_nil_of_mem hl)
  have held : w.core.lock l = ⟨true, MYCPU⟩ := by
    rw [h.lock, if_pos (now ▸ hl)]
  have pos : 1 ≤ w.core.noff := by
    have length : w.core.noff = (w.held w.thread).length := now ▸ h.noff
    have := List.length_pos_of_mem hl
    omega
  unfold perform
  rw [Comp.bind_get_run, Comp.run_bind_of_ok (onCore_run (spinlockRelease_run held off pos))]
  rfl

theorem Nested.release (h : w.Nested) (notBack : ∀ p, w.on ≠ .back p) (hl : l ∈ w.held w.thread) :
    ∃ w', (perform (.release l)).run w = .ok () w' ∧ w'.Nested ∧
      (w'.held w.thread = [] → w'.core.intr = w.entry w.thread) := by
  have now := now_of_not_back notBack
  have length : w.core.noff = (w.held w.thread).length := now ▸ h.noff
  have deep : w.held w.thread ≠ [] := List.ne_nil_of_mem hl
  have off := h.intr (now ▸ deep)
  have nodup : (w.held w.thread).Nodup := now ▸ h.nodup
  have left : w.core.noff - 1 = ((w.held w.thread).erase l).length := by
    have := List.length_erase_of_mem hl
    have := List.length_pos_of_mem hl
    omega
  refine ⟨_, h.release_run notBack hl, h.change notBack left ?_ (nodup.erase l) ?_ ?_
    (fun _ _ => rfl), ?_⟩
  · intro k
    change Function.update w.core.lock l _ k = _
    by_cases hk : k = l
    · subst hk
      rw [Function.update_self, if_neg nodup.not_mem_erase]
    · rw [Function.update_of_ne hk, h.lock, now]
      simp [List.mem_erase_of_ne hk]
  · intro more
    change (if w.core.noff - 1 = 0 ∧ w.core.origin = true then true else w.core.intr) = false
    rw [if_neg, off]
    rintro ⟨zero, -⟩
    exact more (List.length_eq_zero_iff.mp (by omega))
  · intro _
    exact h.origin notBack (now ▸ deep)
  · intro outermost
    change (if w.core.noff - 1 = 0 ∧ w.core.origin = true then true else w.core.intr) = _
    change Function.update w.held w.thread ((w.held w.thread).erase l) w.thread = [] at outermost
    rw [Function.update_self] at outermost
    have zero : w.core.noff - 1 = 0 := by rw [left, outermost]; rfl
    rw [← h.origin notBack (now ▸ deep), off]
    cases w.core.origin <;> simp [zero]

/-- A step that leaves the locks and the nesting alone. -/
theorem Nested.frame (h : w.Nested) {c : Core ι κ} {ctx : ι → Ctx} (noff : c.noff = w.core.noff)
    (lock : c.lock = w.core.lock) (origin : c.origin = w.core.origin)
    (intr : c.intr = w.core.intr ∨ w.now = [])
    (saved : ∀ p o, ctx p = .sched o → w.on ≠ .run p → w.ctx p = .sched o) :
    Nested { w with core := c, ctx := ctx } := by
  refine ⟨noff.trans h.noff, fun l => (congrFun lock l).trans (h.lock l), h.nodup, fun deep => ?_,
    fun notBack deep => origin.trans (h.origin notBack deep), h.idle,
    fun p o hp hr => h.saved p o (saved p o hp hr) hr⟩
  rcases intr with same | none
  · exact same.trans (h.intr deep)
  · exact absurd none deep

/-- With one lock on the CPU, `noff` is 1 and no other lock is taken. -/
theorem Nested.one (h : w.Nested) (only : w.now = [l]) :
    w.core.noff = 1 ∧ ∀ k, (w.core.lock k).locked = true ↔ k = l := by
  refine ⟨h.noff.trans (by rw [only]; rfl), fun k => ?_⟩
  rw [h.lock, only]
  by_cases hk : k = l
  · simp [hk]
  · simp [hk, Spinlock.unlocked]

theorem Nested.sched_run {st : ProcState} (h : w.Nested) (on : w.on = .run p)
    (own : w.held (some p) = [.own p]) (leaves : st ≠ .running) :
    (perform (.sched st)).run w = .ok () (w.left p st) := by
  have now : w.now = [.own p] := (now_of_run on).trans own
  have off := h.intr (by rw [now]; exact nofun)
  have held : w.core.lock (.own p) = ⟨true, MYCPU⟩ := by
    rw [h.lock, now, if_pos List.mem_cons_self]
  let c : Core ι κ := { w.core with state := Function.update w.core.state p st }
  have state : c.state p ≠ .running := by
    rw [show c.state p = st from Function.update_self ..]
    exact leaves
  have run := onCore_run (w := { w with core := c })
    (procSched_run held (h.one now).1 state off)
  unfold perform
  rw [Comp.bind_get_run, on]
  dsimp only
  rw [Comp.bind_modify_run, Comp.run_bind_of_ok run]
  rfl

theorem Nested.sched {st : ProcState} (h : w.Nested) (on : w.on = .run p)
    (own : w.held (some p) = [.own p]) (leaves : st ≠ .running) :
    ∃ w', (perform (.sched st)).run w = .ok () w' ∧ w'.Nested ∧ w'.on = .back p ∧
      w'.now = [.own p] := by
  have now : w.now = [.own p] := (now_of_run on).trans own
  have off := h.intr (by rw [now]; exact nofun)
  have origin := h.origin (notBack_of_run on) (by rw [now]; exact nofun)
  refine ⟨_, h.sched_run on own leaves, ⟨?_, ?_, ?_, fun _ => off, ?_, ?_, ?_⟩, rfl, rfl⟩
  · exact (h.one now).1
  · intro k
    change w.core.lock k = if k ∈ [.own p] then _ else _
    rw [h.lock, now]
  · exact List.nodup_singleton _
  · exact fun hp => absurd rfl (hp p)
  · exact fun _ => h.idle (by rw [on]; exact nofun)
  · intro q o hq _
    change Function.update w.ctx p (.sched w.core.origin) q = _ at hq
    by_cases hqp : q = p
    · subst hqp
      rw [Function.update_self] at hq
      cases hq
      exact ⟨own, thread_of_run on ▸ origin⟩
    · rw [Function.update_of_ne hqp] at hq
      refine h.saved q o hq ?_
      rw [on]
      exact fun same => hqp (On.run.inj same).symm

theorem Nested.back_run (h : w.Nested) (on : w.on = .back p) :
    (perform .back).run w = .ok () (w.returned p) := by
  have now : w.now = [.own p] := by
    unfold World.now
    rw [on]
  have off := h.intr (by rw [now]; exact nofun)
  have held : w.core.lock (.own p) = ⟨true, MYCPU⟩ := by
    rw [h.lock, now, if_pos List.mem_cons_self]
  have run := onCore_run (schedulerReturn_run held (h.one now).1 off)
  unfold perform
  rw [Comp.bind_get_run, on]
  dsimp only
  rw [Comp.run_bind_of_ok run]
  rfl

theorem Nested.back (h : w.Nested) (on : w.on = .back p) :
    ∃ w', (perform .back).run w = .ok () w' ∧ w'.Nested := by
  have now : w.now = [.own p] := by
    unfold World.now
    rw [on]
  have idle : w.held none = [] := h.idle (by rw [on]; exact nofun)
  have one := (h.one now).1
  have now' : (w.returned p).now = [] := idle
  refine ⟨_, h.back_run on, ⟨?_, ?_, ?_, fun deep => absurd now' deep,
    fun _ deep => absurd now' deep, fun _ => idle, ?_⟩⟩
  · rw [now']
    change w.core.noff - 1 = 0
    rw [one]
    rfl
  · intro k
    rw [now', if_neg List.not_mem_nil]
    change Function.update w.core.lock (.own p) .unlocked k = _
    by_cases hk : k = .own p
    · rw [hk, Function.update_self]
    · rw [Function.update_of_ne hk, h.lock, now, if_neg (by simpa using hk)]
  · rw [now']
    exact List.nodup_nil
  · exact fun q o hq _ => h.saved q o hq (by rw [on]; exact nofun)

theorem Nested.dispatch_run (h : w.Nested) (on : w.on = .loop) (idle : w.held none = []) (p : ι) :
    (perform (.dispatch p)).run w = .ok () (w.entered p) := by
  have now : w.now = [] := by
    unfold World.now
    rw [on]
    exact idle
  have free : w.core.lock (.own p) = .unlocked := by
    rw [h.lock, now, if_neg List.not_mem_nil]
  unfold perform entered
  rw [Comp.bind_get_run, Comp.run_bind_of_ok (onCore_run (schedulerDispatch_run free))]
  cases w.ctx p <;> rfl

theorem Nested.dispatch (h : w.Nested) (on : w.on = .loop) (idle : w.held none = []) (p : ι) :
    ∃ w', (perform (.dispatch p)).run w = .ok () w' ∧ w'.Nested ∧ w'.on = .run p ∧
      w'.now = [.own p] := by
  have now : w.now = [] := by
    unfold World.now
    rw [on]
    exact idle
  have zero : w.core.noff = 0 := by
    rw [h.noff, now]
    rfl
  have lock : ∀ k, (w.switched p).lock k =
      if k ∈ [LockName.own p] then ⟨true, MYCPU⟩ else .unlocked := by
    intro k
    change Function.update w.core.lock (.own p) _ k = _
    by_cases hk : k = .own p
    · rw [hk, Function.update_self, if_pos List.mem_cons_self]
    · rw [Function.update_of_ne hk, h.lock, now, if_neg List.not_mem_nil,
        if_neg (by simpa using hk)]
  -- the world in which the process goes on
  have nested : ∀ (origin : Bool) (held : Option ι → List (LockName ι κ)) (entry : Option ι → Bool),
      held (some p) = [.own p] → origin = entry (some p) →
      (∀ t, t ≠ some p → held t = w.held t ∧ entry t = w.entry t) →
      Nested { w with
        core := { w.switched p with origin := origin }, on := .run p, held := held, entry := entry } := by
    intro origin held entry own same others
    have now' : World.now { w with
        core := { w.switched p with origin := origin }, on := .run p, held := held, entry := entry } =
          [.own p] := own
    refine ⟨?_, ?_, ?_, fun _ => rfl, fun _ _ => same, fun _ => ?_, ?_⟩
    · rw [now']
      change w.core.noff + 1 = 1
      rw [zero]
      rfl
    · intro k
      rw [now']
      exact lock k
    · rw [now']
      exact List.nodup_singleton _
    · exact (others none nofun).1.trans idle
    · intro q o hq hr
      have hqp : some q ≠ some p := fun same => hr (congrArg On.run (Option.some.inj same).symm)
      obtain ⟨held', entry'⟩ := others (some q) hqp
      obtain ⟨own', same'⟩ := h.saved q o hq (by rw [on]; exact nofun)
      exact ⟨held'.trans own', same'.trans entry'.symm⟩
  refine ⟨_, h.dispatch_run on idle p, ?_⟩
  unfold entered
  cases hctx : w.ctx p with
  | sched o =>
    obtain ⟨own, same⟩ := h.saved p o hctx (by rw [on]; exact nofun)
    exact ⟨nested o w.held w.entry own same fun _ _ => ⟨rfl, rfl⟩, rfl, own⟩
  | fresh =>
    refine ⟨nested (w.switched p).origin _ _ (Function.update_self ..) ?_ fun t ht =>
      ⟨Function.update_of_ne ht .., Function.update_of_ne ht ..⟩, rfl, Function.update_self ..⟩
    change (if w.core.noff = 0 then w.core.intr else w.core.origin) =
      Function.update w.entry (some p) w.core.intr (some p)
    rw [Function.update_self, if_pos zero]

/-- No allowed step panics, and each keeps the nesting. -/
theorem Nested.step (h : w.Nested) (allowed : w.Allowed a) :
    ∃ w', (perform a).run w = .ok () w' ∧ w'.Nested := by
  cases a with
  | acquire l => exact h.acquire allowed.1 allowed.2
  | release l =>
    obtain ⟨w', run, nested, -⟩ := h.release allowed.1 allowed.2
    exact ⟨w', run, nested⟩
  | setIntr b =>
    have empty : w.now = [] := (now_of_not_back allowed.1).trans allowed.2
    exact ⟨_, rfl, h.frame rfl rfl rfl (Or.inr empty) fun _ _ hp _ => hp⟩
  | sched st =>
    obtain ⟨p, on, own, leaves⟩ := allowed
    obtain ⟨w', run, nested, -⟩ := h.sched on own leaves
    exact ⟨w', run, nested⟩
  | back =>
    obtain ⟨p, on⟩ := allowed
    exact h.back on
  | dispatch p =>
    obtain ⟨w', run, nested, -⟩ := h.dispatch allowed.1 allowed.2 p
    exact ⟨w', run, nested⟩
  | setState p st => exact ⟨_, rfl, h.frame rfl rfl rfl (Or.inl rfl) fun _ _ hp _ => hp⟩
  | create p =>
    refine ⟨_, rfl, h.frame rfl rfl rfl (Or.inl rfl) fun q o hq hr => ?_⟩
    by_cases hqp : q = p
    · subst hqp
      rw [Function.update_self] at hq
      cases hq
    · rwa [Function.update_of_ne hqp] at hq

end Steps

/-- A step of threads that nest their locks well. -/
def Step (w : World ι κ) (a : Act ι κ) (w' : World ι κ) : Prop :=
  w.Allowed a ∧ (perform a).run w = .ok () w'

theorem Nested.of_step {w w' : World ι κ} {a : Act ι κ} (h : w.Nested) (step : Step w a w') :
    w'.Nested := by
  obtain ⟨w'', run, nested⟩ := h.step step.1
  rw [step.2] at run
  cases run
  exact nested

/-- In every run no allowed step panics, the release of the outermost lock of a thread restores the
    interrupt-enable bit, and at every switch the lock of the process is the only one and `noff`
    is 1. -/
theorem interrupts_restored (intr : Bool) (state : ι → ProcState)
    (tr : List (Act ι κ × World ι κ)) (h : Along Step (start intr state) tr) :
    (∀ a, (final (start intr state) tr).Allowed a → ∃ w', Step (final (start intr state) tr) a w') ∧
    (∀ l w', Step (final (start intr state) tr) (.release l) w' →
      w'.held (final (start intr state) tr).thread = [] →
        w'.core.intr = (final (start intr state) tr).entry (final (start intr state) tr).thread) ∧
    (∀ st w', Step (final (start intr state) tr) (.sched st) w' → ∃ p,
      (final (start intr state) tr).on = .run p ∧ w'.on = .back p ∧ w'.core.noff = 1 ∧
        ∀ k, (w'.core.lock k).locked = true ↔ k = .own p) ∧
    (∀ p w', Step (final (start intr state) tr) (.dispatch p) w' →
      w'.on = .run p ∧ w'.core.noff = 1 ∧ ∀ k, (w'.core.lock k).locked = true ↔ k = .own p) := by
  have nested : (final (start intr state) tr).Nested :=
    h.invariant (fun _ _ _ nested step => nested.of_step step) (start_nested intr state)
  generalize final (start intr state) tr = w at nested ⊢
  refine ⟨fun a allowed => ?_, ?_, ?_, ?_⟩
  · obtain ⟨w', run, -⟩ := nested.step allowed
    exact ⟨w', allowed, run⟩
  · rintro l w' ⟨allowed, run⟩ outermost
    obtain ⟨w'', run', -, restored⟩ := nested.release allowed.1 allowed.2
    rw [run] at run'
    cases run'
    exact restored outermost
  · rintro st w' ⟨⟨p, on, own, leaves⟩, run⟩
    obtain ⟨w'', run', nested', on', now⟩ := nested.sched on own leaves
    rw [run] at run'
    cases run'
    exact ⟨p, on, on', nested'.one now⟩
  · rintro p w' ⟨allowed, run⟩
    obtain ⟨w'', run', nested', on', now⟩ := nested.dispatch allowed.1 allowed.2 p
    rw [run] at run'
    cases run'
    exact ⟨on', nested'.one now⟩

section Example

/-- The states that a list of steps goes through. -/
def trace (w : World ι κ) : List (Act ι κ) → List (Act ι κ × World ι κ)
  | [] => []
  | a :: as => (a, ((perform a).run w).state) :: trace ((perform a).run w).state as

/-- Two processes: the first gives up the CPU with interrupts on, the second with interrupts off. -/
def taking : List (Act (Fin 2) Empty) :=
  [.dispatch 0, .release (.own 0), .acquire (.own 0), .sched .runnable, .back,
    .dispatch 1, .release (.own 1), .setIntr false, .acquire (.own 1), .sched .runnable, .back,
    .dispatch 0]

theorem taking_run : Along Step (start true fun _ => .runnable) (trace (start true fun _ => .runnable) taking) := by
  refine ⟨⟨⟨rfl, rfl⟩, rfl⟩, ⟨⟨nofun, List.mem_cons_self⟩, rfl⟩, ⟨⟨nofun, nofun⟩, rfl⟩,
    ⟨⟨0, rfl, rfl, nofun⟩, rfl⟩, ⟨⟨0, rfl⟩, rfl⟩, ⟨⟨rfl, rfl⟩, rfl⟩,
    ⟨⟨nofun, List.mem_cons_self⟩, rfl⟩, ⟨⟨nofun, rfl⟩, rfl⟩, ⟨⟨nofun, nofun⟩, rfl⟩,
    ⟨⟨1, rfl, rfl, nofun⟩, rfl⟩, ⟨⟨1, rfl⟩, rfl⟩, ⟨⟨rfl, rfl⟩, rfl⟩, trivial⟩

/-- When the first process gives its lock back, interrupts are on again. -/
theorem interrupts_restored_taking : ∃ w' : World (Fin 2) Empty,
    Step (final (start true fun _ => .runnable) (trace (start true fun _ => .runnable) taking))
      (.release (.own 0)) w' ∧ w'.core.intr = true := by
  obtain ⟨runs, restored, -⟩ := interrupts_restored true (fun _ => .runnable) _ taking_run
  obtain ⟨w', step⟩ := runs (.release (.own 0)) ⟨nofun, List.mem_cons_self⟩
  refine ⟨w', step, restored _ _ step ?_⟩
  obtain ⟨-, run⟩ := step
  cases run
  rfl

end Example

end World

end EasyXv6.Sync
