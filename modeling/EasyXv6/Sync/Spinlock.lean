import EasyXv6.Lib.Comp
import EasyXv6.Proc.Table

set_option autoImplicit false

/-!
# Spinlocks and the nesting of interrupts-off (spinlock.c, proc.c)

One CPU, whose id is 0. The processes are `ι`, and the locks are their own ones, `p->lk`, and others
of a type `κ`. An interrupt between the first two lines of `push_off` finds the bit set and leaves it
set, so `push_off` is one step.
-/
namespace EasyXv6.Sync
open Lib Proc

/-- A spinlock: of a process or another one. -/
inductive LockName (ι κ : Type)
  | own (p : ι)
  | other (x : κ)
  deriving DecidableEq

structure Spinlock where
  locked : Bool
  cpuid : ℤ

/-- What `spinlock_init` leaves. -/
def Spinlock.unlocked : Spinlock := ⟨false, -1⟩

/-- `mycpuid()` -/
abbrev MYCPU : ℤ := 0

/-- `struct cpu` with the interrupt-enable bit of the hardware, the locks, and the process states. -/
structure Core (ι κ : Type) where
  noff : ℤ
  origin : Bool
  intr : Bool
  proc : Option ι
  lock : LockName ι κ → Spinlock
  state : ι → ProcState

section Code

variable {ι κ : Type} [DecidableEq ι] [DecidableEq κ]

def Core.setLock (s : Core ι κ) (l : LockName ι κ) (v : Spinlock) : Core ι κ :=
  { s with lock := Function.update s.lock l v }

def pushOff : Comp (Core ι κ) Unit := .modify fun s =>
  { s with intr := false, origin := if s.noff = 0 then s.intr else s.origin, noff := s.noff + 1 }

def popOff : Comp (Core ι κ) Unit := do
  let s ← .get
  if s.intr then
    .halt "pop_off - interruptible"
  else if s.noff < 1 then
    .halt "pop_off"
  else
    .modify fun s => { s with
      noff := s.noff - 1
      intr := if s.noff - 1 = 0 ∧ s.origin = true then true else s.intr }

def Core.holding (s : Core ι κ) (l : LockName ι κ) : Bool :=
  (s.lock l).locked && decide ((s.lock l).cpuid = MYCPU)

/-- A lock that is taken is waited for; with one CPU nobody gives it back. -/
def spinlockAcquire (l : LockName ι κ) : Comp (Core ι κ) Unit := do
  pushOff
  let s ← .get
  if s.holding l then
    .halt "spinlock: acquire\n"
  else if (s.lock l).locked then
    .halt "waits for ever"
  else
    .modify fun s => s.setLock l ⟨true, MYCPU⟩

def spinlockRelease (l : LockName ι κ) : Comp (Core ι κ) Unit := do
  let s ← .get
  if s.holding l then
    .modify fun s => s.setLock l .unlocked
    popOff
  else
    .halt "spinlock: release\n"

/-- `proc_sched` of the process `p` up to `swtch`; returns its local variable `origin`. -/
def procSched (p : ι) : Comp (Core ι κ) Bool := do
  let s ← .get
  if s.holding (.own p) = false then
    .halt "sched p->lk"
  else if s.noff ≠ 1 then
    .halt "sched locks"
  else if s.state p = .running then
    .halt "sched running"
  else if s.intr then
    .halt "sched interruptible"
  else
    return s.origin

/-- `proc_sched` after `swtch`. -/
def procSchedReturn (origin : Bool) : Comp (Core ι κ) Unit := .modify fun s => { s with origin := origin }

/-- `proc_scheduler` from where it takes the lock of the process that it has chosen to `swtch`. -/
def schedulerDispatch (chosen : ι) : Comp (Core ι κ) Unit := do
  spinlockAcquire (.own chosen)
  .modify fun s => { s with
    state := Function.update s.state chosen .running, proc := some chosen }

/-- `myproc` -/
def myproc : Comp (Core ι κ) (Option ι) := do
  pushOff
  let p ← .gets (·.proc)
  popOff
  return p

/-- `proc_scheduler` after `swtch`, to the release of the lock; returns `last_run`. -/
def schedulerReturn (chosen : ι) : Comp (Core ι κ) (Option ι) := do
  let lastRun ← myproc
  .modify fun s => { s with proc := none }
  spinlockRelease (.own chosen)
  return lastRun

end Code

/-- Where a process that is not on the CPU goes on: it is new, and enters by `fork_return` with its
    own lock held, or it is below `proc_sched`, which has saved `origin`. -/
inductive Ctx
  | fresh
  | sched (origin : Bool)

/-- What the CPU executes: the scheduler's loop, the scheduler after the return of a process, or a
    process. -/
inductive On (ι : Type)
  | loop
  | back (p : ι)
  | run (p : ι)

/-- `held` and `entry` are no variables of the kernel: the locks that a thread has taken and not given
    back, and the interrupt-enable bit when it took the outermost of them. The thread `none` is the
    scheduler. -/
structure World (ι κ : Type) where
  core : Core ι κ
  on : On ι
  ctx : ι → Ctx
  held : Option ι → List (LockName ι κ)
  entry : Option ι → Bool

inductive Act (ι κ : Type)
  | acquire (l : LockName ι κ)
  | release (l : LockName ι κ)
  | setIntr (b : Bool)
  | sched (st : ProcState)
  | back
  | dispatch (p : ι)
  | setState (p : ι) (st : ProcState)
  | create (p : ι)

namespace World

variable {ι κ : Type} [DecidableEq ι] [DecidableEq κ]

/-- The thread on the CPU. -/
def thread (w : World ι κ) : Option ι :=
  match w.on with
  | .run p => some p
  | _ => none

/-- The steps of threads that nest their locks well: no lock is taken twice or given back without
    being held, the interrupt-enable bit is written only while none is held, and a process calls
    `proc_sched` with exactly its own lock and another state than RUNNING. Any process can be
    dispatched. -/
def Allowed (w : World ι κ) : Act ι κ → Prop
  | .acquire l => (∀ p, w.on ≠ .back p) ∧ l ∉ w.held w.thread
  | .release l => (∀ p, w.on ≠ .back p) ∧ l ∈ w.held w.thread
  | .setIntr _ => (∀ p, w.on ≠ .back p) ∧ w.held w.thread = []
  | .sched st => ∃ p, w.on = .run p ∧ w.held (some p) = [.own p] ∧ st ≠ .running
  | .back => ∃ p, w.on = .back p
  | .dispatch _ => w.on = .loop ∧ w.held none = []
  | .setState p _ => w.on ≠ .run p
  | .create p => w.on ≠ .run p

def setCore (c : Core ι κ) (w : World ι κ) : World ι κ := { w with core := c }

/-- A computation on the CPU. -/
def onCore {α : Type} (m : Comp (Core ι κ) α) : Comp (World ι κ) α := .zoom (·.core) setCore m

/-- The step itself. -/
def perform : Act ι κ → Comp (World ι κ) Unit
  | .acquire l => do
    let w ← .get
    onCore (spinlockAcquire l)
    .modify fun v => { v with
      held := Function.update v.held w.thread (l :: w.held w.thread)
      entry := if w.held w.thread = [] then Function.update v.entry w.thread w.core.intr
        else v.entry }
  | .release l => do
    let w ← .get
    onCore (spinlockRelease l)
    .modify fun v => { v with
      held := Function.update v.held w.thread ((w.held w.thread).erase l) }
  | .setIntr b => .modify fun w => { w with core := { w.core with intr := b } }
  | .sched st => do
    let w ← .get
    match w.on with
    | .run p =>
      .modify fun w => { w with core := { w.core with state := Function.update w.core.state p st } }
      let origin ← onCore (procSched p)
      .modify fun w => { w with on := .back p, ctx := Function.update w.ctx p (.sched origin) }
    | _ => pure ()
  | .back => do
    let w ← .get
    match w.on with
    | .back p =>
      let _ ← onCore (schedulerReturn p)
      .modify fun w => { w with on := .loop }
    | _ => pure ()
  | .dispatch p => do
    let w ← .get
    onCore (schedulerDispatch p)
    match w.ctx p with
    | .sched origin => onCore (procSchedReturn origin)
    | .fresh =>
      .modify fun v => { v with
        held := Function.update v.held (some p) [.own p]
        entry := Function.update v.entry (some p) w.core.intr }
    .modify fun v => { v with on := .run p }
  | .setState p st => .modify fun w =>
    { w with core := { w.core with state := Function.update w.core.state p st } }
  | .create p => .modify fun w => { w with ctx := Function.update w.ctx p .fresh }

/-- When the scheduler starts: no lock is taken. -/
def start (intr : Bool) (state : ι → ProcState) : World ι κ where
  core := ⟨0, false, intr, none, fun _ => .unlocked, state⟩
  on := .loop
  ctx := fun _ => .fresh
  held := fun _ => []
  entry := fun _ => false

end World

end EasyXv6.Sync
