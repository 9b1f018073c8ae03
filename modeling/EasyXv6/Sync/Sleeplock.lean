import EasyXv6.Sync.Switch

set_option autoImplicit false

/-!
# Sleep locks (sleeplock.c)

Processes on one CPU acquire and release one sleep lock. A step of their code ends with an operation
on a spinlock, with the call of `proc_sched` or with a round of a loop. Between two steps the CPU can
be interrupted if the bit for it is set, and a kill can arrive.
-/
namespace EasyXv6.Sync
open Lib Proc

structure Sleeplock where
  locked : Bool
  pid : ℤ

/-- `p->sleep_space`: null, the address of the sleep lock, or another one. -/
inductive Space
  | null
  | slk
  | other
  deriving DecidableEq

/-- Where a process is: not in the functions of the sleep lock and without it, before
    `spinlock_acquire(&slk->lk)`, before `while (slk->locked)`, in `proc_sleep` before
    `spinlock_release(lk)`, before it sets its state, and below `proc_sched`; with the lock, before
    `spinlock_acquire(&slk->lk)` of the release, before `slk->locked = 0`, and in the loop of
    `proc_wakeup` before and after it has taken the lock of a process. -/
inductive Pc (n : ℕ)
  | outside
  | acquiring
  | testing
  | handing
  | dozing
  | asleep
  | inside
  | releasing
  | clearing
  | waking (k : ℕ)
  | checking (k : Fin n)

/-- The lock `none` is `slk->lk`. `trap` is set while a process is in an interrupt handler. -/
structure Sleepers (n : ℕ) (κ : Type) where
  world : World (Fin n) (Option κ)
  slk : Sleeplock
  pid : Fin n → ℤ
  killed : Fin n → Bool
  sleepSpace : Fin n → Space
  pc : Fin n → Pc n
  trap : Fin n → Bool

/-- `slk->lk` -/
abbrev inner {n : ℕ} {κ : Type} : LockName (Fin n) (Option κ) := .other none

namespace Pc

variable {n : ℕ} {κ : Type}

/-- The process has the lock: it has returned from `sleeplock_acquire`, and has not cleared
    `slk->locked` in `sleeplock_release`. -/
def Owner : Pc n → Prop
  | .inside => True
  | .releasing => True
  | .clearing => True
  | _ => False

/-- The locks that a process holds at a place. -/
def locks (p : Fin n) : Pc n → List (LockName (Fin n) (Option κ))
  | .testing => [inner]
  | .handing => [.own p, inner]
  | .dozing => [.own p]
  | .asleep => [.own p]
  | .clearing => [inner]
  | .waking _ => [inner]
  | .checking k => [.own k, inner]
  | _ => []

/-- The process is about to sleep. -/
def About : Pc n → Prop
  | .handing => True
  | .dozing => True
  | _ => False

/-- The loop of `proc_wakeup` will come to the process `q`. -/
def Wakes (q : Fin n) : Pc n → Prop
  | .waking k => k ≤ q.val
  | .checking k => k ≤ q
  | _ => False

end Pc

namespace Sleepers

variable {n : ℕ} {κ : Type} [DecidableEq κ]

def act (a : Act (Fin n) (Option κ)) : Comp (Sleepers n κ) Unit :=
  .zoom (·.world) (fun w s => { s with world := w }) (World.perform a)

def goto (p : Fin n) (c : Pc n) : Comp (Sleepers n κ) Unit :=
  .modify fun s => { s with pc := Function.update s.pc p c }

def setSpace (p : Fin n) (x : Space) : Comp (Sleepers n κ) Unit :=
  .modify fun s => { s with sleepSpace := Function.update s.sleepSpace p x }

/-- One round of the loop of `sleeplock_acquire`: the process takes the lock or calls `proc_sleep`. -/
def test (p : Fin n) : Comp (Sleepers n κ) Unit := do
  let s ← .get
  if s.slk.locked then
    act (.acquire (.own p))
    goto p .handing
  else
    .modify fun s => { s with slk := ⟨true, s.pid p⟩ }
    act (.release inner)
    goto p .inside

/-- The loop of `proc_wakeup` before `proc[k]`, and the end of `sleeplock_release`. -/
def wake (p : Fin n) (k : ℕ) : Comp (Sleepers n κ) Unit :=
  if h : k < n then
    if (⟨k, h⟩ : Fin n) = p then
      goto p (.waking (k + 1))
    else do
      act (.acquire (.own ⟨k, h⟩))
      goto p (.checking ⟨k, h⟩)
  else do
    act (.release inner)
    goto p .outside

/-- The condition and the end of a round of the loop of `proc_wakeup`. -/
def check (p k : Fin n) : Comp (Sleepers n κ) Unit := do
  let s ← .get
  if s.world.core.state k = .sleeping ∧ s.sleepSpace k = .slk then
    act (.setState k .runnable)
    act (.release (.own k))
    goto p (.waking (k + 1))
  else
    act (.release (.own k))
    goto p (.waking (k + 1))

/-- The next step of a process in `sleeplock_acquire` or `sleeplock_release`. -/
def code (p : Fin n) : Pc n → Comp (Sleepers n κ) Unit
  | .acquiring => do
    act (.acquire inner)
    goto p .testing
  | .testing => test p
  | .handing => do
    act (.release inner)
    goto p .dozing
  | .dozing => do
    setSpace p .slk
    act (.sched .sleeping)
    goto p .asleep
  | .asleep => do
    setSpace p .null
    act (.release (.own p))
    goto p .acquiring
  | .releasing => do
    act (.acquire inner)
    goto p .clearing
  | .clearing => do
    .modify fun s => { s with slk := ⟨false, -1⟩ }
    goto p (.waking 0)
  | .waking k => wake p k
  | .checking k => check p k
  | .outside | .inside => .halt "not in the functions of the sleep lock"

/-- What other code does to the locks and the CPU: it does not use `slk->lk`, and the scheduler
    dispatches processes that are RUNNABLE. -/
def Foreign (s : Sleepers n κ) : Act (Fin n) (Option κ) → Prop
  | .acquire l => l ≠ inner
  | .release l => l ≠ inner
  | .dispatch q => s.world.core.state q = .runnable
  | .setState _ _ => False
  | .create _ => False
  | _ => True

/-- The process executes other code: it is in a handler, or not in the functions of the lock. -/
def Free (s : Sleepers n κ) (p : Fin n) : Prop :=
  s.trap p = true ∨ s.pc p = .outside ∨ s.pc p = .inside

def setIntr (s : Sleepers n κ) (b : Bool) : World (Fin n) (Option κ) :=
  { s.world with core := { s.world.core with intr := b } }

def setState (s : Sleepers n κ) (q : Fin n) (st : ProcState) : World (Fin n) (Option κ) :=
  { s.world with core := { s.world.core with state := Function.update s.world.core.state q st } }

inductive Event (n : ℕ) (κ : Type)
  | code
  | acquire
  | release
  | interrupt
  | resume
  | own (a : Act (Fin n) (Option κ))
  | scheduler (a : Act (Fin n) (Option κ))
  | kill (q : Fin n)
  | wake (q : Fin n)
  | create (q : Fin n)

inductive Step : Sleepers n κ → Event n κ → Sleepers n κ → Prop
  | code {s s' : Sleepers n κ} {p : Fin n} (on : s.world.on = .run p) (here : s.trap p = false)
      (run : (code p (s.pc p)).run s = .ok () s') : Step s .code s'
  | acquire {s : Sleepers n κ} {p : Fin n} (on : s.world.on = .run p) (here : s.trap p = false)
      (pc : s.pc p = .outside) : Step s .acquire { s with pc := Function.update s.pc p .acquiring }
  | release {s : Sleepers n κ} {p : Fin n} (on : s.world.on = .run p) (here : s.trap p = false)
      (pc : s.pc p = .inside) : Step s .release { s with pc := Function.update s.pc p .releasing }
  | interrupt {s : Sleepers n κ} {p : Fin n} (on : s.world.on = .run p) (here : s.trap p = false)
      (enabled : s.world.core.intr = true) : Step s .interrupt
        { s with world := s.setIntr false, trap := Function.update s.trap p true }
  | resume {s : Sleepers n κ} {p : Fin n} (on : s.world.on = .run p) (there : s.trap p = true)
      (done : s.world.held (some p) = []) : Step s .resume
        { s with world := s.setIntr true, trap := Function.update s.trap p false }
  | own {s : Sleepers n κ} {p : Fin n} {a : Act (Fin n) (Option κ)}
      {w : World (Fin n) (Option κ)} {x : Space} (on : s.world.on = .run p) (free : s.Free p)
      (foreign : s.Foreign a) (step : World.Step s.world a w) (space : x ≠ .slk) :
      Step s (.own a) { s with world := w, sleepSpace := Function.update s.sleepSpace p x }
  | scheduler {s : Sleepers n κ} {a : Act (Fin n) (Option κ)} {w : World (Fin n) (Option κ)}
      (on : ∀ p, s.world.on ≠ .run p) (foreign : s.Foreign a) (step : World.Step s.world a w) :
      Step s (.scheduler a) { s with world := w }
  | kill {s : Sleepers n κ} (q : Fin n) : Step s (.kill q)
      { s with
        killed := Function.update s.killed q true
        world := s.setState q
          (if s.world.core.state q = .sleeping then .runnable else s.world.core.state q) }
  | wake {s : Sleepers n κ} {q : Fin n} (state : s.world.core.state q = .sleeping)
      (space : s.sleepSpace q ≠ .slk) : Step s (.wake q) { s with world := s.setState q .runnable }
  | create {s : Sleepers n κ} {q : Fin n} {w : World (Fin n) (Option κ)} {pid : ℤ}
      (on : s.world.on ≠ .run q) (pc : s.pc q = .outside)
      (step : World.Step (s.setState q .runnable) (.create q) w) : Step s (.create q)
        { s with
          world := w, pid := Function.update s.pid q pid, trap := Function.update s.trap q false
          killed := Function.update s.killed q false
          sleepSpace := Function.update s.sleepSpace q .null }

/-- When the scheduler starts, with the lock as `sleeplock_init` leaves it. -/
def start (intr : Bool) (state : Fin n → ProcState) (pid : Fin n → ℤ) : Sleepers n κ where
  world := .start intr state
  slk := ⟨false, -1⟩
  pid := pid
  killed := fun _ => false
  sleepSpace := fun _ => .null
  pc := fun _ => .outside
  trap := fun _ => false

/-- The process is SLEEPING on the lock. -/
def SleepsOn (s : Sleepers n κ) (q : Fin n) : Prop :=
  s.world.core.state q = .sleeping ∧ s.sleepSpace q = .slk

end Sleepers

end EasyXv6.Sync
