import EasyXv6.Proc.Scheduler

set_option autoImplicit false

/-!
# Processes on one CPU

A step is the code between two points at which a timer interrupt can be taken. While a spinlock is
held interrupts are off, so a critical section is one step.
-/
namespace EasyXv6.Proc

/-- `proczero` is the first slot of the table. -/
abbrev proczero : Fin NPROC := 0

/-- What the CPU does: the scheduler's loop over the table, the loop of
    `boost_waiting_processes`, or a process. -/
inductive Cpu
  | scan (k : ℕ) (c : Choice)
  | age (k : ℕ) (lastRun : Fin NPROC)
  | run (i : Fin NPROC)

/-- `c->proc` -/
def Cpu.current : Cpu → Option (Fin NPROC)
  | .run i => some i
  | _ => none

theorem Cpu.current_eq_some {c : Cpu} {i : Fin NPROC} : c.current = some i ↔ c = .run i := by
  cases c <;> simp [current]

/-- Where a process is: in `proc_alloc` before the slot `k`, in `proc_fork` before it takes
    `wait_lock` or `np->lk`, below `proc_sched` in `proc_sleep` or `proc_exit`, or in other code. -/
inductive Loc
  | other
  | alloc (k : ℕ)
  | link (np : Fin NPROC) (pid : ℤ)
  | publish (np : Fin NPROC) (pid : ℤ)
  | asleep
  | dead

/-- `due` is no variable of the kernel: it is the priority that a process has inherited from its
    parent, or has set since. -/
structure Machine where
  proc : Table
  nextpid : ℤ
  cpu : Cpu
  loc : Fin NPROC → Loc
  due : Fin NPROC → ℤ

inductive Act
  | scan
  | age
  | wakeup (j : Fin NPROC) (space : Chan)
  | preempt
  | sleep (space : Chan)
  | kill (j : Fin NPROC)
  | setPriority (priority : ℤ)
  | exit (state : ℤ)
  | wait
  | fork
  | allocSlot (tf pgtbl : ℕ)
  | link
  | publish

def Choice.start : Choice := ⟨none, PRIORITY_MIN - 1⟩

namespace Machine

/-- After `proc_make_first`, when the scheduler starts. -/
def init : Machine where
  proc := Function.update (procInit fun _ => .zero) proczero
    { (procInit fun _ => .zero) proczero with state := .runnable }
  nextpid := 2
  cpu := .scan 0 .start
  loc := fun _ => .other
  due := fun _ => PRIORITY_DEFAULT

def setProc (s : Machine) (i : Fin NPROC) (p : ProcT) : Machine :=
  { s with proc := Function.update s.proc i p }

def setLoc (s : Machine) (i : Fin NPROC) (l : Loc) : Machine :=
  { s with loc := Function.update s.loc i l }

@[simp] theorem setProc_proc_self (s : Machine) (i : Fin NPROC) (p : ProcT) :
    (s.setProc i p).proc i = p := Function.update_self ..
theorem setProc_proc_of_ne (s : Machine) {i j : Fin NPROC} (h : j ≠ i) (p : ProcT) :
    (s.setProc i p).proc j = s.proc j := Function.update_of_ne h ..
@[simp] theorem setProc_loc (s : Machine) (i : Fin NPROC) (p : ProcT) :
    (s.setProc i p).loc = s.loc := rfl
@[simp] theorem setProc_cpu (s : Machine) (i : Fin NPROC) (p : ProcT) :
    (s.setProc i p).cpu = s.cpu := rfl
@[simp] theorem setProc_due (s : Machine) (i : Fin NPROC) (p : ProcT) :
    (s.setProc i p).due = s.due := rfl
@[simp] theorem setLoc_loc_self (s : Machine) (i : Fin NPROC) (l : Loc) :
    (s.setLoc i l).loc i = l := Function.update_self ..
theorem setLoc_loc_of_ne (s : Machine) {i j : Fin NPROC} (h : j ≠ i) (l : Loc) :
    (s.setLoc i l).loc j = s.loc j := Function.update_of_ne h ..
@[simp] theorem setLoc_proc (s : Machine) (i : Fin NPROC) (l : Loc) :
    (s.setLoc i l).proc = s.proc := rfl
@[simp] theorem setLoc_cpu (s : Machine) (i : Fin NPROC) (l : Loc) :
    (s.setLoc i l).cpu = s.cpu := rfl
@[simp] theorem setLoc_due (s : Machine) (i : Fin NPROC) (l : Loc) :
    (s.setLoc i l).due = s.due := rfl

/-- `swtch` to the scheduler. -/
def switchOut (s : Machine) (i : Fin NPROC) : Machine := { s with cpu := .age 0 i }

@[simp] theorem switchOut_proc (s : Machine) (i : Fin NPROC) : (s.switchOut i).proc = s.proc := rfl
@[simp] theorem switchOut_loc (s : Machine) (i : Fin NPROC) : (s.switchOut i).loc = s.loc := rfl
@[simp] theorem switchOut_cpu (s : Machine) (i : Fin NPROC) : (s.switchOut i).cpu = .age 0 i := rfl
@[simp] theorem switchOut_due (s : Machine) (i : Fin NPROC) : (s.switchOut i).due = s.due := rfl

/-- `swtch` to the chosen process, which leaves `proc_sleep` if it was in it. -/
def dispatchTo (s : Machine) (i : Fin NPROC) : Machine :=
  let t := { s with proc := dispatch s.proc i, cpu := .run i }
  match s.loc i with
  | .asleep => (t.setProc i { t.proc i with sleepSpace := none }).setLoc i .other
  | _ => t

def scanStep (s : Machine) : Option Machine :=
  match s.cpu with
  | .scan k c =>
    if h : k < NPROC then some { s with cpu := .scan (k + 1) (consider s.proc c ⟨k, h⟩) }
    else match c.chosen with
      | none => some { s with cpu := .scan 0 .start }
      | some i => some (s.dispatchTo i)
  | _ => none

def ageStep (s : Machine) : Option Machine :=
  match s.cpu with
  | .age k lastRun =>
    if h : k < NPROC then
      some { s.setProc ⟨k, h⟩ (boostOne lastRun ⟨k, h⟩ (s.proc ⟨k, h⟩)) with
        cpu := .age (k + 1) lastRun }
    else some { s with cpu := .scan 0 .start }
  | _ => none

/-- One round of the loop of `proc_wakeup`. -/
def wakeupStep (s : Machine) (j : Fin NPROC) (space : Chan) : Machine :=
  if (s.proc j).state = .sleeping ∧ (s.proc j).sleepSpace = some space then
    s.setProc j { s.proc j with state := .runnable }
  else s

/-- `proc_yield` -/
def yieldStep (s : Machine) (i : Fin NPROC) : Machine :=
  (s.setProc i { s.proc i with state := .runnable }).switchOut i

/-- `proc_sleep` up to `proc_sched`. -/
def sleepStep (s : Machine) (i : Fin NPROC) (space : Chan) : Machine :=
  ((s.setProc i { s.proc i with sleepSpace := some space, state := .sleeping }).setLoc i
    .asleep).switchOut i

/-- The round of `proc_kill` that finds the pid. -/
def killStep (s : Machine) (j : Fin NPROC) : Machine :=
  s.setProc j { s.proc j with
    killed := true
    state := if (s.proc j).state = .sleeping then .runnable else (s.proc j).state }

def setPriorityStep (s : Machine) (i : Fin NPROC) (priority : ℤ) : Machine :=
  if priority < PRIORITY_MIN ∨ PRIORITY_MAX < priority then s
  else
    { s.setProc i { s.proc i with priority := priority, priorityBoost := 0 } with
      due := Function.update s.due i priority }

/-- `proc_wakeup_one` -/
def wakeupOne (t : Table) (p : Fin NPROC) : Table :=
  if (t p).state = .sleeping ∧ (t p).sleepSpace = some (.proc p) then
    Function.update t p { t p with state := .runnable }
  else t

/-- The body of the loop of `proc_reparent`. -/
def reparentOne (parent : Fin NPROC) (t : Table) (pp : Fin NPROC) : Table :=
  if (t pp).parent = some parent then
    wakeupOne (Function.update t pp { t pp with parent := some proczero }) proczero
  else t

def reparent (t : Table) (parent : Fin NPROC) : Table :=
  (List.finRange NPROC).foldl (reparentOne parent) t

/-- `proc_exit` from `wait_lock` to `proc_sched`. It panics for `proczero`, and a null parent is
    a fault. -/
def exitStep (s : Machine) (i : Fin NPROC) (state : ℤ) : Option Machine :=
  if i = proczero then none
  else
    let t := reparent s.proc i
    match (t i).parent with
    | none => none
    | some q =>
      let t := wakeupOne t q
      let p := { t i with ofile := fun _ => none, xstate := state, state := .zombie }
      some ((({ s with proc := t }.setProc i p).setLoc i .dead).switchOut i)

/-- A round of `proc_wait`: it reaps the first zombie child, returns -1, or sleeps. -/
def waitStep (s : Machine) (i : Fin NPROC) : Machine :=
  match (List.finRange NPROC).find? fun pp =>
      (s.proc pp).parent = some i ∧ (s.proc pp).state = .zombie with
  | some pp => s.setProc pp (s.proc pp).freed
  | none =>
    if ¬ (∃ pp, (s.proc pp).parent = some i) ∨ (s.proc i).killed then s
    else s.sleepStep i (.proc i)

/-- A round of the loop of `proc_alloc`. A slot found UNUSED is filled in by `proc_alloc` and
    `proc_fork` up to the release of `np->lk`; `tf` and `pgtbl` are the pages it got. -/
def allocStep (s : Machine) (i : Fin NPROC) (k tf pgtbl : ℕ) : Machine :=
  if h : k < NPROC then
    let np : Fin NPROC := ⟨k, h⟩
    if (s.proc np).state = .unused then
      let p := s.proc i
      let child := { (s.proc np).found s.nextpid with
        tf := tf, pgtbl := pgtbl, ustackPages := p.ustackPages }
      { ((s.setProc np (child.dupFiles p)).setLoc np .other).setLoc i (.link np s.nextpid) with
        nextpid := s.nextpid + 1, due := Function.update s.due np p.priority }
    else s.setLoc i (.alloc (k + 1))
  else s.setLoc i .other

/-- `proc_fork` under `wait_lock`. -/
def linkStep (s : Machine) (i np : Fin NPROC) (pid : ℤ) : Machine :=
  let p := s.proc i
  (s.setProc np { s.proc np with
    parent := some i, priority := p.priority, priorityBoost := p.priorityBoost }).setLoc i
      (.publish np pid)

/-- The last critical section of `proc_fork`. -/
def publishStep (s : Machine) (i np : Fin NPROC) : Machine :=
  (s.setProc np { s.proc np with state := .runnable }).setLoc i .other

/-- A step of the process on the CPU, or `none` where it cannot be taken. -/
def procStep (s : Machine) (i : Fin NPROC) : Act → Option Machine
  | .preempt => if (s.proc i).state = .running then some (s.yieldStep i) else none
  | .wakeup j space => if j = i then none else some (s.wakeupStep j space)
  | .sleep space => match s.loc i with
    | .other => some (s.sleepStep i space)
    | _ => none
  | .kill j => match s.loc i with
    | .other => some (s.killStep j)
    | _ => none
  | .setPriority priority => match s.loc i with
    | .other => some (s.setPriorityStep i priority)
    | _ => none
  | .exit state => match s.loc i with
    | .other => s.exitStep i state
    | _ => none
  | .wait => match s.loc i with
    | .other => some (s.waitStep i)
    | _ => none
  | .fork => match s.loc i with
    | .other => some (s.setLoc i (.alloc 0))
    | _ => none
  | .allocSlot tf pgtbl => match s.loc i with
    | .alloc k => some (s.allocStep i k tf pgtbl)
    | _ => none
  | .link => match s.loc i with
    | .link np pid => some (s.linkStep i np pid)
    | _ => none
  | .publish => match s.loc i with
    | .publish np _ => some (s.publishStep i np)
    | _ => none
  | .scan | .age => none

def step (s : Machine) : Act → Option Machine
  | .scan => s.scanStep
  | .age => s.ageStep
  | a => match s.cpu with
    | .run i => s.procStep i a
    | _ => match a with
      -- a timer interrupt in the scheduler
      | .wakeup j space => some (s.wakeupStep j space)
      | _ => none

/-- The machine after the steps of a list. -/
def after (s : Machine) : List Act → Option Machine
  | [] => some s
  | a :: as => (s.step a).bind fun t => t.after as

end Machine

end EasyXv6.Proc
