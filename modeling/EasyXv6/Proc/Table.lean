import Mathlib

set_option autoImplicit false

/-!
# The process table (proc.h)
-/
namespace EasyXv6.Proc

abbrev NPROC : ℕ := 64
abbrev NOFILE : ℕ := 16
abbrev NFILE : ℕ := 100
abbrev PRIORITY_MIN : ℤ := 0
abbrev PRIORITY_MAX : ℤ := 15
abbrev PRIORITY_DEFAULT : ℤ := 8

inductive ProcState
  | unused
  | runnable
  | running
  | sleeping
  | zombie
  deriving DecidableEq

/-- What a process sleeps on: the address of a slot of the table or of something else. -/
inductive Chan
  | proc (i : Fin NPROC)
  | addr (a : ℕ)
  deriving DecidableEq

/-- `proc_t`, a null pointer being `none` or the address 0. -/
structure ProcT where
  pid : ℤ
  state : ProcState
  sleepSpace : Option Chan
  xstate : ℤ
  killed : Bool
  parent : Option (Fin NPROC)
  pgtbl : ℕ
  heapTop : ℕ
  ustackPages : ℕ
  tf : ℕ
  ofile : Fin NOFILE → Option (Fin NFILE)
  priority : ℤ
  priorityBoost : ℤ

abbrev Table := Fin NPROC → ProcT

/-- A slot of the table at power-on. -/
def ProcT.zero : ProcT where
  pid := 0
  state := .unused
  sleepSpace := none
  xstate := 0
  killed := false
  parent := none
  pgtbl := 0
  heapTop := 0
  ustackPages := 0
  tf := 0
  ofile := fun _ => none
  priority := 0
  priorityBoost := 0

/-- A slot that `proc_alloc` has found UNUSED and given a pid. -/
def ProcT.found (p : ProcT) (pid : ℤ) : ProcT :=
  { p with pid := pid, priority := PRIORITY_DEFAULT, priorityBoost := 0, state := .runnable }

/-- The fields that `proc_free` resets. -/
def ProcT.freed (p : ProcT) : ProcT :=
  { p with
    tf := 0, pgtbl := 0, ustackPages := 0, parent := none, sleepSpace := none, killed := false,
    xstate := 0, state := .unused, priority := PRIORITY_DEFAULT, priorityBoost := 0 }

/-- The descriptors of a child: those that are open in the parent. -/
def ProcT.dupFiles (np p : ProcT) : ProcT :=
  { np with ofile := fun fd => if (p.ofile fd).isSome then p.ofile fd else np.ofile fd }

/-- `proc_init` -/
def procInit (t : Table) : Table := fun i =>
  { t i with state := .unused, priority := PRIORITY_DEFAULT, priorityBoost := 0 }

end EasyXv6.Proc
