import EasyXv6.Mem.Uvm
import EasyXv6.Proc.Machine

set_option autoImplicit false

/-!
# Processes and their memory (proc.c, sysfunc.c)

The four calls that take and give back pages, each as one computation: `proc_fork` and `proc_wait`
hold a spinlock while they do, and `sys_brk` works on a table of its own.
-/
namespace EasyXv6.Proc
open Lib Mem

structure Kernel where
  pm : Pmem
  proc : Table
  nextpid : ℤ

namespace Kernel

def setProc (s : Kernel) (i : Fin NPROC) (p : ProcT) : Kernel :=
  { s with proc := Function.update s.proc i p }

@[simp] theorem setProc_pm (s : Kernel) (i : Fin NPROC) (p : ProcT) :
    (s.setProc i p).pm = s.pm := rfl
@[simp] theorem setProc_proc_self (s : Kernel) (i : Fin NPROC) (p : ProcT) :
    (s.setProc i p).proc i = p := Function.update_self ..
theorem setProc_proc_of_ne (s : Kernel) {i j : Fin NPROC} (h : j ≠ i) (p : ProcT) :
    (s.setProc i p).proc j = s.proc j := Function.update_of_ne h ..

end Kernel

/-- An operation on the physical memory. -/
def onMem {α : Type} (m : Comp Pmem α) : Comp Kernel α :=
  .zoom (·.pm) (fun pm s => { s with pm := pm }) m

def setProc (i : Fin NPROC) (f : ProcT → ProcT) : Comp Kernel Unit :=
  .modify fun s => s.setProc i (f (s.proc i))

def allocpid : Comp Kernel ℤ := do
  let s ← .get
  .modify fun s => { s with nextpid := s.nextpid + 1 }
  return s.nextpid

def procPgtblInit (L : Layout) (trapframe : ℕ) : Comp Pmem ℕ := do
  let pagetable ← pmemAlloc
  if pagetable = 0 then
    return 0
  else
    memzero pagetable
    vmMappages pagetable TRAMPOLINE L.trampoline PGSIZE (PTE_R ||| PTE_X)
    vmMappages pagetable TRAPFRAME trapframe PGSIZE (PTE_R ||| PTE_W)
    return pagetable

def procFree (L : Layout) (i : Fin NPROC) : Comp Kernel Unit := do
  let p ← .gets (·.proc i)
  onMem (if p.tf ≠ 0 then pmemFree L p.tf else pure ())
  onMem (if p.pgtbl ≠ 0 then uvmDestroyPgtbl L p.pgtbl else pure ())
  setProc i ProcT.freed

/-- The slot at which the loop of `proc_alloc` stops. -/
def firstUnused (t : Table) : Option (Fin NPROC) :=
  (List.finRange NPROC).find? fun i => (t i).state = .unused

def procAlloc (L : Layout) : Comp Kernel (Option (Fin NPROC)) := do
  let s ← .get
  match firstUnused s.proc with
  | none => return none
  | some i =>
    let pid ← allocpid
    setProc i (·.found pid)
    let tf ← onMem pmemAlloc
    setProc i fun p => { p with tf := tf }
    if tf = 0 then
      procFree L i
      return none
    else
      let pgtbl ← onMem (procPgtblInit L tf)
      setProc i fun p => { p with pgtbl := pgtbl }
      if pgtbl = 0 then
        procFree L i
        return none
      else
        return some i

/-- `sizeof(trapframe_t)`, and the offsets of the registers that the kernel writes itself. -/
abbrev TRAPFRAME_SIZE : ℕ := 288
abbrev EPC : ℕ := 24
abbrev SP : ℕ := 48
abbrev A0 : ℕ := 112

/-- `*(np->tf) = *(p->tf)` -/
def copyTrapframe (np p : ℕ) : Comp Pmem Unit :=
  .modify fun s => s.setPage np (·.put 0 TRAPFRAME_SIZE (s.mem p).byte)

def setReg (tf off v : ℕ) : Comp Pmem Unit := .modify (·.setPage tf (·.putNum off 8 v))

/-- `proc_fork` of the process `i`. -/
def procFork (L : Layout) (i : Fin NPROC) : Comp Kernel ℤ := do
  match ← procAlloc L with
  | none => return -1
  | some np =>
    let p ← .gets (·.proc i)
    let child ← .gets (·.proc np)
    onMem (uvmCopyPgtbl L p.pgtbl child.pgtbl p.heapTop)
    setProc np fun q => { q with ustackPages := p.ustackPages }
    onMem (copyTrapframe child.tf p.tf)
    onMem (setReg child.tf A0 0)
    setProc np (·.dupFiles p)
    setProc np fun q => { q with
      parent := some i, priority := p.priority, priorityBoost := p.priorityBoost }
    setProc np fun q => { q with state := .runnable }
    return child.pid

/-- `proc_exit` up to `proc_sched`. A null parent is a fault of the kernel. -/
def procExit (i : Fin NPROC) (exitState : ℤ) : Comp Kernel Unit :=
  if i = proczero then
    .halt "init exiting"
  else do
    setProc i fun p => { p with ofile := fun _ => none }
    .modify fun s => { s with proc := Machine.reparent s.proc i }
    let p ← .gets (·.proc i)
    match p.parent with
    | none => .halt "scause"
    | some parent =>
      .modify fun s => { s with proc := Machine.wakeupOne s.proc parent }
      setProc i fun p => { p with xstate := exitState, state := .zombie }

/-- The child that the loop of `proc_wait` reaps. -/
def firstZombie (t : Table) (i : Fin NPROC) : Option (Fin NPROC) :=
  (List.finRange NPROC).find? fun pp => (t pp).parent = some i ∧ (t pp).state = .zombie

/-- A round of the outer loop of `proc_wait`: `none` if the process goes to sleep. -/
def procWait (L : Layout) (i : Fin NPROC) (addr : ℕ) : Comp Kernel (Option ℤ) := do
  let s ← .get
  match firstZombie s.proc i with
  | some pp =>
    let _ ← onMem (if addr ≠ 0 then
        uvmCopyout (s.proc i).pgtbl addr (leByte ((s.proc pp).xstate % 2 ^ 32).toNat) 4
      else pure true)
    procFree L pp
    return some (s.proc pp).pid
  | none =>
    if ¬ (∃ pp, (s.proc pp).parent = some i) ∨ (s.proc i).killed then
      return some (-1)
    else
      setProc i fun p => { p with sleepSpace := some (.proc i), state := .sleeping }
      return none

/-- The slot at which the loop of `proc_kill` stops. -/
def firstPid (t : Table) (pid : ℤ) : Option (Fin NPROC) :=
  (List.finRange NPROC).find? fun p => (t p).pid = pid

def procKill (pid : ℤ) : Comp Kernel ℤ := do
  let s ← .get
  match firstPid s.proc pid with
  | some p =>
    setProc p fun q => { q with
      killed := true
      state := if q.state = .sleeping then .runnable else q.state }
    return 0
  | none => return -1

def sysBrk (L : Layout) (i : Fin NPROC) (newHeapTop : ℕ) : Comp Kernel ℕ := do
  let p ← .gets (·.proc i)
  if newHeapTop = 0 then
    return p.heapTop
  else
    let h ← onMem (if p.heapTop < newHeapTop then
        uvmHeapGrow L p.pgtbl p.heapTop ((newHeapTop - p.heapTop) % 2 ^ 32)
      else uvmHeapUngrow L p.pgtbl p.heapTop ((p.heapTop - newHeapTop) % 2 ^ 32))
    setProc i fun q => { q with heapTop := h.heapTop }
    return h.ret

abbrev userInitcodeLen : ℕ := 3327

/-- A round of the loop of `proc_make_first`. The bytes of `user_initcode` are a parameter. -/
def mapCode (code : ℕ → UInt8) (pgtbl addr : ℕ) : Comp Pmem Unit := do
  let mem ← pmemAlloc
  if mem = 0 then
    .halt "proc_make_first: pmem_alloc failed"
  else
    memzero mem
    vmMappages pgtbl addr mem PGSIZE (PTE_W ||| PTE_R ||| PTE_X ||| PTE_U)
    .modify (·.setPage mem (·.put 0 (min (userInitcodeLen - addr) PGSIZE) fun j => code (addr + j)))

def procMakeFirst (L : Layout) (code : ℕ → UInt8) : Comp Kernel Unit := do
  match ← procAlloc L with
  | none => .halt "scause"
  | some np =>
    setProc np fun q => { q with pid := 0 }
    let p ← .gets (·.proc np)
    onMem do
      let ustackPhys ← pmemAlloc
      vmMappages p.pgtbl (KSTACK 0 - PGSIZE) ustackPhys PGSIZE (PTE_R ||| PTE_W ||| PTE_U)
      .forUpTo (rounds 0 userInitcodeLen) fun k => mapCode code p.pgtbl (k * PGSIZE)
      setReg p.tf EPC 0
      setReg p.tf SP (rounds 0 userInitcodeLen * PGSIZE)
    setProc np fun q => { q with
      ustackPages := rounds 0 userInitcodeLen, heapTop := rounds 0 userInitcodeLen * PGSIZE,
      state := .runnable }

/-- The pages that the kernel takes for its own tables, stacks and queues before the first process
    exists, and what it writes to them. -/
def kernelTakes : List Page → Comp Pmem (List ℕ)
  | [] => pure []
  | content :: rest => do
    let page ← pmemAlloc
    .modify (·.setPage page fun _ => content)
    let pages ← kernelTakes rest
    return page :: pages

/-- `main` from `pmem_init` to `proc_make_first`; returns the pages that the kernel has taken. -/
def boot (L : Layout) (taken : List Page) (code : ℕ → UInt8) : Comp Kernel (List ℕ) := do
  onMem (pmemInit L)
  let pages ← onMem (kernelTakes taken)
  .modify fun s => { s with proc := procInit s.proc }
  procMakeFirst L code
  return pages

/-- At power-on. -/
def powerOn (m : ℕ → Page) : Kernel := ⟨⟨m, 0, 0⟩, fun _ => .zero, 1⟩

end EasyXv6.Proc
