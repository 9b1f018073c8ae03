import EasyXv6.Trap.Trampoline

set_option autoImplicit false

/-!
# Traps from user mode and back (trap_user.c, syscall.c)

One hart and the processes that take turns on it. User code does what it likes with the registers
and with the memory that its table gives it; so does the compiled kernel with the registers, the
hart's id in `tp` and `satp` apart.
-/
namespace EasyXv6.Trap
open Lib Rv64 Mem Proc

/-- Where a process is. -/
inductive Loc
  | user
  /-- in `trap_user_handler`, before it looks at scause -/
  | entered (cause : Word)
  /-- in `syscall` -/
  | calling
  /-- before the last test of `killed` -/
  | handled
  /-- on the way into `trap_user_return`, also from `fork_return` -/
  | leaving

/-- Addresses that the linker decides, and the registers of the kernel that do not change. -/
structure Symbols where
  userVector : Word
  kernelVector : Word
  trapUserHandler : Word
  kernelSatp : Word
  hartid : Word

structure Machine where
  hart : Hart
  kernel : Kernel
  /-- the process whose thread the hart runs -/
  cur : Fin NPROC
  loc : Fin NPROC → Loc

abbrev KERNEL_SATP : ℕ := 0
abbrev KERNEL_SP : ℕ := 8
abbrev KERNEL_TRAP : ℕ := 16
abbrev KERNEL_HARTID : ℕ := 32

/-- A field of a trapframe. -/
def frameWord (s : Pmem) (tf off : ℕ) : Word := BitVec.ofNat 64 ((s.mem tf).num off 8)

def setFrame (s : Pmem) (tf off : ℕ) (v : Word) : Pmem := s.setPage tf (·.putNum off 8 v.toNat)

namespace Machine

def setPm (m : Machine) (pm : Pmem) : Machine := { m with kernel := { m.kernel with pm := pm } }

def setLoc (m : Machine) (l : Loc) : Machine := { m with loc := Function.update m.loc m.cur l }

/-- `p->tf` -/
def tf (m : Machine) : ℕ := (m.kernel.proc m.cur).tf

variable (m : Machine) (pm : Pmem) (l : Loc)

@[simp] theorem setPm_hart : (m.setPm pm).hart = m.hart := rfl
@[simp] theorem setPm_pm : (m.setPm pm).kernel.pm = pm := rfl
@[simp] theorem setPm_proc : (m.setPm pm).kernel.proc = m.kernel.proc := rfl
@[simp] theorem setPm_cur : (m.setPm pm).cur = m.cur := rfl
@[simp] theorem setPm_loc : (m.setPm pm).loc = m.loc := rfl
@[simp] theorem setLoc_hart : (m.setLoc l).hart = m.hart := rfl
@[simp] theorem setLoc_kernel : (m.setLoc l).kernel = m.kernel := rfl
@[simp] theorem setLoc_cur : (m.setLoc l).cur = m.cur := rfl
@[simp] theorem setLoc_loc : (m.setLoc l).loc = Function.update m.loc m.cur l := rfl

end Machine

/-- A trap from user mode: the hardware, `user_vector`, and `trap_user_handler` up to its test of
    scause. There is no result if the trampoline faults, jumps elsewhere or the assertion fails. -/
def userTrap (K : Symbols) (cause tval : Word) (m : Machine) : Option Machine :=
  let h := m.hart.trap cause tval
  if h.pc ≠ K.userVector then
    none
  else
    match run mmu userVector h m.kernel.pm with
    | none => none
    | some (h, pm) =>
      if h.pc ≠ K.trapUserHandler then
        none
      -- trap_user_handler: not from u-mode
      else if h.csr .sstatus &&& SPP ≠ 0 then
        none
      else
        some { (m.setPm (setFrame pm m.tf EPC (h.csr .sepc))).setLoc (.entered (h.csr .scause)) with
          hart := h.setCsr .stvec K.kernelVector }

/-- `trap_user_return`, up to its jump into the trampoline. -/
def trapUserReturn (K : Symbols) (m : Machine) : Hart × Pmem :=
  let h := m.hart
  let h := h.setCsr .sstatus (h.csr .sstatus &&& ~~~SIE)
  let h := h.setCsr .stvec K.userVector
  let pm := setFrame m.kernel.pm m.tf KERNEL_SATP (h.csr .satp)
  let pm := setFrame pm m.tf KERNEL_SP (BitVec.ofNat 64 (KSTACK m.cur + PGSIZE))
  let pm := setFrame pm m.tf KERNEL_TRAP K.trapUserHandler
  let pm := setFrame pm m.tf KERNEL_HARTID (h.reg .tp)
  let h := h.setCsr .sstatus (h.csr .sstatus &&& ~~~SPP ||| SPIE)
  let h := h.setCsr .sepc (frameWord pm m.tf EPC)
  let h := h.setReg .a0 (BitVec.ofNat 64 TRAPFRAME)
  let h := h.setReg .a1 (MAKE_SATP (m.kernel.proc m.cur).pgtbl)
  (h, pm)

/-- The way back to user mode. -/
def userRet (K : Symbols) (m : Machine) : Option Machine :=
  let (h, pm) := trapUserReturn K m
  (run mmu userReturn h pm).map fun x => { (m.setPm x.2).setLoc .user with hart := x.1 }

/-- The registers of a user program. -/
structure Context where
  reg : Reg → Word
  pc : Word

inductive Event
  | user (x : Context)
  | trap (cause : Word)
  | ecall
  | call (l : Label)
  | exit (status : ℤ)
  | serve
  | result (v : Word)
  | handled
  | check
  | switch (i : Fin NPROC)
  | ret

/-- What the compiled kernel leaves alone. -/
structure Scratch (h h' : Hart) : Prop where
  mode : h.mode = .supervisor
  mode' : h'.mode = .supervisor
  tp : h'.reg .tp = h.reg .tp
  satp : h'.csr .satp = h.csr .satp

/-- What the kernel does on behalf of `i` besides the calls of `Label`: it writes to pages of the
    process and to its own, not to the trapframe, and kills nobody. -/
structure Serves (L : Layout) (kernel : Multiset ℕ) (i : Fin NPROC) (s s' : Kernel) : Prop where
  between : Between L kernel i s s'
  tf : s'.pm.mem (s.proc i).tf = s.pm.mem (s.proc i).tf
  killed : ∀ j, (s'.proc j).killed = (s.proc j).killed

/-- The system calls of `i` that change processes and their memory. -/
def Label.By (i : Fin NPROC) : Label → Prop
  | .fork j _ | .wait j _ _ | .brk j _ _ => j = i
  | .kill _ _ => True
  | .exit _ _ | .other _ => False

/-- The child that a fork makes starts in `fork_return`. -/
def born (s : Kernel) (l : Label) (loc : Fin NPROC → Loc) : Fin NPROC → Loc :=
  match l, firstUnused s.proc with
  | .fork _ _, some c => Function.update loc c .leaving
  | _, _ => loc

/-- Whether a trap is an interrupt that the handler knows. -/
def IsInterrupt (cause : Word) : Prop :=
  cause.toNat / 2 ^ 63 = 1 ∧ (cause.toNat % 16 = 1 ∨ cause.toNat % 16 = 9)

inductive Step (K : Symbols) (L : Layout) (kernel : Multiset ℕ) : Machine → Event → Machine → Prop
  /-- An instruction of the user program, with its store if it has one. -/
  | user {m : Machine} {x : Context} {pm : Pmem} (mode : m.hart.mode = .user)
      (store : pm = m.kernel.pm ∨
        ∃ va v, mmu.store (m.hart.csr .satp) .user m.kernel.pm va v = some pm) :
      Step K L kernel m (.user x) { m.setPm pm with hart := { m.hart with reg := x.reg, pc := x.pc } }
  | trap {m m' : Machine} {cause tval : Word} (mode : m.hart.mode = .user)
      (h : userTrap K cause tval m = some m') : Step K L kernel m (.trap cause) m'
  | ecall {m : Machine} {h : Hart} (scratch : Scratch m.hart h)
      (run : (m.kernel.proc m.cur).state = .running) (loc : m.loc m.cur = .entered 8)
      (alive : (m.kernel.proc m.cur).killed = false) :
      Step K L kernel m .ecall { (m.setPm (setFrame m.kernel.pm m.tf EPC
        (frameWord m.kernel.pm m.tf EPC + 4))).setLoc .calling with hart := h }
  | call {m : Machine} {h : Hart} {l : Label} {s : Kernel} (scratch : Scratch m.hart h)
      (run : (m.kernel.proc m.cur).state = .running) (loc : m.loc m.cur = .calling)
      (by' : Label.By m.cur l) (step : Proc.Step L kernel m.kernel l s) :
      Step K L kernel m (.call l) { m with hart := h, kernel := s, loc := born m.kernel l m.loc }
  /-- `proc_exit`, by `sys_exit` or because the process has been killed -/
  | exit {m : Machine} {h : Hart} {st : ℤ} {s : Kernel} (scratch : Scratch m.hart h)
      (run : (m.kernel.proc m.cur).state = .running)
      (why : m.loc m.cur = .calling ∨ (m.kernel.proc m.cur).killed = true ∧ st = -1 ∧
        (m.loc m.cur = .entered 8 ∨ m.loc m.cur = .handled))
      (step : (procExit m.cur st).run m.kernel = .ok () s) :
      Step K L kernel m (.exit st) { m with hart := h, kernel := s }
  | serve {m : Machine} {h : Hart} {s : Kernel} (scratch : Scratch m.hart h)
      (run : (m.kernel.proc m.cur).state = .running) (step : Serves L kernel m.cur m.kernel s) :
      Step K L kernel m .serve { m with hart := h, kernel := s }
  /-- `p->tf->a0 = syscalls[num]()` -/
  | result {m : Machine} {h : Hart} {v : Word} (scratch : Scratch m.hart h)
      (run : (m.kernel.proc m.cur).state = .running) (loc : m.loc m.cur = .calling) :
      Step K L kernel m (.result v)
        { (m.setPm (setFrame m.kernel.pm m.tf A0 v)).setLoc .handled with hart := h }
  | handled {m : Machine} {h : Hart} {cause : Word} (scratch : Scratch m.hart h)
      (run : (m.kernel.proc m.cur).state = .running) (loc : m.loc m.cur = .entered cause)
      (known : IsInterrupt cause) :
      Step K L kernel m .handled { m.setLoc .handled with hart := h }
  | check {m : Machine} {h : Hart} (scratch : Scratch m.hart h)
      (run : (m.kernel.proc m.cur).state = .running) (loc : m.loc m.cur = .handled)
      (alive : (m.kernel.proc m.cur).killed = false) :
      Step K L kernel m .check { m.setLoc .leaving with hart := h }
  /-- the scheduler gives the hart to `i` -/
  | switch {m : Machine} {h : Hart} {i : Fin NPROC} (scratch : Scratch m.hart h)
      (ready : (m.kernel.proc i).state = .runnable) :
      Step K L kernel m (.switch i) { m with hart := h, kernel := m.kernel.dispatch i, cur := i }
  | ret {m m' : Machine} (mode : m.hart.mode = .supervisor)
      (run : (m.kernel.proc m.cur).state = .running) (loc : m.loc m.cur = .leaving)
      (h : userRet K m = some m') : Step K L kernel m .ret m'

end EasyXv6.Trap
