import Mathlib

set_option autoImplicit false

/-!
# A part of RV64

The instructions that entry and exit code is made of: loads and stores of doublewords, moves between
the general and the control registers, jumps and returns from traps. What memory is and how an
address is translated are left to a bus.
-/
namespace EasyXv6.Lib.Rv64

abbrev Word := BitVec 64

/-- The general registers, `zero` apart. -/
inductive Reg
  | ra | sp | gp | tp | t0 | t1 | t2 | s0 | s1 | a0 | a1 | a2 | a3 | a4 | a5 | a6 | a7
  | s2 | s3 | s4 | s5 | s6 | s7 | s8 | s9 | s10 | s11 | t3 | t4 | t5 | t6
  deriving DecidableEq

inductive Csr
  | sstatus | stvec | sscratch | sepc | scause | stval | sip | satp | mstatus | mscratch | mepc
  deriving DecidableEq

inductive Mode
  | user | supervisor | machine
  deriving DecidableEq

structure Hart where
  reg : Reg → Word
  csr : Csr → Word
  pc : Word
  mode : Mode

namespace Hart

def setReg (c : Hart) (r : Reg) (v : Word) : Hart := { c with reg := Function.update c.reg r v }

def setCsr (c : Hart) (x : Csr) (v : Word) : Hart := { c with csr := Function.update c.csr x v }

variable (c : Hart) (r : Reg) (x : Csr) (v : Word)

@[simp] theorem setReg_reg : (c.setReg r v).reg = Function.update c.reg r v := rfl
@[simp] theorem setReg_csr : (c.setReg r v).csr = c.csr := rfl
@[simp] theorem setReg_pc : (c.setReg r v).pc = c.pc := rfl
@[simp] theorem setReg_mode : (c.setReg r v).mode = c.mode := rfl
@[simp] theorem setCsr_reg : (c.setCsr x v).reg = c.reg := rfl
@[simp] theorem setCsr_csr : (c.setCsr x v).csr = Function.update c.csr x v := rfl
@[simp] theorem setCsr_pc : (c.setCsr x v).pc = c.pc := rfl
@[simp] theorem setCsr_mode : (c.setCsr x v).mode = c.mode := rfl

end Hart

section Traps

def SIE : Word := 2
def SPIE : Word := 32
def SPP : Word := 256

/-- The bit `dst` gets the value of the bit `src`. -/
def copyBit (x src dst : Word) : Word := if x &&& src = 0 then x &&& ~~~dst else x ||| dst

/-- A trap into supervisor mode. -/
def Hart.trap (c : Hart) (cause tval : Word) : Hart :=
  let x := copyBit (c.csr .sstatus) SIE SPIE &&& ~~~SIE
  let x := if c.mode = .user then x &&& ~~~SPP else x ||| SPP
  { ((((c.setCsr .sstatus x).setCsr .sepc c.pc).setCsr .scause cause).setCsr .stval tval) with
    pc := c.csr .stvec, mode := .supervisor }

/-- `sret` -/
def Hart.sret (c : Hart) : Hart :=
  let x := c.csr .sstatus
  { c.setCsr .sstatus ((copyBit x SPIE SIE ||| SPIE) &&& ~~~SPP) with
    pc := c.csr .sepc, mode := if x &&& SPP = 0 then .user else .supervisor }

def MIE : Word := 8
def MPIE : Word := 128
def MPP : Word := 6144

/-- The value of the field MPP. -/
def Mode.mpp : Mode → Word
  | .user => 0
  | .supervisor => 2048
  | .machine => 6144

/-- A trap into machine mode, to `vector`. -/
def Hart.machineTrap (c : Hart) (vector : Word) : Hart :=
  let x := copyBit (c.csr .mstatus) MIE MPIE &&& ~~~MIE
  { (c.setCsr .mstatus (x &&& ~~~MPP ||| c.mode.mpp)).setCsr .mepc c.pc with
    pc := vector, mode := .machine }

/-- `mret` -/
def Hart.mret (c : Hart) : Hart :=
  let x := c.csr .mstatus
  { c.setCsr .mstatus ((copyBit x MPIE MIE ||| MPIE) &&& ~~~MPP) with
    pc := c.csr .mepc
    mode := if x &&& MPP = 0 then .user else if x &&& MPP = 2048 then .supervisor else .machine }

end Traps

/-- Loads and stores of doublewords, given `satp` and the mode. -/
structure Bus (M : Type) where
  load : Word → Mode → M → Word → Option Word
  store : Word → Mode → M → Word → Word → Option M

inductive Instr
  | ld (rd : Reg) (off : ℕ) (rs : Reg)
  | sd (src : Reg) (off : ℕ) (rs : Reg)
  | addi (rd rs : Reg) (imm : ℤ)
  | add (rd rs rs' : Reg)
  | li (rd : Reg) (imm : ℤ)
  | csrr (rd : Reg) (csr : Csr)
  | csrw (csr : Csr) (rs : Reg)
  | csrrw (rd : Reg) (csr : Csr) (rs : Reg)
  | sfenceVma
  | jr (rs : Reg)
  | ret
  | sret
  | mret
  deriving DecidableEq

variable {M : Type}

def Instr.exec (bus : Bus M) (i : Instr) (c : Hart) (m : M) : Option (Hart × M) :=
  match i with
  | .ld rd off rs =>
    (bus.load (c.csr .satp) c.mode m (c.reg rs + BitVec.ofNat 64 off)).map fun v => (c.setReg rd v, m)
  | .sd src off rs =>
    (bus.store (c.csr .satp) c.mode m (c.reg rs + BitVec.ofNat 64 off) (c.reg src)).map fun m' => (c, m')
  | .addi rd rs imm => some (c.setReg rd (c.reg rs + BitVec.ofInt 64 imm), m)
  | .add rd rs rs' => some (c.setReg rd (c.reg rs + c.reg rs'), m)
  | .li rd imm => some (c.setReg rd (BitVec.ofInt 64 imm), m)
  | .csrr rd csr => some (c.setReg rd (c.csr csr), m)
  | .csrw csr rs => some (c.setCsr csr (c.reg rs), m)
  | .csrrw rd csr rs => some ((c.setCsr csr (c.reg rs)).setReg rd (c.csr csr), m)
  | .sfenceVma => some (c, m)
  | .jr rs => some ({ c with pc := c.reg rs }, m)
  | .ret => some ({ c with pc := c.reg .ra }, m)
  | .sret => some (c.sret, m)
  | .mret => some (c.mret, m)

/-- A piece of straight-line code. -/
def run (bus : Bus M) : List Instr → Hart → M → Option (Hart × M)
  | [], c, m => some (c, m)
  | i :: is, c, m => (i.exec bus c m).bind fun x => run bus is x.1 x.2

variable {bus : Bus M} {c : Hart} {m : M}

theorem run_cons_of_some {i : Instr} {is : List Instr} {c' : Hart} {m' : M}
    (h : i.exec bus c m = some (c', m')) : run bus (i :: is) c m = run bus is c' m' := by
  rw [run, h, Option.bind_some]

theorem run_append (is js : List Instr) :
    run bus (is ++ js) c m = (run bus is c m).bind fun x => run bus js x.1 x.2 := by
  induction is generalizing c m with
  | nil => rfl
  | cons i is ih =>
    change (i.exec bus c m).bind _ = ((i.exec bus c m).bind _).bind _
    cases i.exec bus c m with
    | none => rfl
    | some x => exact ih

theorem run_append_of_some {is js : List Instr} {c' : Hart} {m' : M}
    (h : run bus is c m = some (c', m')) : run bus (is ++ js) c m = run bus js c' m' := by
  rw [run_append, h]
  rfl

/-- Doublewords of memory that the bus serves from an address on, by their offsets. Writing them
    keeps the memory `good`. -/
structure Window (bus : Bus M) (satp : Word) (mode : Mode) (base : Word) where
  good : M → Prop
  inside : ℕ → Prop
  get : M → ℕ → Word
  put : M → ℕ → Word → M
  load : ∀ m off, good m → inside off →
    bus.load satp mode m (base + BitVec.ofNat 64 off) = some (get m off)
  store : ∀ m off v, good m → inside off →
    bus.store satp mode m (base + BitVec.ofNat 64 off) v = some (put m off v)
  good_put : ∀ m off v, good m → inside off → good (put m off v)
  get_put_self : ∀ m off v, inside off → get (put m off v) off = v
  get_put_of_ne : ∀ m off off' v, inside off → inside off' → off' ≠ off →
    get (put m off v) off' = get m off'

/-- Stores of registers to their places. -/
def saves (base : Reg) (l : List (Reg × ℕ)) : List Instr := l.map fun x => .sd x.1 x.2 base

/-- Loads of registers from their places. -/
def restores (base : Reg) (l : List (Reg × ℕ)) : List Instr := l.map fun x => .ld x.1 x.2 base

namespace Window

variable {satp base : Word} {mode : Mode} (w : Window bus satp mode base) {l : List (Reg × ℕ)}
  {r b : Reg} {off : ℕ}

/-- The memory after the stores. -/
def saved (reg : Reg → Word) (l : List (Reg × ℕ)) (m : M) : M :=
  l.foldl (fun m x => w.put m x.2 (reg x.1)) m

/-- The registers after the loads. -/
def restored (m : M) (l : List (Reg × ℕ)) (c : Hart) : Hart :=
  l.foldl (fun c x => c.setReg x.1 (w.get m x.2)) c

theorem good_saved {reg : Reg → Word} (hm : w.good m) (hl : ∀ x ∈ l, w.inside x.2) :
    w.good (w.saved reg l m) := by
  induction l generalizing m with
  | nil => exact hm
  | cons x l ih =>
    apply ih
    · exact w.good_put _ _ _ hm (hl x List.mem_cons_self)
    · exact fun y hy => hl y (List.mem_cons_of_mem _ hy)

theorem get_saved_of_notMem {reg : Reg → Word} (hl : ∀ x ∈ l, w.inside x.2) (ho : w.inside off)
    (out : off ∉ l.map Prod.snd) : w.get (w.saved reg l m) off = w.get m off := by
  induction l generalizing m with
  | nil => rfl
  | cons x l ih =>
    simp only [List.map_cons, List.mem_cons, not_or] at out
    have rest : w.get (w.saved reg l (w.put m x.2 (reg x.1))) off = _ :=
      ih (fun y hy => hl y (List.mem_cons_of_mem _ hy)) out.2
    exact rest.trans (w.get_put_of_ne _ _ _ _ (hl x List.mem_cons_self) ho out.1)

theorem get_saved {reg : Reg → Word} (hl : ∀ x ∈ l, w.inside x.2) (nodup : (l.map Prod.snd).Nodup)
    (h : (r, off) ∈ l) : w.get (w.saved reg l m) off = reg r := by
  induction l generalizing m with
  | nil => simp at h
  | cons x l ih =>
    simp only [List.map_cons, List.nodup_cons] at nodup
    have hl' : ∀ y ∈ l, w.inside y.2 := fun y hy => hl y (List.mem_cons_of_mem _ hy)
    rcases List.mem_cons.mp h with rfl | h
    · have inside := hl _ List.mem_cons_self
      exact (w.get_saved_of_notMem hl' inside nodup.1).trans (w.get_put_self _ _ _ inside)
    · exact ih hl' nodup.2 h

theorem run_saves (hs : c.csr .satp = satp) (hmode : c.mode = mode) (hb : c.reg b = base)
    (hm : w.good m) (hl : ∀ x ∈ l, w.inside x.2) :
    run bus (saves b l) c m = some (c, w.saved c.reg l m) := by
  induction l generalizing m with
  | nil => rfl
  | cons x l ih =>
    have first := w.store m x.2 (c.reg x.1) hm (hl x List.mem_cons_self)
    have rest : run bus (saves b l) c (w.put m x.2 (c.reg x.1)) = _ :=
      ih (w.good_put _ _ _ hm (hl x List.mem_cons_self)) fun y hy => hl y (List.mem_cons_of_mem _ hy)
    simp only [saves, List.map_cons, run, Instr.exec, hs, hmode, hb, first, Option.map_some,
      Option.bind_some]
    exact rest

@[simp] theorem restored_csr : (w.restored m l c).csr = c.csr := by
  induction l generalizing c with
  | nil => rfl
  | cons x l ih => exact ih

@[simp] theorem restored_pc : (w.restored m l c).pc = c.pc := by
  induction l generalizing c with
  | nil => rfl
  | cons x l ih => exact ih

@[simp] theorem restored_mode : (w.restored m l c).mode = c.mode := by
  induction l generalizing c with
  | nil => rfl
  | cons x l ih => exact ih

theorem restored_of_notMem (out : r ∉ l.map Prod.fst) : (w.restored m l c).reg r = c.reg r := by
  induction l generalizing c with
  | nil => rfl
  | cons x l ih =>
    simp only [List.map_cons, List.mem_cons, not_or] at out
    have rest : (w.restored m l (c.setReg x.1 (w.get m x.2))).reg r = _ := ih out.2
    exact rest.trans (Function.update_of_ne out.1 ..)

theorem restored_of_mem (nodup : (l.map Prod.fst).Nodup) (h : (r, off) ∈ l) :
    (w.restored m l c).reg r = w.get m off := by
  induction l generalizing c with
  | nil => simp at h
  | cons x l ih =>
    simp only [List.map_cons, List.nodup_cons] at nodup
    rcases List.mem_cons.mp h with rfl | h
    · exact (w.restored_of_notMem nodup.1).trans (Function.update_self ..)
    · exact ih nodup.2 h

/-- The base register may be among those loaded if it gets the value that it has. -/
theorem run_restores (hs : c.csr .satp = satp) (hmode : c.mode = mode) (hb : c.reg b = base)
    (hm : w.good m) (hl : ∀ x ∈ l, w.inside x.2)
    (same : ∀ x ∈ l, x.1 = b → w.get m x.2 = base) :
    run bus (restores b l) c m = some (w.restored m l c, m) := by
  induction l generalizing c with
  | nil => rfl
  | cons x l ih =>
    have first := w.load m x.2 hm (hl x List.mem_cons_self)
    have hb' : (c.setReg x.1 (w.get m x.2)).reg b = base := by
      by_cases h : x.1 = b
      · rw [← h]
        exact (Function.update_self ..).trans (same x List.mem_cons_self h)
      · exact (Function.update_of_ne (Ne.symm h) ..).trans hb
    have rest : run bus (restores b l) (c.setReg x.1 (w.get m x.2)) m = _ :=
      ih hs hmode hb' (fun y hy => hl y (List.mem_cons_of_mem _ hy))
        fun y hy => same y (List.mem_cons_of_mem _ hy)
    simp only [restores, List.map_cons, run, Instr.exec, hs, hmode, hb, first, Option.map_some,
      Option.bind_some]
    exact rest

theorem run_restores_of_notMem (hs : c.csr .satp = satp) (hmode : c.mode = mode)
    (hb : c.reg b = base) (hm : w.good m) (hl : ∀ x ∈ l, w.inside x.2) (out : b ∉ l.map Prod.fst) :
    run bus (restores b l) c m = some (w.restored m l c, m) := by
  apply w.run_restores hs hmode hb hm hl
  rintro x hx rfl
  exact absurd (List.mem_map_of_mem hx) out

end Window

section Flat

/-- Doublewords at their own addresses, which have to be aligned. -/
def flat : Bus (Word → Word) where
  load _ _ m a := if a.toNat % 8 = 0 then some (m a) else none
  store _ _ m a v := if a.toNat % 8 = 0 then some (Function.update m a v) else none

variable {base : Word} {n off : ℕ}

theorem toNat_add_off (fits : base.toNat + n ≤ 2 ^ 64) (h : off < n) :
    (base + BitVec.ofNat 64 off).toNat = base.toNat + off := by
  rw [BitVec.toNat_add, BitVec.toNat_ofNat]
  omega

/-- `n` bytes of flat memory. -/
def flatWindow (satp : Word) (mode : Mode) (aligned : base.toNat % 8 = 0)
    (fits : base.toNat + n ≤ 2 ^ 64) : Window flat satp mode base where
  good _ := True
  inside off := off % 8 = 0 ∧ off < n
  get m off := m (base + BitVec.ofNat 64 off)
  put m off v := Function.update m (base + BitVec.ofNat 64 off) v
  load m off _ h := by
    have := toNat_add_off fits h.2
    exact if_pos (by omega)
  store m off v _ h := by
    have := toNat_add_off fits h.2
    exact if_pos (by omega)
  good_put _ _ _ _ _ := trivial
  get_put_self _ _ _ _ := Function.update_self ..
  get_put_of_ne m off off' v h h' hne := by
    apply Function.update_of_ne
    intro same
    have here := congrArg BitVec.toNat same
    rw [toNat_add_off fits h.2, toNat_add_off fits h'.2] at here
    omega

/-- Stores leave the doublewords that they do not name. -/
theorem flatWindow_saved_of_ne {satp : Word} {mode : Mode} {aligned : base.toNat % 8 = 0}
    {fits : base.toNat + n ≤ 2 ^ 64} {reg : Reg → Word} {l : List (Reg × ℕ)} {m : Word → Word}
    {a : Word} (out : ∀ x ∈ l, a ≠ base + BitVec.ofNat 64 x.2) :
    (flatWindow satp mode aligned fits).saved reg l m a = m a := by
  induction l generalizing m with
  | nil => rfl
  | cons x l ih =>
    obtain ⟨first, rest⟩ := List.forall_mem_cons.mp out
    exact (ih rest).trans (Function.update_of_ne first ..)

end Flat

end EasyXv6.Lib.Rv64
