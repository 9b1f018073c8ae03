import EasyXv6.Lib.Rv64
import EasyXv6.Lib.Trace

set_option autoImplicit false

/-!
# Interrupts under the kernel (trap.S)

A trap from the kernel into the kernel, and the timer in machine mode. What they interrupt goes on
with its registers; a trap in the kernel keeps tp as it finds it, since the thread may go on on
another hart.
-/
namespace EasyXv6.Trap
open Lib Rv64

/-- `kernel_vector` up to `call trap_kernel_handler`. -/
def kernelVectorEntry : List Instr := [
  .addi .sp .sp (-256),
  .sd .ra 0 .sp,
  .sd .sp 8 .sp,
  .sd .gp 16 .sp,
  .sd .tp 24 .sp,
  .sd .t0 32 .sp,
  .sd .t1 40 .sp,
  .sd .t2 48 .sp,
  .sd .s0 56 .sp,
  .sd .s1 64 .sp,
  .sd .a0 72 .sp,
  .sd .a1 80 .sp,
  .sd .a2 88 .sp,
  .sd .a3 96 .sp,
  .sd .a4 104 .sp,
  .sd .a5 112 .sp,
  .sd .a6 120 .sp,
  .sd .a7 128 .sp,
  .sd .s2 136 .sp,
  .sd .s3 144 .sp,
  .sd .s4 152 .sp,
  .sd .s5 160 .sp,
  .sd .s6 168 .sp,
  .sd .s7 176 .sp,
  .sd .s8 184 .sp,
  .sd .s9 192 .sp,
  .sd .s10 200 .sp,
  .sd .s11 208 .sp,
  .sd .t3 216 .sp,
  .sd .t4 224 .sp,
  .sd .t5 232 .sp,
  .sd .t6 240 .sp]

/-- `kernel_vector` behind the call. -/
def kernelVectorExit : List Instr := [
  .ld .ra 0 .sp,
  .ld .sp 8 .sp,
  .ld .gp 16 .sp,
  .ld .t0 32 .sp,
  .ld .t1 40 .sp,
  .ld .t2 48 .sp,
  .ld .s0 56 .sp,
  .ld .s1 64 .sp,
  .ld .a0 72 .sp,
  .ld .a1 80 .sp,
  .ld .a2 88 .sp,
  .ld .a3 96 .sp,
  .ld .a4 104 .sp,
  .ld .a5 112 .sp,
  .ld .a6 120 .sp,
  .ld .a7 128 .sp,
  .ld .s2 136 .sp,
  .ld .s3 144 .sp,
  .ld .s4 152 .sp,
  .ld .s5 160 .sp,
  .ld .s6 168 .sp,
  .ld .s7 176 .sp,
  .ld .s8 184 .sp,
  .ld .s9 192 .sp,
  .ld .s10 200 .sp,
  .ld .s11 208 .sp,
  .ld .t3 216 .sp,
  .ld .t4 224 .sp,
  .ld .t5 232 .sp,
  .ld .t6 240 .sp,
  .addi .sp .sp 256,
  .sret]

def timerVector : List Instr := [
  .csrrw .a0 .mscratch .a0,
  .sd .a1 0 .a0,
  .sd .a2 8 .a0,
  .sd .a3 16 .a0,
  -- CLINT_MTIMECMP(hartid) and INTERVAL
  .ld .a1 24 .a0,
  .ld .a2 32 .a0,
  .ld .a3 0 .a1,
  .add .a3 .a3 .a2,
  .sd .a3 0 .a1,
  -- a software interrupt in supervisor mode
  .li .a1 2,
  .csrw .sip .a1,
  .ld .a3 16 .a0,
  .ld .a2 8 .a0,
  .ld .a1 0 .a0,
  .csrrw .a0 .mscratch .a0,
  .mret]

/-- The registers that `kernel_vector` loads again, all but tp. -/
def stackRegs : List (Reg × ℕ) := [
  (.ra, 0), (.sp, 8), (.gp, 16), (.t0, 32), (.t1, 40), (.t2, 48), (.s0, 56), (.s1, 64), (.a0, 72),
  (.a1, 80), (.a2, 88), (.a3, 96), (.a4, 104), (.a5, 112), (.a6, 120), (.a7, 128), (.s2, 136),
  (.s3, 144), (.s4, 152), (.s5, 160), (.s6, 168), (.s7, 176), (.s8, 184), (.s9, 192), (.s10, 200),
  (.s11, 208), (.t3, 216), (.t4, 224), (.t5, 232), (.t6, 240)]

/-- The registers that it stores below the stack pointer. -/
def stackSaves : List (Reg × ℕ) := [
  (.ra, 0), (.sp, 8), (.gp, 16), (.tp, 24), (.t0, 32), (.t1, 40), (.t2, 48), (.s0, 56), (.s1, 64),
  (.a0, 72), (.a1, 80), (.a2, 88), (.a3, 96), (.a4, 104), (.a5, 112), (.a6, 120), (.a7, 128),
  (.s2, 136), (.s3, 144), (.s4, 152), (.s5, 160), (.s6, 168), (.s7, 176), (.s8, 184), (.s9, 192),
  (.s10, 200), (.s11, 208), (.t3, 216), (.t4, 224), (.t5, 232), (.t6, 240)]

theorem kernelVectorEntry_eq :
    kernelVectorEntry = Instr.addi .sp .sp (-256) :: saves .sp stackSaves := by
  simp [kernelVectorEntry, saves, stackSaves]

theorem kernelVectorExit_eq :
    kernelVectorExit = restores .sp stackRegs ++ [.addi .sp .sp 256, .sret] := by
  simp [kernelVectorExit, restores, stackRegs]

/-- The registers that the timer needs. -/
def timerRegs : List (Reg × ℕ) := [(.a1, 0), (.a2, 8), (.a3, 16)]

theorem timerVector_eq : timerVector =
    (Instr.csrrw .a0 .mscratch .a0 :: (saves .a0 timerRegs ++ restores .a0 [(.a1, 24), (.a2, 32)])) ++
      (Instr.ld .a3 0 .a1 :: .add .a3 .a3 .a2 :: .sd .a3 0 .a1 :: .li .a1 2 :: .csrw .sip .a1 ::
        (restores .a0 timerRegs.reverse ++ [.csrrw .a0 .mscratch .a0, .mret])) := by
  simp [timerVector, saves, restores, timerRegs]

theorem stackSaves_low : ∀ x ∈ stackSaves, x.2 % 8 = 0 ∧ x.2 < 256 := by decide

theorem stackRegs_sub : ∀ x ∈ stackRegs, x ∈ stackSaves := by decide

theorem stackSaves_offs : (stackSaves.map Prod.snd).Nodup := by decide

theorem stackRegs_regs : (stackRegs.map Prod.fst).Nodup := by decide

theorem stackRegs_mem (r : Reg) (h : r ≠ .tp) : ∃ off, (r, off) ∈ stackRegs := by
  have all : ∀ r ∈ stackRegs.map Prod.fst, ∃ off, (r, off) ∈ stackRegs := by simp
  apply all
  cases r <;> first | exact absurd rfl h | decide

variable {c : Hart} {mem : Word → Word}

section KernelTrap

/-- What `trap_kernel_handler` leaves alone: the stack above it, and the two registers of the trap,
    which it sets again at its end. -/
structure KernelHandled (h : Hart) (mem : Word → Word) (h' : Hart) (mem' : Word → Word) : Prop where
  mode : h'.mode = h.mode
  sp : h'.reg .sp = h.reg .sp
  sepc : h'.csr .sepc = h.csr .sepc
  sstatus : h'.csr .sstatus = h.csr .sstatus
  stack : ∀ off < 256, mem' (h.reg .sp + BitVec.ofNat 64 off) = mem (h.reg .sp + BitVec.ofNat 64 off)

theorem spp_set (x : Word) : (x ||| SPP) &&& SPP ≠ 0 := by
  have here : (x ||| SPP) &&& SPP = SPP := by
    ext i
    simp +contextual
  rw [here]
  decide

theorem and_sie (x : Word) : x &&& SIE = if x.getLsbD 1 then SIE else 0 := BitVec.and_twoPow x 1

theorem and_spie (x : Word) : x &&& SPIE = if x.getLsbD 5 then SPIE else 0 := BitVec.and_twoPow x 5

/-- A trap from supervisor mode and its `sret` give the interrupt enable bit back. -/
theorem sie_restored (x : Word) :
    (copyBit (copyBit x SIE SPIE &&& ~~~SIE ||| SPP) SPIE SIE ||| SPIE) &&& ~~~SPP &&& SIE =
      x &&& SIE := by
  simp only [copyBit, and_sie, and_spie]
  cases x.getLsbD 1 <;> simp [SIE, SPIE, SPP]

/-- A trap in the kernel is transparent: the interrupted code goes on with all registers but tp. -/
theorem kernelVector_transparent (cause tval : Word) (mode : c.mode = .supervisor)
    (aligned : (c.reg .sp).toNat % 8 = 0) (room : 256 ≤ (c.reg .sp).toNat) :
    ∃ h mem₁, run flat kernelVectorEntry (c.trap cause tval) mem = some (h, mem₁) ∧
      (∀ a : Word, a.toNat + 256 < (c.reg .sp).toNat ∨ (c.reg .sp).toNat ≤ a.toNat → mem₁ a = mem a) ∧
      ∀ h' mem₂, KernelHandled h mem₁ h' mem₂ →
        ∃ c', run flat kernelVectorExit h' mem₂ = some (c', mem₂) ∧
          (∀ r, r ≠ .tp → c'.reg r = c.reg r) ∧ c'.reg .tp = h'.reg .tp ∧ c'.pc = c.pc ∧
          c'.mode = .supervisor ∧ c'.csr .sstatus &&& SIE = c.csr .sstatus &&& SIE := by
  let base : Word := c.reg .sp + BitVec.ofInt 64 (-256)
  have low : base.toNat = (c.reg .sp).toNat - 256 := by
    have below : (BitVec.ofInt 64 (-256)).toNat = 2 ^ 64 - 256 := by decide
    rw [BitVec.toNat_add, below]
    omega
  have back : base + BitVec.ofInt 64 256 = c.reg .sp := by
    have zero : BitVec.ofInt 64 (-256) + BitVec.ofInt 64 256 = 0#64 := by decide
    rw [BitVec.add_assoc, zero, BitVec.add_zero]
  have baseAligned : base.toNat % 8 = 0 := by omega
  have fits : base.toNat + 256 ≤ 2 ^ 64 := by omega
  let h := (c.trap cause tval).setReg .sp base
  have sp : h.reg .sp = base := by simp [h]
  let w := flatWindow (h.csr .satp) h.mode baseAligned fits
  let mem₁ := w.saved h.reg stackSaves mem
  have stores : run flat (saves .sp stackSaves) h mem = some (h, mem₁) :=
    w.run_saves rfl rfl sp trivial stackSaves_low
  refine ⟨h, mem₁, ?_, ?_, ?_⟩
  · rw [kernelVectorEntry_eq, run_cons_of_some rfl]
    exact stores
  · intro a out
    apply flatWindow_saved_of_ne
    rintro x hx rfl
    have := toNat_add_off fits (stackSaves_low x hx).2
    have := (stackSaves_low x hx).2
    omega
  · intro h' mem₂ handled
    have sp' : h'.reg .sp = base := handled.sp.trans sp
    let w' := flatWindow (h'.csr .satp) h'.mode baseAligned fits
    have kept : ∀ x ∈ stackSaves, w'.get mem₂ x.2 = h.reg x.1 := by
      intro x hx
      have stack := handled.stack x.2 (stackSaves_low x hx).2
      rw [sp] at stack
      have saved : w.get mem₁ x.2 = h.reg x.1 := w.get_saved stackSaves_low stackSaves_offs hx
      exact stack.trans saved
    let h₁ := w'.restored mem₂ stackRegs h'
    have loads : run flat (restores .sp stackRegs) h' mem₂ = some (h₁, mem₂) := by
      apply w'.run_restores rfl rfl sp' trivial
      · exact fun x hx => stackSaves_low x (stackRegs_sub x hx)
      · intro x hx same
        rw [kept x (stackRegs_sub x hx), same, sp]
    have regs : ∀ r, r ≠ .tp → h₁.reg r = h.reg r := by
      intro r hr
      obtain ⟨off, hx⟩ := stackRegs_mem r hr
      exact (w'.restored_of_mem stackRegs_regs hx).trans (kept _ (stackRegs_sub _ hx))
    have csr : h₁.csr = h'.csr := w'.restored_csr
    let h₂ := h₁.setReg .sp (h₁.reg .sp + BitVec.ofInt 64 256)
    have sepc : h₂.csr .sepc = c.pc := by
      change h₁.csr .sepc = _
      rw [csr, handled.sepc]
      simp [h, Hart.trap]
    have sstatus : h₂.csr .sstatus = copyBit (c.csr .sstatus) SIE SPIE &&& ~~~SIE ||| SPP := by
      change h₁.csr .sstatus = _
      rw [csr, handled.sstatus]
      simp [h, Hart.trap, mode]
    refine ⟨h₂.sret, ?_, ?_, ?_, sepc, ?_, ?_⟩
    · rw [kernelVectorExit_eq, run_append_of_some loads]
      rfl
    · intro r hr
      change h₂.reg r = _
      by_cases hsp : r = .sp
      · rw [hsp]
        have own : h₂.reg .sp = h₁.reg .sp + BitVec.ofInt 64 256 := by
          simp only [h₂, Hart.setReg_reg, Function.update_self]
        rw [own, regs .sp (by decide), sp, back]
      · simp [h₂, h, regs r hr, hsp, Hart.trap]
    · change h₂.reg .tp = _
      have own : h₁.reg .tp = h'.reg .tp := w'.restored_of_notMem (by decide)
      simp [h₂, own]
    · rw [Hart.sret, sstatus]
      exact if_neg (spp_set _)
    · simp only [Hart.sret, Hart.setCsr_csr, Function.update_self, sstatus]
      exact sie_restored _

theorem kernelVector_transparent_timer : ∃ (c h h' : Hart) (mem mem₁ : Word → Word),
    run flat kernelVectorEntry (c.trap (2 ^ 63 + 1) 0) mem = some (h, mem₁) ∧ h'.reg .a0 = 0 ∧
      ∃ c', run flat kernelVectorExit h' mem₁ = some (c', mem₁) ∧ c'.reg .a0 = 7 ∧ c'.pc = c.pc := by
  let c : Hart := ⟨fun r => if r = .sp then 0x80010000 else 7, fun _ => 0, 0x80001000, .supervisor⟩
  let mem : Word → Word := fun _ => 0
  obtain ⟨h, mem₁, enter, -, leave⟩ :=
    @kernelVector_transparent c mem (2 ^ 63 + 1) 0 rfl (by decide) (by decide)
  let h' := h.setReg .a0 0
  have sp : h'.reg .sp = h.reg .sp := by simp [h']
  obtain ⟨c', exit, regs, -, pc, -⟩ := leave h' mem₁ ⟨rfl, sp, rfl, rfl, fun _ _ => rfl⟩
  exact ⟨c, h, h', mem, mem₁, enter, by simp [h'], c', exit, regs .a0 (by decide), pc⟩

end KernelTrap

/-- The scratch area of a hart and its comparator, as `timer_init` sets them up. -/
structure TimerArea where
  scratch : Word
  mtimecmp : Word
  interval : Word
  aligned : scratch.toNat % 8 = 0
  fits : scratch.toNat + 40 ≤ 2 ^ 64
  cmpAligned : mtimecmp.toNat % 8 = 0
  apart : mtimecmp.toNat + 8 ≤ scratch.toNat ∨ scratch.toNat + 40 ≤ mtimecmp.toNat

namespace TimerArea

variable {A : TimerArea}

/-- A word of the scratch area. -/
def word (A : TimerArea) (off : ℕ) : Word := A.scratch + BitVec.ofNat 64 off

structure Ready (A : TimerArea) (c : Hart) (mem : Word → Word) : Prop where
  mscratch : c.csr .mscratch = A.scratch
  cmp : mem (A.word 24) = A.mtimecmp
  interval : mem (A.word 32) = A.interval

/-- What a tick does: the next tick is set, a software interrupt is raised. -/
structure Ticked (A : TimerArea) (c : Hart) (mem : Word → Word) (c' : Hart) (mem' : Word → Word) :
    Prop where
  reg : ∀ r, c'.reg r = c.reg r
  pc : c'.pc = c.pc
  mode : c'.mode = c.mode
  sip : c'.csr .sip = 2
  csr : ∀ x, x ≠ .sip → x ≠ .mstatus → x ≠ .mepc → c'.csr x = c.csr x
  cmp : mem' A.mtimecmp = mem A.mtimecmp + A.interval
  mem : ∀ a, a ≠ A.mtimecmp → a ≠ A.word 0 → a ≠ A.word 8 → a ≠ A.word 16 → mem' a = mem a

theorem toNat_word {off : ℕ} (h : off < 40) : (A.word off).toNat = A.scratch.toNat + off :=
  toNat_add_off A.fits h

theorem word_ne_cmp {off : ℕ} (h : off < 40) : A.word off ≠ A.mtimecmp := by
  intro same
  have here := congrArg BitVec.toNat same
  rw [toNat_word h] at here
  have := A.apart
  omega

theorem word_ne {off off' : ℕ} (h : off < 40) (h' : off' < 40) (hne : off ≠ off') :
    A.word off ≠ A.word off' := by
  intro same
  have here := congrArg BitVec.toNat same
  rw [toNat_word h, toNat_word h'] at here
  omega

theorem mpp_restored (x : Word) (mode : Mode) : (x &&& ~~~MPP ||| mode.mpp) &&& MPP = mode.mpp := by
  have cleared : x &&& ~~~MPP &&& MPP = 0 := by
    rw [BitVec.and_assoc, BitVec.and_comm (~~~MPP)]
    simp
  have own : mode.mpp &&& MPP = mode.mpp := by cases mode <;> decide
  rw [BitVec.and_or_distrib_right, cleared, own]
  simp

theorem exec_ld {rd rs : Reg} {off : ℕ} {a : Word} (addr : c.reg rs + BitVec.ofNat 64 off = a)
    (aligned : a.toNat % 8 = 0) :
    Instr.exec flat (.ld rd off rs) c mem = some (c.setReg rd (mem a), mem) := by
  simp [Instr.exec, flat, addr, aligned]

theorem exec_sd {src rs : Reg} {off : ℕ} {a : Word} (addr : c.reg rs + BitVec.ofNat 64 off = a)
    (aligned : a.toNat % 8 = 0) :
    Instr.exec flat (.sd src off rs) c mem = some (c, Function.update mem a (c.reg src)) := by
  simp [Instr.exec, flat, addr, aligned]

/-- The first part of the timer: three registers are put away, a1 and a2 are loaded. -/
structure Working (A : TimerArea) (c : Hart) (mem : Word → Word) (c' : Hart) (mem' : Word → Word) :
    Prop where
  a0 : c'.reg .a0 = A.scratch
  a1 : c'.reg .a1 = A.mtimecmp
  a2 : c'.reg .a2 = A.interval
  reg : ∀ r, r ≠ .a0 → r ≠ .a1 → r ≠ .a2 → c'.reg r = c.reg r
  csr : c'.csr = Function.update c.csr .mscratch (c.reg .a0)
  mode : c'.mode = c.mode
  stored : ∀ x ∈ timerRegs, mem' (A.word x.2) = c.reg x.1
  mem : ∀ a, a ≠ A.word 0 → a ≠ A.word 8 → a ≠ A.word 16 → mem' a = mem a

theorem timerVector_works (ready : A.Ready c mem) : ∃ c' mem',
    run flat (Instr.csrrw .a0 .mscratch .a0 ::
      (saves .a0 timerRegs ++ restores .a0 [(.a1, 24), (.a2, 32)])) c mem = some (c', mem') ∧
      A.Working c mem c' mem' := by
  let c₁ := (c.setCsr .mscratch (c.reg .a0)).setReg .a0 (c.csr .mscratch)
  have swap : Instr.exec flat (.csrrw .a0 .mscratch .a0) c mem = some (c₁, mem) := rfl
  have base₁ : c₁.reg .a0 = A.scratch := by simp [c₁, ready.mscratch]
  have reg₁ : ∀ r, r ≠ .a0 → c₁.reg r = c.reg r := fun r hr => Function.update_of_ne hr ..
  let w := flatWindow (c₁.csr .satp) c₁.mode A.aligned A.fits
  have low : ∀ x ∈ timerRegs, x.2 % 8 = 0 ∧ x.2 < 40 := by decide
  let m₁ := w.saved c₁.reg timerRegs mem
  have stores : run flat (saves .a0 timerRegs) c₁ mem = some (c₁, m₁) :=
    w.run_saves rfl rfl base₁ trivial low
  have other₁ : ∀ a, a ≠ A.word 0 → a ≠ A.word 8 → a ≠ A.word 16 → m₁ a = mem a := by
    intro a h₀ h₈ h₁₆
    apply flatWindow_saved_of_ne
    intro x hx
    simp only [timerRegs, List.mem_cons, List.not_mem_nil, or_false] at hx
    rcases hx with rfl | rfl | rfl
    · exact h₀
    · exact h₈
    · exact h₁₆
  have high : ∀ off, 24 ≤ off → off < 40 → m₁ (A.word off) = mem (A.word off) := by
    intro off h h'
    apply other₁ <;> apply word_ne h' <;> omega
  let args : List (Reg × ℕ) := [(.a1, 24), (.a2, 32)]
  have argsLow : ∀ x ∈ args, x.2 % 8 = 0 ∧ x.2 < 40 := by decide
  let c₂ := w.restored m₁ args c₁
  have loads : run flat (restores .a0 args) c₁ m₁ = some (c₂, m₁) :=
    w.run_restores_of_notMem rfl rfl base₁ trivial argsLow (by decide)
  have a1 : c₂.reg .a1 = m₁ (A.word 24) := w.restored_of_mem (by decide) (by decide)
  have a2 : c₂.reg .a2 = m₁ (A.word 32) := w.restored_of_mem (by decide) (by decide)
  have rest₂ : ∀ r, r ≠ .a1 → r ≠ .a2 → c₂.reg r = c₁.reg r := by
    intro r h h'
    exact w.restored_of_notMem (by simp [args, h, h'])
  refine ⟨c₂, m₁, ?_, ?_, ?_, ?_, ?_, w.restored_csr, w.restored_mode, ?_, other₁⟩
  · rw [run_cons_of_some swap, run_append_of_some stores]
    exact loads
  · rw [rest₂ .a0 (by decide) (by decide), base₁]
  · rw [a1, high 24 (by decide) (by decide), ready.cmp]
  · rw [a2, high 32 (by decide) (by decide), ready.interval]
  · intro r h₀ h₁ h₂
    rw [rest₂ r h₁ h₂, reg₁ r h₀]
  · intro x hx
    have plain : ∀ x ∈ timerRegs, x.1 ≠ .a0 := by decide
    have stored : m₁ (A.word x.2) = c₁.reg x.1 := w.get_saved low (by decide) hx
    rw [stored, reg₁ _ (plain x hx)]

/-- The second part: the comparator moves on, the registers come back. -/
theorem timerVector_ends {c₁ : Hart} {m₁ : Word → Word} (working : A.Working c mem c₁ m₁) :
    ∃ c' : Hart, run flat (Instr.ld .a3 0 .a1 :: .add .a3 .a3 .a2 :: .sd .a3 0 .a1 :: .li .a1 2 ::
        .csrw .sip .a1 :: (restores .a0 timerRegs.reverse ++ [.csrrw .a0 .mscratch .a0, .mret])) c₁ m₁ =
        some (c'.mret, Function.update m₁ A.mtimecmp (mem A.mtimecmp + A.interval)) ∧
      (∀ r, c'.reg r = c.reg r) ∧
      c'.csr = Function.update (Function.update c.csr .mscratch A.scratch) .sip 2 := by
  have cmp : m₁ A.mtimecmp = mem A.mtimecmp :=
    working.mem _ (word_ne_cmp (by decide)).symm (word_ne_cmp (by decide)).symm
      (word_ne_cmp (by decide)).symm
  let c₂ := c₁.setReg .a3 (m₁ A.mtimecmp)
  have load : Instr.exec flat (.ld .a3 0 .a1) c₁ m₁ = some (c₂, m₁) :=
    exec_ld (by simp [working.a1]) A.cmpAligned
  let c₃ := c₂.setReg .a3 (c₂.reg .a3 + c₂.reg .a2)
  have add : Instr.exec flat (.add .a3 .a3 .a2) c₂ m₁ = some (c₃, m₁) := rfl
  have next : c₃.reg .a3 = mem A.mtimecmp + A.interval := by
    simp [c₃, c₂, working.a2, cmp]
  let m₂ := Function.update m₁ A.mtimecmp (mem A.mtimecmp + A.interval)
  have store : Instr.exec flat (.sd .a3 0 .a1) c₃ m₁ = some (c₃, m₂) := by
    rw [exec_sd (by simp [c₃, c₂, working.a1]) A.cmpAligned, next]
  let c₄ := c₃.setReg .a1 2
  have two : Instr.exec flat (.li .a1 2) c₃ m₂ = some (c₄, m₂) := rfl
  let c₅ := c₄.setCsr .sip 2
  have raise : Instr.exec flat (.csrw .sip .a1) c₄ m₂ = some (c₅, m₂) := by
    simp [Instr.exec, c₅, c₄]
  have base₅ : c₅.reg .a0 = A.scratch := by simp [c₅, c₄, c₃, c₂, working.a0]
  have csr₅ : c₅.csr = Function.update (Function.update c.csr .mscratch (c.reg .a0)) .sip 2 := by
    simp [c₅, c₄, c₃, c₂, working.csr]
  let w := flatWindow (c₅.csr .satp) c₅.mode A.aligned A.fits
  have low : ∀ x ∈ timerRegs.reverse, x.2 % 8 = 0 ∧ x.2 < 40 := by decide
  let c₆ := w.restored m₂ timerRegs.reverse c₅
  have loads : run flat (restores .a0 timerRegs.reverse) c₅ m₂ = some (c₆, m₂) :=
    w.run_restores_of_notMem rfl rfl base₅ trivial low (by decide)
  have csr₆ : c₆.csr = c₅.csr := w.restored_csr
  have scratch₆ : ∀ x ∈ timerRegs, c₆.reg x.1 = c.reg x.1 := by
    intro x hx
    have hx' := List.mem_reverse.mpr hx
    have loaded : c₆.reg x.1 = m₂ (A.word x.2) := w.restored_of_mem (by decide) hx'
    have apart : m₂ (A.word x.2) = m₁ (A.word x.2) :=
      Function.update_of_ne (word_ne_cmp (low x hx').2) ..
    rw [loaded, apart, working.stored x hx]
  have reg₆ : ∀ r, r ≠ .a0 → c₆.reg r = c.reg r := by
    intro r h₀
    by_cases hr : r ∈ timerRegs.map Prod.fst
    · obtain ⟨x, hx, rfl⟩ := List.mem_map.mp hr
      exact scratch₆ x hx
    · have left : r ≠ .a1 ∧ r ≠ .a2 ∧ r ≠ .a3 := by simpa [timerRegs] using hr
      have same : c₆.reg r = c₅.reg r := w.restored_of_notMem (by simp [timerRegs, left])
      rw [same, ← working.reg r h₀ left.1 left.2.1]
      simp [c₅, c₄, c₃, c₂, left]
  have base₆ : c₆.reg .a0 = A.scratch := (w.restored_of_notMem (by decide)).trans base₅
  let c₇ := (c₆.setCsr .mscratch (c₆.reg .a0)).setReg .a0 (c₆.csr .mscratch)
  refine ⟨c₇, ?_, ?_, ?_⟩
  · rw [run_cons_of_some load, run_cons_of_some add, run_cons_of_some store, run_cons_of_some two,
      run_cons_of_some raise, run_append_of_some loads]
    rfl
  · intro r
    by_cases hr : r = .a0
    · rw [hr]
      simp [c₇, csr₆, csr₅]
    · have same : c₇.reg r = c₆.reg r := by simp [c₇, hr]
      rw [same, reg₆ r hr]
  · have same : c₇.csr = Function.update c₆.csr .mscratch (c₆.reg .a0) := rfl
    rw [same, csr₆, csr₅, base₆, Function.update_comm (by decide), Function.update_idem]

/-- A tick is transparent to what it interrupts, in any mode. -/
theorem timerVector_run (ready : A.Ready c mem) (vector : Word) :
    ∃ c' mem', run flat timerVector (c.machineTrap vector) mem = some (c', mem') ∧
      A.Ticked c mem c' mem' := by
  have start : A.Ready (c.machineTrap vector) mem :=
    ⟨by simp [Hart.machineTrap, ready.mscratch], ready.cmp, ready.interval⟩
  obtain ⟨c₁, m₁, first, working⟩ := timerVector_works start
  obtain ⟨c₂, second, reg, csr⟩ := timerVector_ends working
  refine ⟨c₂.mret, Function.update m₁ A.mtimecmp (mem A.mtimecmp + A.interval), ?_, ?_⟩
  · rw [timerVector_eq, run_append_of_some first, second]
  · constructor
    · intro r
      exact reg r
    · change c₂.csr .mepc = _
      rw [csr]
      simp [Hart.machineTrap]
    · have status : c₂.csr .mstatus &&& MPP = c.mode.mpp := by
        rw [csr, Function.update_of_ne (by decide), Function.update_of_ne (by decide)]
        simp only [Hart.machineTrap, Hart.setCsr_csr, Function.update_of_ne, ne_eq, reduceCtorEq,
          not_false_eq_true, Function.update_self]
        exact mpp_restored _ _
      rw [Hart.mret, status]
      cases c.mode <;> rfl
    · simp [Hart.mret, csr]
    · intro x hsip hmstatus hmepc
      have same : c₂.mret.csr x = c₂.csr x := by simp [Hart.mret, hmstatus]
      rw [same, csr]
      by_cases hx : x = .mscratch
      · rw [hx, Function.update_of_ne (by decide), Function.update_self, ready.mscratch]
      · simp [hx, hsip, hmstatus, hmepc, Hart.machineTrap]
    · exact Function.update_self ..
    · intro a ha h₀ h₈ h₁₆
      rw [Function.update_of_ne ha]
      exact working.mem a h₀ h₈ h₁₆

section Ticks

/-- A hart and its memory. -/
abbrev State := Hart × (Word → Word)

inductive Event
  | work
  | tick

def Event.isTick : Event → Bool
  | .work => false
  | .tick => true

inductive Step (A : TimerArea) (vector : Word) : State → Event → State → Prop
  /-- The kernel or a user program; supervisor mode has no access to mscratch. -/
  | work {m m' : State} (mscratch : m'.1.csr .mscratch = m.1.csr .mscratch)
      (cmp : m'.2 A.mtimecmp = m.2 A.mtimecmp)
      (keeps : ∀ off, off = 24 ∨ off = 32 → m'.2 (A.word off) = m.2 (A.word off)) :
      Step A vector m .work m'
  | tick {m m' : State} (h : run flat timerVector (m.1.machineTrap vector) m.2 = some m') :
      Step A vector m .tick m'

variable {vector : Word} {m m' : State} {e : Event}

theorem Ticked.ready (ticked : A.Ticked m.1 m.2 m'.1 m'.2) (ready : A.Ready m.1 m.2) :
    A.Ready m'.1 m'.2 := by
  have high : ∀ off, 24 ≤ off → off < 40 → m'.2 (A.word off) = m.2 (A.word off) := by
    intro off h h'
    apply ticked.mem _ (word_ne_cmp h') <;> apply word_ne h' <;> omega
  refine ⟨?_, ?_, ?_⟩
  · rw [ticked.csr .mscratch (by decide) (by decide) (by decide), ready.mscratch]
  · rw [high 24 (by decide) (by decide), ready.cmp]
  · rw [high 32 (by decide) (by decide), ready.interval]

theorem Ready.step (ready : A.Ready m.1 m.2) (h : A.Step vector m e m') :
    A.Ready m'.1 m'.2 ∧ m'.2 A.mtimecmp =
      m.2 A.mtimecmp + BitVec.ofNat 64 ([e].countP Event.isTick) * A.interval := by
  cases h with
  | work mscratch cmp keeps =>
    refine ⟨⟨?_, ?_, ?_⟩, ?_⟩
    · rw [mscratch, ready.mscratch]
    · rw [keeps 24 (Or.inl rfl), ready.cmp]
    · rw [keeps 32 (Or.inr rfl), ready.interval]
    · simp [cmp, Event.isTick]
  | tick h =>
    obtain ⟨c', mem', h', ticked⟩ := timerVector_run ready vector
    cases h'.symm.trans h
    exact ⟨ticked.ready ready, by simp [ticked.cmp, Event.isTick]⟩

theorem Ready.run {tr : List (Event × State)} (ready : A.Ready m.1 m.2)
    (h : Along (A.Step vector) m tr) : A.Ready (final m tr).1 (final m tr).2 ∧
      (final m tr).2 A.mtimecmp = m.2 A.mtimecmp +
        BitVec.ofNat 64 ((tr.map Prod.fst).countP Event.isTick) * A.interval := by
  induction tr generalizing m with
  | nil => exact ⟨ready, by simp [final]⟩
  | cons x tr ih =>
    obtain ⟨next, first⟩ := ready.step h.1
    obtain ⟨last, rest⟩ := ih next h.2
    have count : ((x :: tr).map Prod.fst).countP Event.isTick =
        [x.1].countP Event.isTick + (tr.map Prod.fst).countP Event.isTick := by
      rw [List.map_cons, ← List.singleton_append, List.countP_append]
    refine ⟨last, ?_⟩
    change (final x.2 tr).2 A.mtimecmp = _
    rw [rest, first, count, BitVec.ofNat_add, BitVec.add_mul, BitVec.add_assoc]

/-- However often the timer has ticked, the comparator is that many intervals on, and the next tick
    takes nothing from what it interrupts. -/
theorem timer_ticks {tr : List (Event × State)} (ready : A.Ready m.1 m.2)
    (h : Along (A.Step vector) m tr) (hm : final m tr = m') :
    m'.2 A.mtimecmp = m.2 A.mtimecmp +
        BitVec.ofNat 64 ((tr.map Prod.fst).countP Event.isTick) * A.interval ∧
      ∃ c mem, run flat timerVector (m'.1.machineTrap vector) m'.2 = some (c, mem) ∧
        A.Ticked m'.1 m'.2 c mem := by
  obtain ⟨last, cmp⟩ := ready.run h
  rw [hm] at last cmp
  exact ⟨cmp, timerVector_run last vector⟩

/-- The scratch area and the comparator of the hart 0. -/
def exampleTimer : TimerArea where
  scratch := 0x80030000
  mtimecmp := 0x2004000
  interval := 1000000
  aligned := by decide
  fits := by decide
  cmpAligned := by decide
  apart := by decide

theorem timer_ticks_once : ∃ (m m' : State) (tr : List (Event × State)),
    Along (exampleTimer.Step 0x80000100) m tr ∧ (tr.map Prod.fst).countP Event.isTick = 1 ∧
      final m tr = m' ∧
      m'.2 exampleTimer.mtimecmp = m.2 exampleTimer.mtimecmp + exampleTimer.interval := by
  let mem : Word → Word := fun a => if a = 0x80030018 then 0x2004000 else
    if a = 0x80030020 then 1000000 else 0
  let m : State := (⟨fun _ => 5, fun x => if x = .mscratch then 0x80030000 else 0, 0, .user⟩, mem)
  have ready : exampleTimer.Ready m.1 m.2 := ⟨by decide, by decide, by decide⟩
  obtain ⟨c, mem', h, -⟩ := timerVector_run ready 0x80000100
  have run : Along (exampleTimer.Step 0x80000100) m [(.tick, (c, mem'))] := ⟨.tick h, trivial⟩
  have cmp := (timer_ticks ready run rfl).1
  exact ⟨m, _, _, run, rfl, rfl, by simpa [Event.isTick] using cmp⟩

end Ticks

end TimerArea

end EasyXv6.Trap
