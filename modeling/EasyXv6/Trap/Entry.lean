import EasyXv6.Trap.System

set_option autoImplicit false

/-!
# Into the kernel and out of it

A trap from user mode saves the registers in the trapframe, and `trap_user_return` loads them from
there. Neither can fail while the page table of the process is as the kernel makes it.
-/
namespace EasyXv6.Trap
open Lib Rv64 Mem Proc Radix

section FrameWords

variable {s s' : Pmem} {tf off off' : ℕ} {v : Word}

theorem frameWord_of_same (h : s'.mem tf = s.mem tf) : frameWord s' tf off = frameWord s tf off := by
  rw [frameWord, h, frameWord]

theorem OnlyPage.setFrame (h : OnlyPage tf s s') : OnlyPage tf s (setFrame s' tf off v) :=
  h.setPage _

@[simp] theorem frameWord_setFrame (h : off + 8 ≤ PGSIZE) :
    frameWord (setFrame s tf off v) tf off = v := by
  have small : v.toNat % 256 ^ 8 = v.toNat := Nat.mod_eq_of_lt v.isLt
  rw [frameWord, setFrame, setPage_mem_self, Bytes.num_putNum_self _ _ _ _ h, small,
    BitVec.ofNat_toNat, BitVec.setWidth_eq]

theorem frameWord_setFrame_of_apart (h : off' + 8 ≤ off ∨ off + 8 ≤ off') :
    frameWord (setFrame s tf off v) tf off' = frameWord s tf off' := by
  rw [frameWord, setFrame, setPage_mem_self, Bytes.num_putNum_of_disjoint, frameWord]
  omega

theorem frameOff_injective : Function.Injective frameOff := by
  intro r r' h
  cases r <;> cases r' <;> first | rfl | exact absurd h (by decide)

theorem frameOff_apart {r r' : Reg} (h : r' ≠ r) :
    frameOff r' + 8 ≤ frameOff r ∨ frameOff r + 8 ≤ frameOff r' := by
  have := (frameOff_inside r).1
  have := (frameOff_inside r').1
  have := frameOff_injective.ne h
  omega

/-- The registers that a trapframe holds. -/
def frameContext (s : Pmem) (tf : ℕ) : Context :=
  ⟨fun r => frameWord s tf (frameOff r), frameWord s tf EPC⟩

def Context.setReg (x : Context) (r : Reg) (v : Word) : Context :=
  { x with reg := Function.update x.reg r v }

theorem frameContext_of_same (h : s'.mem tf = s.mem tf) :
    frameContext s' tf = frameContext s tf := by
  simp only [frameContext, frameWord_of_same h]

/-- The fields of the kernel hold no register. -/
theorem frameContext_setFrame_kernel (low : off + 8 ≤ 40) (other : off + 8 ≤ EPC ∨ EPC + 8 ≤ off) :
    frameContext (setFrame s tf off v) tf = frameContext s tf := by
  have reg : ∀ r, frameWord (setFrame s tf off v) tf (frameOff r) = frameWord s tf (frameOff r) := by
    intro r
    have := frameOff_ge r
    apply frameWord_setFrame_of_apart
    omega
  simp only [frameContext, reg, frameWord_setFrame_of_apart other.symm]

theorem frameContext_setFrame_epc : frameContext (setFrame s tf EPC v) tf =
    { frameContext s tf with pc := v } := by
  have reg : ∀ r, frameWord (setFrame s tf EPC v) tf (frameOff r) = frameWord s tf (frameOff r) := by
    intro r
    have := frameOff_ge r
    apply frameWord_setFrame_of_apart
    simp only [EPC]
    omega
  simp only [frameContext, reg, frameWord_setFrame (show EPC + 8 ≤ PGSIZE by decide)]

theorem frameContext_setFrame_reg (r : Reg) : frameContext (setFrame s tf (frameOff r) v) tf =
    (frameContext s tf).setReg r v := by
  have inside := frameOff_inside r
  have ge := frameOff_ge r
  have pc : frameWord (setFrame s tf (frameOff r) v) tf EPC = frameWord s tf EPC := by
    apply frameWord_setFrame_of_apart
    simp only [EPC]
    omega
  have reg : (fun r' => frameWord (setFrame s tf (frameOff r) v) tf (frameOff r')) =
      Function.update (fun r' => frameWord s tf (frameOff r')) r v := by
    funext r'
    by_cases h : r' = r
    · rw [h, Function.update_self, frameWord_setFrame]
      simp only [PGSIZE]
      omega
    · rw [Function.update_of_ne h, frameWord_setFrame_of_apart (frameOff_apart h)]
  rw [frameContext, pc, reg]
  rfl

end FrameWords

section Status

variable (x : Word)

theorem spp_cleared : x &&& ~~~SPP &&& SPP = 0 := by
  rw [BitVec.and_assoc, BitVec.and_comm (~~~SPP)]
  simp

theorem spp_user : (x &&& ~~~SPP ||| SPIE) &&& SPP = 0 := by
  have none : SPIE &&& SPP = 0 := by decide
  rw [BitVec.and_or_distrib_right, spp_cleared, none]
  rfl

end Status

variable {K : Symbols} {L : Layout} {kernel : Multiset ℕ} {m : Machine}

/-- What a hart needs for the next trap while it runs user code. -/
structure InUser (K : Symbols) (m : Machine) : Prop where
  run : (m.kernel.proc m.cur).state = .running
  mode : m.hart.mode = .user
  satp : m.hart.csr .satp = MAKE_SATP (m.kernel.proc m.cur).pgtbl
  sscratch : m.hart.csr .sscratch = BitVec.ofNat 64 TRAPFRAME
  stvec : m.hart.csr .stvec = K.userVector
  kernelSatp : frameWord m.kernel.pm m.tf KERNEL_SATP = K.kernelSatp
  kernelSp : frameWord m.kernel.pm m.tf KERNEL_SP = BitVec.ofNat 64 (KSTACK m.cur + PGSIZE)
  kernelTrap : frameWord m.kernel.pm m.tf KERNEL_TRAP = K.trapUserHandler
  kernelHartid : frameWord m.kernel.pm m.tf KERNEL_HARTID = K.hartid

/-- The registers that the compiled kernel does not touch. -/
structure InKernel (K : Symbols) (h : Hart) : Prop where
  mode : h.mode = .supervisor
  satp : h.csr .satp = K.kernelSatp
  tp : h.reg .tp = K.hartid

def contextOf (h : Hart) : Context := ⟨h.reg, h.pc⟩

/-- Nothing has happened in between but at the trapframe. -/
structure FrameOnly (m m' : Machine) : Prop where
  cur : m'.cur = m.cur
  kernel : m'.kernel = { m.kernel with pm := m'.kernel.pm }
  only : OnlyPage m.tf m.kernel.pm m'.kernel.pm

theorem mapsFrame_of_spaces (spaces : Spaces L kernel m.kernel)
    (used : (m.kernel.proc m.cur).state ≠ .unused) :
    InRange L (m.kernel.proc m.cur).pgtbl ∧ InRange L m.tf ∧
      MapsFrame L (m.kernel.proc m.cur).pgtbl m.tf m.kernel.pm := by
  obtain ⟨free, own⟩ := spaces.owned
  have ok := own.used m.cur used
  refine ⟨?_, ok.tf, ok.tree, (spaces.high m.cur used).trapframe, ?_⟩
  · exact own.inRange (own.mem_slotPages_of_node used mem_nodes_self)
  · exact (own.leaf_apart used (own.tf_leaf used)).2 m.cur used

/-- Every trap from user mode gets to the C code of the kernel, with the registers saved. -/
theorem userTrap_enters (cause tval : Word) (spaces : Spaces L kernel m.kernel) (here : InUser K m) :
    ∃ m', userTrap K cause tval m = some m' ∧ FrameOnly m m' ∧ InKernel K m'.hart ∧
      m'.hart.reg .sp = BitVec.ofNat 64 (KSTACK m.cur + PGSIZE) ∧
      frameContext m'.kernel.pm m.tf = contextOf m.hart ∧
      m'.loc = Function.update m.loc m.cur (.entered cause) := by
  obtain ⟨hr, htf, maps⟩ := mapsFrame_of_spaces spaces (not_unused_of_running here.run)
  let w := frameWindow L _ m.tf hr htf m.kernel.pm
  have good : w.good m.kernel.pm := ⟨maps, .refl _ _⟩
  have fields : Fields w := by
    intro off aligned lt
    refine ⟨aligned, ?_⟩
    simp only [PGSIZE]
    omega
  let h := m.hart.trap cause tval
  have satp : h.csr .satp = MAKE_SATP (m.kernel.proc m.cur).pgtbl := by simp [h, Hart.trap, here.satp]
  have sscratch : h.csr .sscratch = BitVec.ofNat 64 TRAPFRAME := by simp [h, Hart.trap, here.sscratch]
  have pc : h.pc = K.userVector := here.stvec
  obtain ⟨h', pm, hrun, entered⟩ := userVector_run w (c := h) rfl satp sscratch good fields
  have sstatus : h'.csr .sstatus &&& SPP = 0 := by
    have value : h.csr .sstatus =
        copyBit (m.hart.csr .sstatus) SIE SPIE &&& ~~~SIE &&& ~~~SPP := by
      simp [h, Hart.trap, here.mode]
    rw [entered.csr .sstatus (by decide) (by decide), value, spp_cleared]
  have sepc : h'.csr .sepc = m.hart.pc := by
    rw [entered.csr .sepc (by decide) (by decide)]
    simp [h, Hart.trap]
  have scause : h'.csr .scause = cause := by
    rw [entered.csr .scause (by decide) (by decide)]
    simp [h, Hart.trap]
  have jump : h'.pc = K.trapUserHandler := entered.pc.trans here.kernelTrap
  have context : frameContext pm m.tf = { reg := m.hart.reg, pc := frameWord pm m.tf EPC } := by
    have reg : ∀ r, frameWord pm m.tf (frameOff r) = m.hart.reg r := entered.saved
    simp only [frameContext, reg]
  let m' : Machine := { (m.setPm (setFrame pm m.tf EPC m.hart.pc)).setLoc (.entered cause) with
    hart := h'.setCsr .stvec K.kernelVector }
  have result : userTrap K cause tval m = some m' := by
    unfold userTrap
    dsimp only
    rw [if_neg (not_not.mpr pc), hrun]
    dsimp only
    rw [if_neg (not_not.mpr jump), if_neg (not_not.mpr sstatus), sepc, scause]
  refine ⟨m', result, ⟨rfl, rfl, entered.good.2.setFrame⟩, ⟨entered.mode, ?_, ?_⟩, ?_, ?_, rfl⟩
  · have kept : (h'.setCsr .stvec K.kernelVector).csr .satp = h'.csr .satp := by simp
    exact kept.trans (entered.satp.trans here.kernelSatp)
  · exact entered.tp.trans here.kernelHartid
  · exact entered.sp.trans here.kernelSp
  · change frameContext (setFrame pm m.tf EPC m.hart.pc) m.tf = _
    rw [frameContext_setFrame_epc, context]
    rfl

/-- `trap_user_return` gets to user mode, with the registers that the trapframe holds. -/
theorem userRet_leaves (spaces : Spaces L kernel m.kernel) (here : InKernel K m.hart)
    (run : (m.kernel.proc m.cur).state = .running) :
    ∃ m', userRet K m = some m' ∧ FrameOnly m m' ∧ InUser K m' ∧
      contextOf m'.hart = frameContext m.kernel.pm m.tf ∧
      frameContext m'.kernel.pm m.tf = frameContext m.kernel.pm m.tf ∧
      m'.loc = Function.update m.loc m.cur .user := by
  obtain ⟨hr, htf, maps⟩ := mapsFrame_of_spaces spaces (not_unused_of_running run)
  let s₁ := setFrame m.kernel.pm m.tf KERNEL_SATP (m.hart.csr .satp)
  let s₂ := setFrame s₁ m.tf KERNEL_SP (BitVec.ofNat 64 (KSTACK m.cur + PGSIZE))
  let s₃ := setFrame s₂ m.tf KERNEL_TRAP K.trapUserHandler
  let s₄ := setFrame s₃ m.tf KERNEL_HARTID (m.hart.reg .tp)
  have only : OnlyPage m.tf m.kernel.pm s₄ :=
    (OnlyPage.refl m.tf m.kernel.pm).setFrame.setFrame.setFrame.setFrame
  have maps₄ : MapsFrame L (m.kernel.proc m.cur).pgtbl m.tf s₄ :=
    (((maps.setPage _).setPage _).setPage _).setPage _
  have context : frameContext s₄ m.tf = frameContext m.kernel.pm m.tf := by
    rw [frameContext_setFrame_kernel (by decide) (by decide),
      frameContext_setFrame_kernel (by decide) (by decide),
      frameContext_setFrame_kernel (by decide) (by decide),
      frameContext_setFrame_kernel (by decide) (by decide)]
  have satp₄ : frameWord s₄ m.tf KERNEL_SATP = K.kernelSatp := by
    rw [frameWord_setFrame_of_apart (by decide), frameWord_setFrame_of_apart (by decide),
      frameWord_setFrame_of_apart (by decide), frameWord_setFrame (by decide), here.satp]
  have sp₄ : frameWord s₄ m.tf KERNEL_SP = BitVec.ofNat 64 (KSTACK m.cur + PGSIZE) := by
    rw [frameWord_setFrame_of_apart (by decide), frameWord_setFrame_of_apart (by decide),
      frameWord_setFrame (by decide)]
  have trap₄ : frameWord s₄ m.tf KERNEL_TRAP = K.trapUserHandler := by
    rw [frameWord_setFrame_of_apart (by decide), frameWord_setFrame (by decide)]
  have hartid₄ : frameWord s₄ m.tf KERNEL_HARTID = K.hartid := by
    rw [frameWord_setFrame (by decide), here.tp]
  have epc : frameWord s₄ m.tf EPC = frameWord m.kernel.pm m.tf EPC := by
    iterate 4 rw [frameWord_setFrame_of_apart (by decide)]
  let w := frameWindow L _ m.tf hr htf s₄
  have good : w.good s₄ := ⟨maps₄, .refl _ _⟩
  have fields : Fields w := by
    intro off aligned lt
    refine ⟨aligned, ?_⟩
    simp only [PGSIZE]
    omega
  let c := (trapUserReturn K m).1
  have memory : (trapUserReturn K m).2 = s₄ := by
    simp [trapUserReturn, s₄, s₃, s₂, s₁]
  have a1 : c.reg .a1 = MAKE_SATP (m.kernel.proc m.cur).pgtbl := by simp [c, trapUserReturn]
  have a0 : c.reg .a0 = BitVec.ofNat 64 TRAPFRAME := by simp [c, trapUserReturn]
  obtain ⟨c', hrun, left⟩ := userReturn_run w (c := c) here.mode a1 a0 good fields
  have sepc : c.csr .sepc = frameWord m.kernel.pm m.tf EPC := by
    have here : c.csr .sepc = frameWord s₄ m.tf EPC := by
      simp [c, trapUserReturn, s₄, s₃, s₂, s₁]
    rw [here, epc]
  have sstatus : c.csr .sstatus &&& SPP = 0 := by
    have value : c.csr .sstatus = m.hart.csr .sstatus &&& ~~~SIE &&& ~~~SPP ||| SPIE := by
      simp [c, trapUserReturn]
    rw [value, spp_user]
  have stvec : c'.csr .stvec = K.userVector := by
    rw [left.csr .stvec (by decide) (by decide) (by decide)]
    simp [c, trapUserReturn]
  let m' : Machine := { (m.setPm s₄).setLoc .user with hart := c' }
  have result : userRet K m = some m' := by
    unfold userRet
    dsimp only
    rw [memory, hrun]
    rfl
  have reg : ∀ r, c'.reg r = frameWord s₄ m.tf (frameOff r) := left.reg
  refine ⟨m', result, ⟨rfl, rfl, only⟩, ?_, ?_, context, rfl⟩
  · refine ⟨run, ?_, left.satp.trans a1, left.sscratch, ?_, ?_, ?_, ?_, ?_⟩
    · exact left.mode.trans (if_pos sstatus)
    · exact stvec
    · exact satp₄
    · exact sp₄
    · exact trap₄
    · exact hartid₄
  · have pc : c'.pc = frameWord s₄ m.tf EPC :=
      left.pc.trans (sepc.trans epc.symm)
    rw [← context, contextOf, frameContext, pc, funext reg]

end EasyXv6.Trap
