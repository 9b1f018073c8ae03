import EasyXv6.Trap.Mmu

set_option autoImplicit false

/-!
# The trampoline (trampoline.S)

The way into the kernel and out of it, instruction by instruction.
-/
namespace EasyXv6.Trap
open Lib Rv64 Mem Proc

def userVector : List Instr := [
  -- sscratch holds the trapframe
  .csrrw .a0 .sscratch .a0,
  .sd .ra 40 .a0,
  .sd .sp 48 .a0,
  .sd .gp 56 .a0,
  .sd .tp 64 .a0,
  .sd .t0 72 .a0,
  .sd .t1 80 .a0,
  .sd .t2 88 .a0,
  .sd .s0 96 .a0,
  .sd .s1 104 .a0,
  .sd .a1 120 .a0,
  .sd .a2 128 .a0,
  .sd .a3 136 .a0,
  .sd .a4 144 .a0,
  .sd .a5 152 .a0,
  .sd .a6 160 .a0,
  .sd .a7 168 .a0,
  .sd .s2 176 .a0,
  .sd .s3 184 .a0,
  .sd .s4 192 .a0,
  .sd .s5 200 .a0,
  .sd .s6 208 .a0,
  .sd .s7 216 .a0,
  .sd .s8 224 .a0,
  .sd .s9 232 .a0,
  .sd .s10 240 .a0,
  .sd .s11 248 .a0,
  .sd .t3 256 .a0,
  .sd .t4 264 .a0,
  .sd .t5 272 .a0,
  .sd .t6 280 .a0,
  -- the a0 of the user
  .csrr .t0 .sscratch,
  .sd .t0 112 .a0,
  -- kernel_sp, kernel_hartid, kernel_trap, kernel_satp
  .ld .sp 8 .a0,
  .ld .tp 32 .a0,
  .ld .t0 16 .a0,
  .ld .t1 0 .a0,
  .csrw .satp .t1,
  .sfenceVma,
  .jr .t0]

def userReturn : List Instr := [
  .csrw .satp .a1,
  .sfenceVma,
  .ld .t0 112 .a0,
  .csrw .sscratch .t0,
  .ld .ra 40 .a0,
  .ld .sp 48 .a0,
  .ld .gp 56 .a0,
  .ld .tp 64 .a0,
  .ld .t0 72 .a0,
  .ld .t1 80 .a0,
  .ld .t2 88 .a0,
  .ld .s0 96 .a0,
  .ld .s1 104 .a0,
  .ld .a1 120 .a0,
  .ld .a2 128 .a0,
  .ld .a3 136 .a0,
  .ld .a4 144 .a0,
  .ld .a5 152 .a0,
  .ld .a6 160 .a0,
  .ld .a7 168 .a0,
  .ld .s2 176 .a0,
  .ld .s3 184 .a0,
  .ld .s4 192 .a0,
  .ld .s5 200 .a0,
  .ld .s6 208 .a0,
  .ld .s7 216 .a0,
  .ld .s8 224 .a0,
  .ld .s9 232 .a0,
  .ld .s10 240 .a0,
  .ld .s11 248 .a0,
  .ld .t3 256 .a0,
  .ld .t4 264 .a0,
  .ld .t5 272 .a0,
  .ld .t6 280 .a0,
  .csrrw .a0 .sscratch .a0,
  .sret]

/-- The places of the registers in `trapframe_t`, a0 apart. -/
def frameRegs : List (Reg × ℕ) := [
  (.ra, 40), (.sp, 48), (.gp, 56), (.tp, 64), (.t0, 72), (.t1, 80), (.t2, 88), (.s0, 96), (.s1, 104),
  (.a1, 120), (.a2, 128), (.a3, 136), (.a4, 144), (.a5, 152), (.a6, 160), (.a7, 168),
  (.s2, 176), (.s3, 184), (.s4, 192), (.s5, 200), (.s6, 208), (.s7, 216), (.s8, 224), (.s9, 232),
  (.s10, 240), (.s11, 248), (.t3, 256), (.t4, 264), (.t5, 272), (.t6, 280)]

/-- The offset of a register in `trapframe_t`. -/
def frameOff : Reg → ℕ
  | .ra => 40 | .sp => 48 | .gp => 56 | .tp => 64 | .t0 => 72 | .t1 => 80 | .t2 => 88
  | .s0 => 96 | .s1 => 104 | .a0 => 112 | .a1 => 120 | .a2 => 128 | .a3 => 136 | .a4 => 144
  | .a5 => 152 | .a6 => 160 | .a7 => 168 | .s2 => 176 | .s3 => 184 | .s4 => 192 | .s5 => 200
  | .s6 => 208 | .s7 => 216 | .s8 => 224 | .s9 => 232 | .s10 => 240 | .s11 => 248
  | .t3 => 256 | .t4 => 264 | .t5 => 272 | .t6 => 280

theorem userVector_eq : userVector = Instr.csrrw .a0 .sscratch .a0 :: (saves .a0 frameRegs ++
    Instr.csrr .t0 .sscratch :: (saves .a0 [(.t0, 112)] ++
      (restores .a0 [(.sp, 8), (.tp, 32), (.t0, 16), (.t1, 0)] ++
        [Instr.csrw .satp .t1, .sfenceVma, .jr .t0]))) := by
  simp [userVector, saves, restores, frameRegs]

theorem userReturn_eq : userReturn = Instr.csrw .satp .a1 :: Instr.sfenceVma ::
    (restores .a0 [(.t0, 112)] ++ Instr.csrw .sscratch .t0 :: (restores .a0 frameRegs ++
      [Instr.csrrw .a0 .sscratch .a0, .sret])) := by
  simp [userReturn, restores, frameRegs]

theorem frameRegs_mem (r : Reg) (h : r ≠ .a0) : (r, frameOff r) ∈ frameRegs := by
  cases r <;> first | exact absurd rfl h | simp [frameRegs, frameOff]

theorem frameOff_of_mem : ∀ x ∈ frameRegs, x.2 = frameOff x.1 := by decide

theorem frameRegs_offs : (frameRegs.map Prod.snd).Nodup := by decide

theorem frameRegs_regs : (frameRegs.map Prod.fst).Nodup := by decide

theorem a0_notMem : Reg.a0 ∉ frameRegs.map Prod.fst := by decide

theorem frameOff_ne (r : Reg) (h : r ≠ .a0) : frameOff r ≠ 112 := by
  cases r <;> first | exact absurd rfl h | decide

theorem frameOff_ge (r : Reg) : 40 ≤ frameOff r := by
  cases r <;> decide

theorem frameOff_inside (r : Reg) : frameOff r % 8 = 0 ∧ frameOff r < 288 := by
  cases r <;> decide

section Window

variable {satp : Word} (w : Window mmu satp .supervisor (BitVec.ofNat 64 TRAPFRAME)) {c : Hart}
  {s : Pmem}

/-- What `user_vector` does: all registers are in the trapframe, the kernel's are loaded. -/
structure Entered (w : Window mmu satp .supervisor (BitVec.ofNat 64 TRAPFRAME)) (c : Hart) (s : Pmem)
    (c' : Hart) (s' : Pmem) : Prop where
  saved : ∀ r, w.get s' (frameOff r) = c.reg r
  rest : ∀ off, w.inside off → (∀ r, off ≠ frameOff r) → w.get s' off = w.get s off
  good : w.good s'
  sp : c'.reg .sp = w.get s 8
  tp : c'.reg .tp = w.get s 32
  pc : c'.pc = w.get s 16
  satp : c'.csr .satp = w.get s 0
  csr : ∀ x, x ≠ .satp → x ≠ .sscratch → c'.csr x = c.csr x
  mode : c'.mode = .supervisor

/-- The fields of the trapframe lie in the window. -/
def Fields (w : Window mmu satp .supervisor (BitVec.ofNat 64 TRAPFRAME)) : Prop :=
  ∀ off, off % 8 = 0 → off < 288 → w.inside off

theorem userVector_run (hm : c.mode = .supervisor) (hs : c.csr .satp = satp)
    (hscratch : c.csr .sscratch = BitVec.ofNat 64 TRAPFRAME) (good : w.good s) (fields : Fields w) :
    ∃ c' s', run mmu userVector c s = some (c', s') ∧ Entered w c s c' s' := by
  have inside : ∀ x ∈ frameRegs, w.inside x.2 := by
    intro x hx
    rw [frameOff_of_mem x hx]
    exact fields _ (frameOff_inside _).1 (frameOff_inside _).2
  have inside₁₁₂ : ∀ x ∈ [(Reg.t0, 112)], w.inside x.2 := by simpa using fields 112 rfl (by decide)
  let c₁ := (c.setCsr .sscratch (c.reg .a0)).setReg .a0 (c.csr .sscratch)
  have base₁ : c₁.reg .a0 = BitVec.ofNat 64 TRAPFRAME := by simp [c₁, hscratch]
  have keep₁ : ∀ r, r ≠ .a0 → c₁.reg r = c.reg r := fun r hr => Function.update_of_ne hr ..
  have satp₁ : c₁.csr .satp = satp := by simp [c₁, hs]
  let s₁ := w.saved c₁.reg frameRegs s
  have good₁ : w.good s₁ := w.good_saved good inside
  let c₂ := c₁.setReg .t0 (c₁.csr .sscratch)
  have satp₂ : c₂.csr .satp = satp := satp₁
  have user : c₂.reg .t0 = c.reg .a0 := by simp [c₂, c₁]
  have base₂ : c₂.reg .a0 = BitVec.ofNat 64 TRAPFRAME := by simp [c₂, base₁]
  let s₂ := w.saved c₂.reg [(.t0, 112)] s₁
  have good₂ : w.good s₂ := w.good_saved good₁ inside₁₁₂
  let kernelRegs : List (Reg × ℕ) := [(.sp, 8), (.tp, 32), (.t0, 16), (.t1, 0)]
  have kernelLow : ∀ x ∈ kernelRegs, x.2 % 8 = 0 ∧ x.2 < 40 := by decide
  let c₃ := w.restored s₂ kernelRegs c₂
  have get₂ : ∀ off, w.inside off → off ≠ 112 → w.get s₂ off = w.get s₁ off := by
    intro off ho hne
    exact w.get_saved_of_notMem inside₁₁₂ ho (by simpa using hne)
  have rest : ∀ off, w.inside off → (∀ r, off ≠ frameOff r) → w.get s₂ off = w.get s off := by
    intro off ho hne
    rw [get₂ off ho (hne .a0)]
    apply w.get_saved_of_notMem inside ho
    intro hmem
    obtain ⟨x, hx, rfl⟩ := List.mem_map.mp hmem
    exact hne x.1 (frameOff_of_mem x hx)
  have loaded : ∀ r off, (r, off) ∈ kernelRegs → c₃.reg r = w.get s off := by
    intro r off h
    have low := kernelLow _ h
    have other : w.inside off ∧ ∀ r, off ≠ frameOff r := by
      refine ⟨fields off low.1 (by omega), fun r => ?_⟩
      have := frameOff_ge r
      omega
    exact (w.restored_of_mem (by decide) h).trans (rest off other.1 other.2)
  refine ⟨{ c₃.setCsr .satp (c₃.reg .t1) with pc := c₃.reg .t0 }, s₂, ?_, ?_⟩
  · have swap : Instr.exec mmu (.csrrw .a0 .sscratch .a0) c s = some (c₁, s) := rfl
    have fetch : Instr.exec mmu (.csrr .t0 .sscratch) c₁ s₁ = some (c₂, s₁) := rfl
    have saves₁ : run mmu (saves .a0 frameRegs) c₁ s = some (c₁, s₁) :=
      w.run_saves satp₁ hm base₁ good inside
    have saves₂ : run mmu (saves .a0 [(.t0, 112)]) c₂ s₁ = some (c₂, s₂) :=
      w.run_saves satp₂ hm base₂ good₁ inside₁₁₂
    have loads : run mmu (restores .a0 kernelRegs) c₂ s₂ = some (c₃, s₂) := by
      apply w.run_restores_of_notMem satp₂ hm base₂ good₂
      · intro x hx
        have low := kernelLow x hx
        exact fields _ low.1 (by omega)
      · decide
    rw [userVector_eq, run_cons_of_some swap, run_append_of_some saves₁, run_cons_of_some fetch,
      run_append_of_some saves₂, run_append_of_some loads]
    rfl
  · constructor
    · intro r
      by_cases hr : r = .a0
      · subst hr
        exact (w.get_saved inside₁₁₂ (by decide) List.mem_cons_self).trans user
      · rw [get₂ _ (fields _ (frameOff_inside r).1 (frameOff_inside r).2) (frameOff_ne r hr)]
        exact (w.get_saved inside frameRegs_offs (frameRegs_mem r hr)).trans (keep₁ r hr)
    · exact rest
    · exact good₂
    · exact loaded .sp 8 (by decide)
    · exact loaded .tp 32 (by decide)
    · exact loaded .t0 16 (by decide)
    · have satp₃ : (c₃.setCsr .satp (c₃.reg .t1)).csr .satp = c₃.reg .t1 := by simp
      exact satp₃.trans (loaded .t1 0 (by decide))
    · intro x hx hx'
      have h₃ : c₃.csr x = c₂.csr x := by simp only [c₃, Window.restored_csr]
      have h₁ : c₁.csr x = c.csr x := Function.update_of_ne hx' ..
      exact (Function.update_of_ne hx ..).trans (h₃.trans h₁)
    · have h₃ : c₃.mode = c₂.mode := by simp only [c₃, Window.restored_mode]
      exact h₃.trans hm

/-- What `user_return(trapframe, pagetable)` does: the registers are those of the trapframe. -/
structure Left (w : Window mmu satp .supervisor (BitVec.ofNat 64 TRAPFRAME)) (c : Hart) (s : Pmem)
    (c' : Hart) : Prop where
  reg : ∀ r, c'.reg r = w.get s (frameOff r)
  sscratch : c'.csr .sscratch = BitVec.ofNat 64 TRAPFRAME
  satp : c'.csr .satp = c.reg .a1
  sstatus : c'.csr .sstatus = (copyBit (c.csr .sstatus) SPIE SIE ||| SPIE) &&& ~~~SPP
  csr : ∀ x, x ≠ .satp → x ≠ .sscratch → x ≠ .sstatus → c'.csr x = c.csr x
  pc : c'.pc = c.csr .sepc
  mode : c'.mode = if c.csr .sstatus &&& SPP = 0 then .user else .supervisor

theorem userReturn_run (hm : c.mode = .supervisor) (hs : c.reg .a1 = satp)
    (base : c.reg .a0 = BitVec.ofNat 64 TRAPFRAME) (good : w.good s) (fields : Fields w) :
    ∃ c', run mmu userReturn c s = some (c', s) ∧ Left w c s c' := by
  have inside : ∀ x ∈ frameRegs, w.inside x.2 := by
    intro x hx
    rw [frameOff_of_mem x hx]
    exact fields _ (frameOff_inside _).1 (frameOff_inside _).2
  let c₁ := c.setCsr .satp (c.reg .a1)
  have satp₁ : c₁.csr .satp = satp := by simp [c₁, hs]
  let c₂ := w.restored s [(.t0, 112)] c₁
  have csr₂ : c₂.csr = c₁.csr := by simp only [c₂, Window.restored_csr]
  have mode₂ : c₂.mode = .supervisor := by
    simp only [c₂, Window.restored_mode]
    exact hm
  have user : c₂.reg .t0 = w.get s 112 := w.restored_of_mem (by decide) List.mem_cons_self
  have base₂ : c₂.reg .a0 = BitVec.ofNat 64 TRAPFRAME :=
    (w.restored_of_notMem (by decide)).trans base
  let c₃ := c₂.setCsr .sscratch (c₂.reg .t0)
  have satp₃ : c₃.csr .satp = satp := by simp [c₃, csr₂, satp₁]
  let c₄ := w.restored s frameRegs c₃
  have csr₄ : c₄.csr = c₃.csr := by simp only [c₄, Window.restored_csr]
  have base₄ : c₄.reg .a0 = BitVec.ofNat 64 TRAPFRAME :=
    (w.restored_of_notMem a0_notMem).trans base₂
  let c₅ := (c₄.setCsr .sscratch (c₄.reg .a0)).setReg .a0 (c₄.csr .sscratch)
  have keep : ∀ x, x ≠ .satp → x ≠ .sscratch → c₅.csr x = c.csr x := by
    intro x hx hx'
    simp [c₅, csr₄, c₃, csr₂, c₁, hx, hx']
  refine ⟨c₅.sret, ?_, ?_⟩
  · have switch : Instr.exec mmu (.csrw .satp .a1) c s = some (c₁, s) := rfl
    have fence : Instr.exec mmu .sfenceVma c₁ s = some (c₁, s) := rfl
    have load : run mmu (restores .a0 [(.t0, 112)]) c₁ s = some (c₂, s) := by
      apply w.run_restores_of_notMem satp₁ hm base good
      · simpa using fields 112 rfl (by decide)
      · decide
    have keepUser : Instr.exec mmu (.csrw .sscratch .t0) c₂ s = some (c₃, s) := rfl
    have loads : run mmu (restores .a0 frameRegs) c₃ s = some (c₄, s) :=
      w.run_restores_of_notMem satp₃ mode₂ base₂ good inside a0_notMem
    rw [userReturn_eq, run_cons_of_some switch, run_cons_of_some fence, run_append_of_some load,
      run_cons_of_some keepUser, run_append_of_some loads]
    rfl
  · constructor
    · intro r
      by_cases hr : r = .a0
      · subst hr
        have own : c₅.reg .a0 = c₃.csr .sscratch := by simp [c₅, csr₄]
        have got : c₃.csr .sscratch = c₂.reg .t0 := by simp [c₃]
        exact own.trans (got.trans user)
      · have other : c₅.reg r = c₄.reg r := Function.update_of_ne hr ..
        exact other.trans (w.restored_of_mem frameRegs_regs (frameRegs_mem r hr))
    · have here : c₅.csr .sscratch = c₄.reg .a0 := by simp [c₅]
      have after : c₅.sret.csr .sscratch = c₅.csr .sscratch := by simp [Hart.sret]
      exact after.trans (here.trans base₄)
    · have here : c₅.csr .satp = c.reg .a1 := by simp [c₅, csr₄, c₃, csr₂, c₁]
      have after : c₅.sret.csr .satp = c₅.csr .satp := by simp [Hart.sret]
      exact after.trans here
    · rw [← keep .sstatus (by decide) (by decide)]
      simp [Hart.sret]
    · intro x hx hx' hx''
      exact (Function.update_of_ne hx'' ..).trans (keep x hx hx')
    · exact keep .sepc (by decide) (by decide)
    · rw [← keep .sstatus (by decide) (by decide)]
      rfl

end Window

end EasyXv6.Trap
