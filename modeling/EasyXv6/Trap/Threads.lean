import EasyXv6.Lib.Rv64
import EasyXv6.Lib.Trace
import EasyXv6.Proc.Table

set_option autoImplicit false

/-!
# Kernel threads (swtch.S, proc.c)

The scheduler of a hart and the processes that are in the kernel take turns by `swtch`. To a thread
it is a function call that takes long: the registers that C keeps across a call come back.
-/
namespace EasyXv6.Trap
open Lib Rv64 Proc

def swtch : List Instr := [
  .sd .ra 0 .a0,
  .sd .sp 8 .a0,
  .sd .s0 16 .a0,
  .sd .s1 24 .a0,
  .sd .s2 32 .a0,
  .sd .s3 40 .a0,
  .sd .s4 48 .a0,
  .sd .s5 56 .a0,
  .sd .s6 64 .a0,
  .sd .s7 72 .a0,
  .sd .s8 80 .a0,
  .sd .s9 88 .a0,
  .sd .s10 96 .a0,
  .sd .s11 104 .a0,
  .ld .ra 0 .a1,
  .ld .sp 8 .a1,
  .ld .s0 16 .a1,
  .ld .s1 24 .a1,
  .ld .s2 32 .a1,
  .ld .s3 40 .a1,
  .ld .s4 48 .a1,
  .ld .s5 56 .a1,
  .ld .s6 64 .a1,
  .ld .s7 72 .a1,
  .ld .s8 80 .a1,
  .ld .s9 88 .a1,
  .ld .s10 96 .a1,
  .ld .s11 104 .a1,
  .ret]

/-- The fields of `context_t`. -/
def contextRegs : List (Reg × ℕ) := [
  (.ra, 0), (.sp, 8), (.s0, 16), (.s1, 24), (.s2, 32), (.s3, 40), (.s4, 48), (.s5, 56), (.s6, 64),
  (.s7, 72), (.s8, 80), (.s9, 88), (.s10, 96), (.s11, 104)]

/-- A process, or the scheduler of the hart. -/
abbrev Thread := Option (Fin NPROC)

/-- Where `p->ctx` and `mycpu()->ctx` are. -/
structure Places where
  addr : Thread → Word
  aligned : ∀ t, (addr t).toNat % 8 = 0
  fits : ∀ t, (addr t).toNat + 112 ≤ 2 ^ 64
  apart : ∀ t u, t ≠ u →
    (addr t).toNat + 112 ≤ (addr u).toNat ∨ (addr u).toNat + 112 ≤ (addr t).toNat

structure Threads where
  hart : Hart
  mem : Word → Word
  cur : Thread

namespace Places

variable (P : Places)

/-- A field of a context. -/
def field (t : Thread) (off : ℕ) : Word := P.addr t + BitVec.ofNat 64 off

/-- The context of `t` holds these registers. -/
def Holds (t : Thread) (reg : Reg → Word) (mem : Word → Word) : Prop :=
  ∀ x ∈ contextRegs, mem (P.field t x.2) = reg x.1

/-- The call `swtch(old, new)`, where `new` is the context of `next`. -/
def swtchTo (next : Thread) (m : Threads) : Option Threads :=
  let h := (m.hart.setReg .a0 (P.addr m.cur)).setReg .a1 (P.addr next)
  (run flat swtch h m.mem).map fun x => ⟨x.1, x.2, next⟩

/-- What `proc_alloc` does to a context: memset, ra and sp. -/
def freshContext (forkReturn stack : Word) (t : Thread) (mem : Word → Word) : Word → Word :=
  let mem := contextRegs.foldl (fun mem x => Function.update mem (P.field t x.2) 0) mem
  let mem := Function.update mem (P.field t 0) forkReturn
  Function.update mem (P.field t 8) stack

inductive Event
  | work
  | alloc (i : Fin NPROC) (stack : Word)
  | swtch (next : Thread)

inductive Step (forkReturn : Word) : Threads → Event → Threads → Prop
  /-- The thread that has the hart runs. It writes to no context. -/
  | work {m : Threads} {h : Hart} {mem : Word → Word}
      (keeps : ∀ t, ∀ x ∈ contextRegs, mem (P.field t x.2) = m.mem (P.field t x.2)) :
      Step forkReturn m .work ⟨h, mem, m.cur⟩
  /-- It allocates a process. -/
  | alloc {m : Threads} {i : Fin NPROC} {stack : Word} :
      Step forkReturn m (.alloc i stack)
        { m with mem := P.freshContext forkReturn stack (some i) m.mem }
  /-- A process goes back to the scheduler, and the scheduler to a process. -/
  | swtch {m m' : Threads} {next : Thread} (turn : m.cur = none ↔ next ≠ none)
      (h : P.swtchTo next m = some m') : Step forkReturn m (.swtch next) m'

end Places

theorem swtch_eq : swtch = saves .a0 contextRegs ++ (restores .a1 contextRegs ++ [.ret]) := by
  simp [swtch, saves, restores, contextRegs]

theorem contextRegs_low : ∀ x ∈ contextRegs, x.2 % 8 = 0 ∧ x.2 < 112 := by decide

theorem contextRegs_offs : (contextRegs.map Prod.snd).Nodup := by decide

theorem contextRegs_regs : (contextRegs.map Prod.fst).Nodup := by decide

namespace Places

variable {P : Places} {forkReturn stack : Word} {m m' m₁ m₂ : Threads} {e : Event} {t u next : Thread}
  {reg : Reg → Word} {mem : Word → Word} {off off' : ℕ} {v : Word}

section Fields

theorem toNat_field (h : off < 112) : (P.field t off).toNat = (P.addr t).toNat + off :=
  toNat_add_off (P.fits t) h

theorem field_ne (h : off < 112) (h' : off' < 112) (hne : t ≠ u ∨ off ≠ off') :
    P.field t off ≠ P.field u off' := by
  intro same
  have here := congrArg BitVec.toNat same
  rw [toNat_field h, toNat_field h'] at here
  by_cases htu : t = u
  · subst htu
    have := hne.resolve_left (by simp)
    omega
  · have := P.apart t u htu
    omega

/-- The window of a context. -/
def window (P : Places) (t : Thread) (satp : Word) (mode : Mode) :
    Window flat satp mode (P.addr t) := flatWindow satp mode (P.aligned t) (P.fits t)

theorem window_inside {satp : Word} {mode : Mode} :
    ∀ x ∈ contextRegs, (P.window t satp mode).inside x.2 := contextRegs_low

/-- Saving into one context leaves the others. -/
theorem saved_apart {satp : Word} {mode : Mode} {l : List (Reg × ℕ)} (low : ∀ x ∈ l, x.2 < 112)
    (hut : u ≠ t) (h : off < 112) :
    (P.window t satp mode).saved reg l mem (P.field u off) = mem (P.field u off) := by
  apply flatWindow_saved_of_ne
  intro x hx
  exact field_ne h (low x hx) (Or.inl hut)

end Fields

section Switch

/-- What `swtch` does: the one context has the registers, the registers are those of the other. -/
structure Switched (P : Places) (next : Thread) (m m' : Threads) : Prop where
  cur : m'.cur = next
  saved : P.Holds m.cur m.hart.reg m'.mem
  frame : ∀ t, t ≠ m.cur → ∀ off < 112, m'.mem (P.field t off) = m.mem (P.field t off)
  loaded : P.Holds next m'.hart.reg m'.mem
  pc : m'.hart.pc = m'.hart.reg .ra
  mode : m'.hart.mode = m.hart.mode
  csr : m'.hart.csr = m.hart.csr

theorem swtchTo_switches (P : Places) (next : Thread) (m : Threads) :
    ∃ m', P.swtchTo next m = some m' ∧ P.Switched next m m' := by
  let h := (m.hart.setReg .a0 (P.addr m.cur)).setReg .a1 (P.addr next)
  have args : ∀ x ∈ contextRegs, h.reg x.1 = m.hart.reg x.1 := by
    intro x hx
    have plain : ∀ x ∈ contextRegs, x.1 ≠ .a0 ∧ x.1 ≠ .a1 := by decide
    simp [h, plain x hx]
  let w := P.window m.cur (h.csr .satp) h.mode
  let w' := P.window next (h.csr .satp) h.mode
  let mem := w.saved h.reg contextRegs m.mem
  let h' := w'.restored mem contextRegs h
  have saves : run flat (saves .a0 contextRegs) h m.mem = some (h, mem) :=
    w.run_saves rfl rfl (by simp [h]) trivial window_inside
  have loads : run flat (restores .a1 contextRegs) h mem = some (h', mem) :=
    w'.run_restores_of_notMem rfl rfl (by simp [h]) trivial window_inside (by decide)
  refine ⟨⟨{ h' with pc := h'.reg .ra }, mem, next⟩, ?_, rfl, ?_, ?_, ?_, rfl, ?_, ?_⟩
  · have whole : run flat swtch h m.mem = some ({ h' with pc := h'.reg .ra }, mem) := by
      rw [swtch_eq, run_append_of_some saves, run_append_of_some loads]
      rfl
    exact congrArg (Option.map _) whole
  · intro x hx
    rw [← args x hx]
    exact w.get_saved window_inside contextRegs_offs hx
  · intro t ht off hoff
    exact saved_apart (fun x hx => (contextRegs_low x hx).2) ht hoff
  · intro x hx
    exact (w'.restored_of_mem contextRegs_regs hx).symm
  · exact w'.restored_mode
  · exact w'.restored_csr

theorem Switched.of_some (h : P.swtchTo next m = some m') : P.Switched next m m' := by
  obtain ⟨m₁, h₁, switched⟩ := swtchTo_switches P next m
  cases h₁.symm.trans h
  exact switched

/-- A suspended thread goes on where its context says. -/
theorem Holds.resumes (holds : P.Holds t reg m.mem) (away : t ≠ m.cur) :
    ∃ m', P.swtchTo t m = some m' ∧ m'.cur = t ∧ (∀ x ∈ contextRegs, m'.hart.reg x.1 = reg x.1) ∧
      m'.hart.pc = reg .ra ∧ m'.hart.mode = m.hart.mode := by
  obtain ⟨m', h, switched⟩ := swtchTo_switches P t m
  have same : ∀ x ∈ contextRegs, m'.hart.reg x.1 = reg x.1 := by
    intro x hx
    rw [← switched.loaded x hx, switched.frame t away _ (contextRegs_low x hx).2, holds x hx]
  refine ⟨m', h, switched.cur, same, ?_, switched.mode⟩
  rw [switched.pc]
  exact same (.ra, 0) (by decide)

end Switch

section Fresh

/-- The registers that a new process starts with. -/
def freshRegs (forkReturn stack : Word) (r : Reg) : Word :=
  if r = .ra then forkReturn else if r = .sp then stack else 0

/-- The memset. -/
theorem foldl_zero : contextRegs.foldl (fun mem x => Function.update mem (P.field t x.2) 0) mem =
    (P.window t 0 .supervisor).saved (fun _ => 0) contextRegs mem := rfl

theorem freshContext_holds :
    P.Holds t (freshRegs forkReturn stack) (P.freshContext forkReturn stack t mem) := by
  intro x hx
  have low := (contextRegs_low x hx).2
  have places : ∀ x ∈ contextRegs, (x.1 = .ra ↔ x.2 = 0) ∧ (x.1 = .sp ↔ x.2 = 8) := by decide
  obtain ⟨ra, sp⟩ := places x hx
  let w := P.window t 0 .supervisor
  have zero : w.get (w.saved (fun _ => 0) contextRegs mem) x.2 = 0 :=
    w.get_saved window_inside contextRegs_offs hx
  rw [freshContext, foldl_zero, freshRegs]
  by_cases h₈ : x.2 = 8
  · have hra : x.1 ≠ .ra := by
      rw [Ne, ra, h₈]
      decide
    rw [h₈, Function.update_self, if_neg hra, if_pos (sp.mpr h₈)]
  · rw [Function.update_of_ne (field_ne low (by decide) (Or.inr h₈)), if_congr sp rfl rfl, if_neg h₈]
    by_cases h₀ : x.2 = 0
    · rw [h₀, Function.update_self, if_pos (ra.mpr h₀)]
    · rw [Function.update_of_ne (field_ne low (by decide) (Or.inr h₀)), if_congr ra rfl rfl, if_neg h₀]
      exact zero

theorem freshContext_apart (hut : u ≠ t) (h : off < 112) :
    P.freshContext forkReturn stack t mem (P.field u off) = mem (P.field u off) := by
  rw [freshContext, foldl_zero, Function.update_of_ne (field_ne h (by decide) (Or.inl hut)),
    Function.update_of_ne (field_ne h (by decide) (Or.inl hut))]
  exact saved_apart (fun x hx => (contextRegs_low x hx).2) hut h

end Fresh

section Example

/-- The scheduler first, then the processes. -/
def threadSlot (t : Thread) : ℕ := t.elim 0 (·.val + 1)

theorem threadSlot_le (t : Thread) : threadSlot t ≤ NPROC := by
  cases t with
  | none => exact Nat.zero_le _
  | some i => exact i.isLt

theorem threadSlot_injective : Function.Injective threadSlot := by
  intro t u h
  cases t with
  | none => cases u with
    | none => rfl
    | some j => cases h
  | some i => cases u with
    | none => cases h
    | some j => exact congrArg some (Fin.ext (Nat.succ.inj h))

/-- A table of contexts 1024 bytes apart. -/
def examplePlaces : Places where
  addr t := BitVec.ofNat 64 (0x80020000 + 1024 * threadSlot t)
  aligned t := by
    have := threadSlot_le t
    simp only [BitVec.toNat_ofNat, NPROC] at *
    omega
  fits t := by
    have := threadSlot_le t
    simp only [BitVec.toNat_ofNat, NPROC] at *
    omega
  apart t u htu := by
    have := threadSlot_le t
    have := threadSlot_le u
    have := threadSlot_injective.ne htu
    simp only [BitVec.toNat_ofNat, NPROC] at *
    omega

end Example

section Run

/-- No new process gets the context of `t`. -/
def Event.Spares (t : Thread) : Event → Prop
  | .alloc i _ => some i ≠ t
  | _ => True

theorem Holds.step (holds : P.Holds t reg m.mem) (away : t ≠ m.cur)
    (h : P.Step forkReturn m e m') (spares : e.Spares t) : P.Holds t reg m'.mem := by
  intro x hx
  rw [← holds x hx]
  cases h with
  | work keeps => exact keeps t x hx
  | alloc => exact freshContext_apart (Ne.symm spares) (contextRegs_low x hx).2
  | swtch turn h => exact (Switched.of_some h).frame t away _ (contextRegs_low x hx).2

theorem Holds.run {tr : List (Event × Threads)} (holds : P.Holds t reg m.mem) (here : t ≠ m.cur)
    (h : Along (P.Step forkReturn) m tr) (away : ∀ x ∈ tr, t ≠ x.2.cur)
    (spares : ∀ x ∈ tr, x.1.Spares t) : P.Holds t reg (final m tr).mem ∧ t ≠ (final m tr).cur := by
  induction tr generalizing m with
  | nil => exact ⟨holds, here⟩
  | cons x tr ih =>
    obtain ⟨first, later⟩ := List.forall_mem_cons.mp away
    obtain ⟨spare, rest⟩ := List.forall_mem_cons.mp spares
    exact ih (holds.step here h.1 spare) first h.2 later rest

/-- To the thread that calls it, `swtch` returns: whatever the other threads do in between, it goes
    on behind the call with the ra, the sp and the registers s0 to s11 of the call. -/
theorem swtch_returns {tr : List (Event × Threads)} (call : P.swtchTo next m = some m₁)
    (other : next ≠ m.cur) (run : Along (P.Step forkReturn) m₁ tr)
    (away : ∀ x ∈ tr, m.cur ≠ x.2.cur) (spares : ∀ x ∈ tr, x.1.Spares m.cur)
    (hm : final m₁ tr = m₂) :
    ∃ m₃, P.swtchTo m.cur m₂ = some m₃ ∧ m₃.cur = m.cur ∧
      (∀ x ∈ contextRegs, m₃.hart.reg x.1 = m.hart.reg x.1) ∧
      m₃.hart.pc = m.hart.reg .ra ∧ m₃.hart.mode = m₂.hart.mode := by
  have switched := Switched.of_some call
  have here : m.cur ≠ m₁.cur := by
    rw [switched.cur]
    exact other.symm
  obtain ⟨holds, gone⟩ := switched.saved.run here run away spares
  rw [hm] at holds gone
  exact holds.resumes gone

theorem swtch_returns_round : ∃ m m₁ tr m₃, examplePlaces.swtchTo none m = some m₁ ∧
    m.cur = some 0 ∧ Along (examplePlaces.Step 0x80001000) m₁ tr ∧ tr.length = 2 ∧
    examplePlaces.swtchTo m.cur (final m₁ tr) = some m₃ ∧ m₃.hart.reg .s0 = 5 := by
  let m : Threads := ⟨⟨fun _ => 5, fun _ => 0, 0, .supervisor⟩, fun _ => 0, some 0⟩
  obtain ⟨m₁, h₁, s₁⟩ := swtchTo_switches examplePlaces none m
  obtain ⟨m₂, h₂, s₂⟩ := swtchTo_switches examplePlaces (some 1) m₁
  obtain ⟨m₃, h₃, s₃⟩ := swtchTo_switches examplePlaces none m₂
  have run : Along (examplePlaces.Step 0x80001000) m₁ [(.swtch (some 1), m₂), (.swtch none, m₃)] :=
    ⟨.swtch (by simp [s₁.cur]) h₂, .swtch (by simp [s₂.cur]) h₃, trivial⟩
  have away : ∀ x ∈ [(Event.swtch (some 1), m₂), (.swtch none, m₃)], m.cur ≠ x.2.cur := by
    simp [m, s₂.cur, s₃.cur]
  have spares : ∀ x ∈ [(Event.swtch (some 1), m₂), (.swtch none, m₃)], x.1.Spares m.cur := by
    simp [Event.Spares]
  obtain ⟨m₄, h₄, -, same, -⟩ := swtch_returns h₁ (by simp [m]) run away spares rfl
  exact ⟨m, m₁, _, m₄, h₁, rfl, run, rfl, h₄, same (.s0, 16) (by decide)⟩

/-- A new process starts in `fork_return` on its own stack. -/
theorem fresh_starts {tr : List (Event × Threads)} {i : Fin NPROC}
    (alloc : P.Step forkReturn m (.alloc i stack) m₁) (here : some i ≠ m.cur)
    (run : Along (P.Step forkReturn) m₁ tr) (away : ∀ x ∈ tr, some i ≠ x.2.cur)
    (spares : ∀ x ∈ tr, x.1.Spares (some i)) (hm : final m₁ tr = m₂) :
    ∃ m₃, P.swtchTo (some i) m₂ = some m₃ ∧ m₃.hart.pc = forkReturn ∧ m₃.hart.reg .sp = stack := by
  cases alloc with
  | alloc =>
    let fresh : Threads := { m with mem := P.freshContext forkReturn stack (some i) m.mem }
    have start : P.Holds (some i) (freshRegs forkReturn stack) fresh.mem := freshContext_holds
    obtain ⟨holds, gone⟩ := start.run here run away spares
    rw [hm] at holds gone
    obtain ⟨m₃, h, -, regs, pc, -⟩ := holds.resumes gone
    exact ⟨m₃, h, pc, regs (.sp, 8) (by decide)⟩

theorem fresh_starts_next : ∃ m m₁ tr m₃, examplePlaces.Step 0x80001000 m (.alloc 1 0x3fffff000) m₁ ∧
    Along (examplePlaces.Step 0x80001000) m₁ tr ∧ tr.length = 1 ∧
    examplePlaces.swtchTo (some 1) (final m₁ tr) = some m₃ ∧ m₃.hart.pc = 0x80001000 := by
  let m : Threads := ⟨⟨fun _ => 5, fun _ => 0, 0, .supervisor⟩, fun _ => 0, some 0⟩
  let m₁ : Threads :=
    { m with mem := examplePlaces.freshContext 0x80001000 0x3fffff000 (some 1) m.mem }
  have alloc : examplePlaces.Step 0x80001000 m (.alloc 1 0x3fffff000) m₁ := .alloc
  obtain ⟨m₂, h₂, s₂⟩ := swtchTo_switches examplePlaces none m₁
  have run : Along (examplePlaces.Step 0x80001000) m₁ [(.swtch none, m₂)] :=
    ⟨.swtch (by simp [m₁, m]) h₂, trivial⟩
  obtain ⟨m₃, h₃, pc, -⟩ := fresh_starts alloc (by simp [m]) run (by simp [s₂.cur])
    (by simp [Event.Spares]) rfl
  exact ⟨m, m₁, _, m₃, alloc, run, rfl, h₃, pc⟩

end Run

end Places

end EasyXv6.Trap
