import EasyXv6.Trap.Entry

set_option autoImplicit false

/-!
# A processor for every process

The registers of a process as they would be if it had a hart to itself: its own instructions change
them, a system call leaves its result in a0 and goes on behind the ecall, a child starts with those
of its parent and 0 in a0. Traps, the kernel and the other processes change none of them.
-/
namespace EasyXv6.Trap
open Lib Rv64 Mem Proc Radix

/-- What an event means to the registers of the processes. -/
def Event.after (m : Machine) (V : Fin NPROC → Context) : Event → Fin NPROC → Context
  | .user x => Function.update V m.cur x
  | .ecall => Function.update V m.cur { V m.cur with pc := (V m.cur).pc + 4 }
  | .result v => Function.update V m.cur ((V m.cur).setReg .a0 v)
  | .call (.fork _ _) => (firstUnused m.kernel.proc).elim V fun c =>
    Function.update V c ((V m.cur).setReg .a0 0)
  | _ => V

def contexts : Machine → (Fin NPROC → Context) → List (Event × Machine) → Fin NPROC → Context
  | _, V, [] => V
  | m, V, (e, m') :: tr => contexts m' (e.after m V) tr

/-- The registers in the trapframes. -/
def frames (s : Kernel) (i : Fin NPROC) : Context := frameContext s.pm (s.proc i).tf

/-- The hart in the scheduler, with the processes that the kernel has made. -/
structure Started (K : Symbols) (s : Kernel) (m : Machine) : Prop where
  kernel : m.kernel = s
  inside : InKernel K m.hart
  loc : ∀ i, m.loc i = .leaving

/-- The registers of the running process are in the hart, those of the others in their trapframes. -/
structure Steady (K : Symbols) (L : Layout) (kernel : Multiset ℕ) (V : Fin NPROC → Context)
    (m : Machine) : Prop where
  spaces : Spaces L kernel m.kernel
  saved : ∀ i, (m.kernel.proc i).state ≠ .unused → (m.hart.mode = .user → i ≠ m.cur) →
    frames m.kernel i = V i
  hart : InKernel K m.hart ∨ InUser K m ∧ contextOf m.hart = V m.cur

variable {K : Symbols} {L : Layout} {kernel : Multiset ℕ} {V : Fin NPROC → Context}
  {m m' : Machine} {e : Event} {i j : Fin NPROC} {s s' : Kernel} {h : Hart}

section Between

/-- A write to the trapframe of the process. -/
theorem FrameOnly.between (w : FrameOnly m m') :
    Between L kernel m.cur m.kernel m'.kernel where
  next := w.only.next
  allocable := w.only.allocable
  nextpid := by rw [w.kernel]
  proc _ := Or.inl (by rw [w.kernel])
  mem q _ hq _ := w.only.mem q hq

/-- What happens between the calls on behalf of one process changes no trapframe but its own. -/
theorem frames_of_between (spaces : Spaces L kernel s) (b : Between L kernel i s s')
    (hi : (s.proc i).state ≠ .unused) (hj : j ≠ i) (used : (s.proc j).state ≠ .unused) :
    frames s' j = frames s j := by
  obtain ⟨free, own⟩ := spaces.owned
  rw [frames, (b.sameSpace j).tf, frames]
  exact frameContext_of_same (b.pages_kept spaces hi hj (own.tf_mem used))

theorem Serves.frames_eq (serves : Serves L kernel i s s') (spaces : Spaces L kernel s)
    (hi : (s.proc i).state ≠ .unused) (used : (s.proc j).state ≠ .unused) :
    frames s' j = frames s j := by
  by_cases hj : j = i
  · rw [frames, hj, (serves.between.sameSpace i).tf, frames]
    exact frameContext_of_same serves.tf
  · exact frames_of_between spaces serves.between hi hj used

theorem spaces_of_between (spaces : Spaces L kernel s) (b : Between L kernel i s s')
    (run : (s.proc i).state = .running) : Spaces L kernel s' :=
  spaces.step (.other (Or.inr (Or.inl run)) b)

end Between

section Step

theorem Steady.inKernel (st : Steady K L kernel V m) (mode : m.hart.mode = .supervisor) :
    InKernel K m.hart := by
  rcases st.hart with here | ⟨here, -⟩
  · exact here
  · cases here.mode.symm.trans mode

theorem Steady.inUser (st : Steady K L kernel V m) (mode : m.hart.mode = .user) :
    InUser K m ∧ contextOf m.hart = V m.cur := by
  rcases st.hart with here | here
  · cases here.mode.symm.trans mode
  · exact here

/-- A trap that has got to the kernel has done so in the only way. -/
theorem Steady.trapped {cause tval : Word} (st : Steady K L kernel V m) (mode : m.hart.mode = .user)
    (enter : userTrap K cause tval m = some m') :
    FrameOnly m m' ∧ m'.hart.mode = .supervisor ∧
      m'.loc = Function.update m.loc m.cur (.entered cause) := by
  obtain ⟨m₁, h₁, w, inside, -, -, loc⟩ := userTrap_enters cause tval st.spaces (st.inUser mode).1
  cases h₁.symm.trans enter
  exact ⟨w, inside.mode, loc⟩

theorem Steady.returned (st : Steady K L kernel V m) (mode : m.hart.mode = .supervisor)
    (run : (m.kernel.proc m.cur).state = .running) (back : userRet K m = some m') :
    FrameOnly m m' ∧ m'.hart.mode = .user ∧ m'.loc = Function.update m.loc m.cur .user := by
  obtain ⟨m₁, h₁, w, here, -, -, loc⟩ := userRet_leaves st.spaces (st.inKernel mode) run
  cases h₁.symm.trans back
  exact ⟨w, here.mode, loc⟩

/-- A hart in the kernel that only the compiled code of the kernel has moved. -/
theorem Steady.scratch (st : Steady K L kernel V m) (moved : Scratch m.hart h) : InKernel K h := by
  have here := st.inKernel moved.mode
  exact ⟨moved.mode', moved.satp.trans here.satp, moved.tp.trans here.tp⟩

theorem Steady.kernel_frames (st : Steady K L kernel V m) (mode : m.hart.mode = .supervisor)
    (used : (m.kernel.proc j).state ≠ .unused) : frames m.kernel j = V j := by
  refine st.saved j used fun user => ?_
  cases mode.symm.trans user

/-- A step that writes to the trapframe of the process and ends in the kernel. -/
theorem Steady.frameOnly (st : Steady K L kernel V m) (V' : Fin NPROC → Context)
    (run : (m.kernel.proc m.cur).state = .running) (w : FrameOnly m m')
    (others : ∀ j, j ≠ m.cur → V' j = V j) (own : frames m'.kernel m.cur = V' m.cur)
    (hart : InKernel K m'.hart) : Steady K L kernel V' m' := by
  refine ⟨spaces_of_between st.spaces w.between run, ?_, Or.inl hart⟩
  intro j used _
  have same : m'.kernel.proc = m.kernel.proc := by rw [w.kernel]
  rw [same] at used
  by_cases hj : j = m.cur
  · rw [hj, own]
  · rw [frames_of_between st.spaces w.between (not_unused_of_running run) hj used, others j hj]
    exact st.saved j used fun _ => hj

/-- A step of the kernel that moves no context. -/
theorem Steady.kernelStep (st : Steady K L kernel V m) (moved : Scratch m.hart m'.hart)
    (spaces : Spaces L kernel m'.kernel)
    (same : ∀ j, (m'.kernel.proc j).state ≠ .unused → (m.kernel.proc j).state ≠ .unused ∧
      frames m'.kernel j = frames m.kernel j) : Steady K L kernel V m' := by
  refine ⟨spaces, ?_, Or.inl (st.scratch moved)⟩
  intro j used _
  obtain ⟨before, eq⟩ := same j used
  rw [eq, st.kernel_frames moved.mode before]

end Step

section Child

variable {pm pm' : Pmem} {tf tf' : ℕ}

theorem frameContext_copied (copy : ∀ i < TRAPFRAME_SIZE, (pm'.mem tf').byte i = (pm.mem tf).byte i) :
    frameContext pm' tf' = frameContext pm tf := by
  have word : ∀ off, off + 8 ≤ TRAPFRAME_SIZE → frameWord pm' tf' off = frameWord pm tf off := by
    intro off h
    rw [frameWord, frameWord]
    apply congrArg
    apply leVal_congr
    intro i hi
    apply copy
    omega
  have reg : ∀ r, frameWord pm' tf' (frameOff r) = frameWord pm tf (frameOff r) := by
    intro r
    have inside := frameOff_inside r
    apply word
    simp only [TRAPFRAME_SIZE]
    omega
  simp only [frameContext, reg, word EPC (by decide)]

/-- The child of a fork has the registers of its parent, and 0 in a0. -/
theorem frameContext_child {r : ℕ} {free free' : List ℕ} {c : Fin NPROC}
    (forked : Forked L s free i c tf r s' free') :
    frameContext s'.pm (s'.proc c).tf = (frameContext s.pm (s.proc i).tf).setReg .a0 0 := by
  have frame : (s'.proc c).tf = tf := by
    rw [forked.child]
    rfl
  obtain ⟨base, content⟩ := forked.regs
  let t : Pmem := s'.pm.setPage tf fun _ => base.put 0 TRAPFRAME_SIZE (s.pm.mem (s.proc i).tf).byte
  have whole : t.mem tf = base.put 0 TRAPFRAME_SIZE (s.pm.mem (s.proc i).tf).byte := setPage_mem_self
  have set : s'.pm.mem tf = (setFrame t tf (frameOff .a0) 0).mem tf := by
    rw [content, setFrame, setPage_mem_self, whole]
    rfl
  have copied : frameContext t tf = frameContext s.pm (s.proc i).tf := by
    apply frameContext_copied
    intro k hk
    have hsize : k < PGSIZE := by
      simp only [TRAPFRAME_SIZE, PGSIZE] at *
      omega
    rw [whole, Bytes.byte_put _ _ _ _ _ hsize, if_pos ⟨Nat.zero_le _, by omega⟩, Nat.sub_zero]
  rw [frame, frameContext_of_same set, frameContext_setFrame_reg, copied]

end Child

section Run

/-- An instruction of the user program reaches no page that it may not write. -/
theorem user_serves (spaces : Spaces L kernel m.kernel) (here : InUser K m) {pm : Pmem}
    (store : pm = m.kernel.pm ∨
      ∃ va v, mmu.store (m.hart.csr .satp) .user m.kernel.pm va v = some pm) :
    Serves L kernel m.cur m.kernel { m.kernel with pm := pm } := by
  rcases store with rfl | ⟨va, v, h⟩
  · exact ⟨⟨rfl, rfl, rfl, fun _ => Or.inl rfl, fun _ _ _ _ => rfl⟩, rfl, fun _ => rfl⟩
  · have used := not_unused_of_running here.run
    obtain ⟨hr, -, maps⟩ := mapsFrame_of_spaces spaces used
    rw [here.satp] at h
    obtain ⟨va, allowed, only⟩ := store_user maps.tree hr h
    have page := userPage_of_allows allowed
    refine ⟨⟨only.next, only.allocable, rfl, fun _ => Or.inl rfl, ?_⟩, ?_, fun _ => rfl⟩
    · intro b user _ _
      apply only.mem
      rintro rfl
      exact user page
    · apply only.mem
      intro eq
      rw [← eq] at page
      exact spaces.trapframe_private used page

theorem Steady.user (st : Steady K L kernel V m) {x : Context} {pm : Pmem}
    (mode : m.hart.mode = .user)
    (store : pm = m.kernel.pm ∨
      ∃ va v, mmu.store (m.hart.csr .satp) .user m.kernel.pm va v = some pm) :
    Steady K L kernel (Function.update V m.cur x)
      { m.setPm pm with hart := { m.hart with reg := x.reg, pc := x.pc } } := by
  have here := (st.inUser mode).1
  have serves := user_serves st.spaces here store
  have word : ∀ off, frameWord pm m.tf off = frameWord m.kernel.pm m.tf off :=
    fun off => frameWord_of_same serves.tf
  refine ⟨spaces_of_between st.spaces serves.between here.run, ?_, Or.inr ⟨?_, ?_⟩⟩
  · intro j used hj
    have other : j ≠ m.cur := hj mode
    rw [Function.update_of_ne other, ← st.saved j used fun _ => other]
    exact serves.frames_eq st.spaces (not_unused_of_running here.run) used
  · exact ⟨here.run, mode, here.satp, here.sscratch, here.stvec, (word _).trans here.kernelSatp,
      (word _).trans here.kernelSp, (word _).trans here.kernelTrap, (word _).trans here.kernelHartid⟩
  · change x = Function.update V m.cur x m.cur
    rw [Function.update_self]

/-- A call that keeps the slot. -/
theorem frames_of_call (spaces : Spaces L kernel s) {l : Label} (step : Proc.Step L kernel s l s')
    (call : ∀ i, l ≠ .other i) (before : (s.proc j).state ≠ .unused)
    (used : (s'.proc j).state ≠ .unused) : frames s' j = frames s j := by
  rw [frames, (spaces.fields_kept step before used).1, frames]
  exact frameContext_of_same (spaces.frame_kept step call before used)

theorem Steady.call (st : Steady K L kernel V m) {l : Label} (mode : m.hart.mode = .supervisor)
    (hart : InKernel K h) (by' : Label.By m.cur l) (step : Proc.Step L kernel m.kernel l s)
    (loc : Fin NPROC → Loc) :
    Steady K L kernel ((Event.call l).after m V) { m with hart := h, kernel := s, loc := loc } := by
  have call : ∀ i, l ≠ .other i := by
    rintro i rfl
    exact by'
  have kept : ∀ j, (m.kernel.proc j).state ≠ .unused → (s.proc j).state ≠ .unused →
      frames s j = V j := by
    intro j before used
    rw [frames_of_call st.spaces step call before used]
    exact st.kernel_frames mode before
  refine ⟨st.spaces.step step, ?_, Or.inl hart⟩
  intro j used _
  change frames s j = _
  by_cases fork : ∃ i ret, l = .fork i ret
  · obtain ⟨i, ret, rfl⟩ := fork
    obtain rfl : i = m.cur := by'
    obtain ⟨free, own⟩ := st.spaces.owned
    cases step with
    | fork run hr =>
      rcases procFork_ok own (not_unused_of_running run) hr with
        ⟨full, -, rfl⟩ | ⟨-, c, tf, r, free', forked⟩
      · simp only [Event.after, full, Option.elim_none]
        exact kept j used used
      · simp only [Event.after, forked.slot, Option.elim_some]
        by_cases hjc : j = c
        · rw [hjc, Function.update_self, ← st.kernel_frames mode (not_unused_of_running run)]
          exact frameContext_child forked
        · rw [Function.update_of_ne hjc]
          refine kept j ?_ used
          rw [forked.proc, Function.update_of_ne hjc] at used
          exact used
  · have hl : ∀ i ret, l ≠ .fork i ret := fun i ret eq => fork ⟨i, ret, eq⟩
    have same : (Event.call l).after m V = V := by
      cases l <;> first | rfl | exact absurd rfl (hl _ _)
    rw [same]
    exact kept j (st.spaces.used_before step hl used) used

theorem Steady.step (st : Steady K L kernel V m) (h : Step K L kernel m e m') :
    Steady K L kernel (e.after m V) m' := by
  cases h with
  | user mode store => exact st.user mode store
  | @trap _ cause tval mode enter =>
    obtain ⟨here, context⟩ := st.inUser mode
    obtain ⟨m₁, h₁, w, inside, -, own, -⟩ :=
      userTrap_enters cause tval st.spaces here
    cases h₁.symm.trans enter
    refine st.frameOnly V here.run w (fun _ _ => rfl) ?_ inside
    have same : (m'.kernel.proc m.cur).tf = m.tf := by
      rw [w.kernel]
      rfl
    rw [frames, same, own, context]
  | ecall scratch run loc alive =>
    refine st.frameOnly _ run ⟨rfl, rfl, (OnlyPage.refl _ _).setFrame⟩
      (fun _ hj => Function.update_of_ne hj ..) ?_ (st.scratch scratch)
    have before : frameContext m.kernel.pm m.tf = V m.cur :=
      st.kernel_frames scratch.mode (not_unused_of_running run)
    simp only [Event.after, Function.update_self]
    rw [← before]
    exact frameContext_setFrame_epc
  | call scratch run loc by' step => exact st.call scratch.mode (st.scratch scratch) by' step _
  | @exit h status s scratch run why step =>
    have step' : Proc.Step L kernel m.kernel (.exit m.cur status) s := .exit run step
    refine st.kernelStep (V := V) scratch (st.spaces.step step') fun j used => ?_
    have before := st.spaces.used_before step' (by simp) used
    exact ⟨before, frames_of_call st.spaces step' (by simp) before used⟩
  | @serve h s scratch run serves =>
    have spaces := spaces_of_between st.spaces serves.between run
    refine st.kernelStep (V := V) scratch spaces fun j used => ?_
    have before : (m.kernel.proc j).state ≠ .unused :=
      fun unused => used ((serves.between.sameSpace j).state.mpr unused)
    exact ⟨before, serves.frames_eq st.spaces (not_unused_of_running run) before⟩
  | result scratch run loc =>
    refine st.frameOnly _ run ⟨rfl, rfl, (OnlyPage.refl _ _).setFrame⟩
      (fun _ hj => Function.update_of_ne hj ..) ?_ (st.scratch scratch)
    have before : frameContext m.kernel.pm m.tf = V m.cur :=
      st.kernel_frames scratch.mode (not_unused_of_running run)
    simp only [Event.after, Function.update_self]
    rw [← before]
    exact frameContext_setFrame_reg .a0
  | handled scratch run loc known =>
    exact st.kernelStep (V := V) scratch st.spaces fun j used => ⟨used, rfl⟩
  | check scratch run loc alive =>
    exact st.kernelStep (V := V) scratch st.spaces fun j used => ⟨used, rfl⟩
  | @switch h i scratch ready =>
    have step : Proc.Step L kernel m.kernel (.other i) (m.kernel.dispatch i) :=
      step_dispatch (Or.inl ready)
    refine st.kernelStep (V := V) scratch (st.spaces.step step) fun j used => ?_
    have before := st.spaces.used_before step (by simp) used
    have same := (st.spaces.fields_kept step before used).1
    refine ⟨before, ?_⟩
    rw [frames, frames, same]
    rfl
  | ret mode run loc back =>
    obtain ⟨m₁, h₁, w, here, context, -, -⟩ := userRet_leaves st.spaces (st.inKernel mode) run
    cases h₁.symm.trans back
    have used := not_unused_of_running run
    refine ⟨spaces_of_between st.spaces w.between run, ?_, Or.inr ⟨here, ?_⟩⟩
    · intro j used' hj
      have other := hj here.mode
      rw [w.cur] at other
      have before : (m.kernel.proc j).state ≠ .unused := by
        rw [w.kernel] at used'
        exact used'
      rw [frames_of_between st.spaces w.between used other before]
      exact st.kernel_frames mode before
    · rw [context, w.cur]
      exact st.kernel_frames mode used

/-- The scheduler has everything in the trapframes. -/
theorem Started.steady (start : Started K s m) (spaces : Spaces L kernel s) :
    Steady K L kernel (frames m.kernel) m := by
  refine ⟨?_, fun _ _ _ => rfl, Or.inl start.inside⟩
  rw [start.kernel]
  exact spaces

theorem Steady.run {tr : List (Event × Machine)} (st : Steady K L kernel V m)
    (h : Along (Step K L kernel) m tr) : Steady K L kernel (contexts m V tr) (final m tr) := by
  induction tr generalizing m V with
  | nil => exact st
  | cons step tr ih => exact ih (st.step h.1) h.2

theorem Scratch.refl (mode : h.mode = .supervisor) : Scratch h h := ⟨mode, mode, rfl, rfl⟩

/-- A process that has not been killed gets into `syscall` by an ecall. -/
theorem Steady.calling (st : Steady K L kernel V m) (user : m.hart.mode = .user)
    (alive : (m.kernel.proc m.cur).killed = false) :
    ∃ m₁ m₂, Step K L kernel m (.trap 8) m₁ ∧ Step K L kernel m₁ .ecall m₂ ∧ m₁.cur = m.cur ∧
      m₂.cur = m.cur ∧ m₂.kernel.proc = m.kernel.proc ∧ m₂.loc m.cur = .calling ∧
      m₂.hart.mode = .supervisor := by
  obtain ⟨here, -⟩ := st.inUser user
  obtain ⟨m₁, enter, w, inside, -, -, loc₁⟩ := userTrap_enters 8 0 st.spaces here
  have proc₁ : m₁.kernel.proc m₁.cur = m.kernel.proc m.cur := by rw [w.kernel, w.cur]
  have run₁ : (m₁.kernel.proc m₁.cur).state = .running := by rw [proc₁, here.run]
  have alive₁ : (m₁.kernel.proc m₁.cur).killed = false := by rw [proc₁, alive]
  have here₁ : m₁.loc m₁.cur = .entered 8 := by rw [loc₁, w.cur, Function.update_self]
  let m₂ : Machine := { (m₁.setPm (setFrame m₁.kernel.pm m₁.tf EPC
    (frameWord m₁.kernel.pm m₁.tf EPC + 4))).setLoc .calling with hart := m₁.hart }
  have proc₂ : m₂.kernel.proc = m.kernel.proc := by
    change m₁.kernel.proc = _
    rw [w.kernel]
  have loc₂ : m₂.loc m.cur = .calling := by
    rw [← w.cur]
    exact Function.update_self ..
  exact ⟨m₁, m₂, .trap user enter, .ecall (.refl inside.mode) run₁ here₁ alive₁, w.cur, w.cur, proc₂,
    loc₂, inside.mode⟩

/-- A system call that gives `v` changes a0, and the process goes on behind its ecall. -/
theorem Steady.syscall (st : Steady K L kernel V m) (user : m.hart.mode = .user)
    (alive : (m.kernel.proc m.cur).killed = false) (v : Word) :
    ∃ tr, Along (Step K L kernel) m tr ∧ (final m tr).hart.mode = .user ∧
      contextOf (final m tr).hart = { (contextOf m.hart).setReg .a0 v with pc := m.hart.pc + 4 } := by
  obtain ⟨here, context⟩ := st.inUser user
  obtain ⟨m₁, m₂, step₁, step₂, cur₁, cur₂, proc₂, loc₂, mode₂⟩ := st.calling user alive
  rw [← cur₂] at loc₂
  have run₂ : (m₂.kernel.proc m₂.cur).state = .running := by rw [proc₂, cur₂, here.run]
  have alive₂ : (m₂.kernel.proc m₂.cur).killed = false := by rw [proc₂, cur₂, alive]
  have same : Scratch m₂.hart m₂.hart := .refl mode₂
  let m₃ : Machine := { (m₂.setPm (setFrame m₂.kernel.pm m₂.tf A0 v)).setLoc .handled with
    hart := m₂.hart }
  have step₃ : Step K L kernel m₂ (.result v) m₃ := .result same run₂ loc₂
  have loc₃ : m₃.loc m₃.cur = .handled := Function.update_self ..
  let m₄ : Machine := { m₃.setLoc .leaving with hart := m₂.hart }
  have step₄ : Step K L kernel m₃ .check m₄ := .check same run₂ loc₃ alive₂
  have loc₄ : m₄.loc m₄.cur = .leaving := Function.update_self ..
  have st₄ := (((st.step step₁).step step₂).step step₃).step step₄
  obtain ⟨m₅, back, w₅, user₅, -⟩ := userRet_leaves st₄.spaces (st₄.inKernel mode₂) run₂
  have step₅ : Step K L kernel m₄ .ret m₅ := .ret mode₂ run₂ loc₄ back
  refine ⟨[(.trap 8, m₁), (.ecall, m₂), (.result v, m₃), (.check, m₄), (.ret, m₅)],
    ⟨step₁, step₂, step₃, step₄, step₅, trivial⟩, user₅.mode, ?_⟩
  have cur₅ : m₅.cur = m.cur := w₅.cur.trans cur₂
  change contextOf m₅.hart = _
  rw [((st₄.step step₅).inUser user₅.mode).2, cur₅, context]
  simp only [Event.after, cur₁, cur₂, Function.update_self, Context.setReg]
  rw [← context]
  rfl

end Run

section Boot

variable {taken : List Page} {code : ℕ → UInt8} {memory : ℕ → Page} {pages : List ℕ} {s₀ : Kernel}
  {m₀ : Machine} {tr : List (Event × Machine)}

theorem steady_of_boot (hboot : (boot L taken code).run (powerOn memory) = .ok pages s₀)
    (start : Started K s₀ m₀) (run : Along (Step K L pages) m₀ tr) :
    Steady K L pages (contexts m₀ (frames m₀.kernel) tr) (final m₀ tr) :=
  (start.steady (boot_spaces hboot)).run run

/-- Addresses that a linker may give. -/
def exampleSymbols : Symbols where
  userVector := BitVec.ofNat 64 TRAMPOLINE
  kernelVector := 0x80002000
  trapUserHandler := 0x80003000
  kernelSatp := MAKE_SATP 0x87fff000
  hartid := 0

/-- The first process gets the hart, and gets to user mode. -/
theorem user_after_boot (K : Symbols) (code : ℕ → UInt8) (memory : ℕ → Page)
    (room : 12 ≤ (PHYSTOP - L.allocBegin) / PGSIZE) :
    ∃ pages s₀ m₀ m₁ m₂, (boot L [] code).run (powerOn memory) = .ok pages s₀ ∧ Started K s₀ m₀ ∧
      m₀.cur ≠ proczero ∧ Step K L pages m₀ (.switch proczero) m₁ ∧ m₁.cur = proczero ∧
      m₁.kernel = s₀.dispatch proczero ∧ Step K L pages m₁ .ret m₂ ∧ FrameOnly m₁ m₂ ∧
      m₂.hart.mode = .user := by
  obtain ⟨pages, s₀, hboot, -⟩ := boot_returns L memory [] code (by simpa using room)
  obtain ⟨-, -, -, tf, r, proc, -⟩ := boot_ok hboot
  have ready : (s₀.proc proczero).state = .runnable := by rw [proc, Function.update_self]
  let hart : Hart := {
    reg := Function.update (fun _ => 0) .tp K.hartid
    csr := Function.update (fun _ => 0) .satp K.kernelSatp
    pc := 0
    mode := .supervisor }
  let m₀ : Machine := ⟨hart, s₀, 1, fun _ => .leaving⟩
  have satp : hart.csr .satp = K.kernelSatp := by simp [hart]
  have tp : hart.reg .tp = K.hartid := by simp [hart]
  have start : Started K s₀ m₀ := ⟨rfl, ⟨rfl, satp, tp⟩, fun _ => rfl⟩
  let m₁ : Machine := ⟨hart, s₀.dispatch proczero, proczero, fun _ => .leaving⟩
  have step₁ : Step K L pages m₀ (.switch proczero) m₁ := .switch (.refl rfl) ready
  have st₁ := (start.steady (boot_spaces hboot)).step step₁
  have run₁ : (m₁.kernel.proc m₁.cur).state = .running :=
    congrArg ProcT.state (dispatch_self s₀ proczero)
  obtain ⟨m₂, back, w, here, -⟩ := userRet_leaves st₁.spaces (st₁.inKernel rfl) run₁
  have step₂ : Step K L pages m₁ .ret m₂ := .ret rfl run₁ rfl back
  have other : (1 : Fin NPROC) ≠ proczero := by decide
  exact ⟨pages, s₀, m₀, m₁, m₂, hboot, start, other, step₁, rfl, rfl, step₂, w, here.mode⟩

/-- There it makes a system call that gives `v`. -/
theorem syscall_after_boot (K : Symbols) (code : ℕ → UInt8) (memory : ℕ → Page) (v : Word)
    (room : 12 ≤ (PHYSTOP - L.allocBegin) / PGSIZE) :
    ∃ pages s₀ m₀ tr, (boot L [] code).run (powerOn memory) = .ok pages s₀ ∧ Started K s₀ m₀ ∧
      Along (Step K L pages) m₀ tr ∧ (final m₀ tr).hart.mode = .user ∧
      (contextOf (final m₀ tr).hart).reg .a0 = v := by
  obtain ⟨pages, s₀, m₀, m₁, m₂, hboot, start, -, step₁, cur, dispatched, step₂, w, user⟩ :=
    user_after_boot (L := L) K code memory room
  obtain ⟨-, -, -, tf, r, proc, -⟩ := boot_ok hboot
  have alive : (m₂.kernel.proc m₂.cur).killed = false := by
    rw [w.kernel, w.cur, cur, dispatched]
    change ((s₀.dispatch proczero).proc proczero).killed = false
    rw [dispatch_self, proc, Function.update_self]
    rfl
  have st₂ := ((start.steady (boot_spaces hboot)).step step₁).step step₂
  obtain ⟨tr, run, user', context⟩ := st₂.syscall user alive v
  refine ⟨pages, s₀, m₀, (.switch proczero, m₁) :: (.ret, m₂) :: tr, hboot, start,
    ⟨step₁, step₂, run⟩, user', ?_⟩
  change (contextOf (final m₂ tr).hart).reg .a0 = v
  simp [context, Context.setReg]

/-- After any run a process in user mode has the registers that it would have with a hart to
    itself, and so have, in their trapframes, all that are in the kernel or wait. -/
theorem contexts_restored (hboot : (boot L taken code).run (powerOn memory) = .ok pages s₀)
    (start : Started K s₀ m₀) (run : Along (Step K L pages) m₀ tr) (hm : final m₀ tr = m) :
    (m.hart.mode = .user → contextOf m.hart = contexts m₀ (frames m₀.kernel) tr m.cur) ∧
      ∀ i, (m.kernel.proc i).state ≠ .unused → (m.hart.mode = .user → i ≠ m.cur) →
        frames m.kernel i = contexts m₀ (frames m₀.kernel) tr i := by
  have steady := steady_of_boot hboot start run
  rw [hm] at steady
  exact ⟨fun user => (steady.inUser user).2, steady.saved⟩

theorem contexts_restored_boot : ∃ pages s₀ m₀ tr,
    (boot exampleLayout [] fun _ => 0).run (powerOn fun _ => Bytes.zero) = .ok pages s₀ ∧
      Started exampleSymbols s₀ m₀ ∧ Along (Step exampleSymbols exampleLayout pages) m₀ tr ∧
      (final m₀ tr).hart.mode = .user ∧
      contextOf (final m₀ tr).hart = contexts m₀ (frames m₀.kernel) tr (final m₀ tr).cur ∧
      (contexts m₀ (frames m₀.kernel) tr (final m₀ tr).cur).reg .a0 = 3 := by
  obtain ⟨pages, s₀, m₀, tr, hboot, start, run, user, a0⟩ :=
    syscall_after_boot (L := exampleLayout) exampleSymbols (fun _ => 0) (fun _ => Bytes.zero) 3
      (by decide)
  have same := (contexts_restored hboot start run rfl).1 user
  exact ⟨pages, s₀, m₀, tr, hboot, start, run, user, same, by rw [← same, a0]⟩

/-- No trap from user mode fails on its way to the kernel, and no return on its way back. -/
theorem traps_pass (hboot : (boot L taken code).run (powerOn memory) = .ok pages s₀)
    (start : Started K s₀ m₀) (run : Along (Step K L pages) m₀ tr) (hm : final m₀ tr = m) :
    (m.hart.mode = .user → ∀ cause tval, ∃ m', userTrap K cause tval m = some m' ∧
      InKernel K m'.hart ∧ m'.hart.reg .sp = BitVec.ofNat 64 (KSTACK m.cur + PGSIZE) ∧
      frames m'.kernel m'.cur = contextOf m.hart) ∧
    (m.hart.mode = .supervisor → (m.kernel.proc m.cur).state = .running → ∃ m', userRet K m = some m' ∧
      m'.hart.mode = .user ∧ m'.hart.csr .satp = MAKE_SATP (m.kernel.proc m.cur).pgtbl ∧
      contextOf m'.hart = frames m.kernel m.cur) := by
  have steady := steady_of_boot hboot start run
  rw [hm] at steady
  constructor
  · intro user cause tval
    obtain ⟨m', h, w, inside, sp, own, -⟩ :=
      userTrap_enters cause tval steady.spaces (steady.inUser user).1
    refine ⟨m', h, inside, sp, ?_⟩
    rw [frames, w.cur, w.kernel]
    exact own
  · intro mode running
    obtain ⟨m', h, w, here, context, -⟩ := userRet_leaves steady.spaces (steady.inKernel mode) running
    refine ⟨m', h, here.mode, ?_, context⟩
    rw [here.satp, w.cur, w.kernel]

theorem traps_pass_boot : ∃ pages s₀ m₀ tr m',
    (boot exampleLayout [] fun _ => 0).run (powerOn fun _ => Bytes.zero) = .ok pages s₀ ∧
      Started exampleSymbols s₀ m₀ ∧ Along (Step exampleSymbols exampleLayout pages) m₀ tr ∧
      userTrap exampleSymbols 13 0 (final m₀ tr) = some m' ∧ InKernel exampleSymbols m'.hart := by
  obtain ⟨pages, s₀, m₀, tr, hboot, start, run, user, -⟩ :=
    syscall_after_boot (L := exampleLayout) exampleSymbols (fun _ => 0) (fun _ => Bytes.zero) 3
      (by decide)
  obtain ⟨m', enter, inside, -⟩ := (traps_pass hboot start run rfl).1 user 13 0
  exact ⟨pages, s₀, m₀, tr, m', hboot, start, run, enter, inside⟩

end Boot

end EasyXv6.Trap
