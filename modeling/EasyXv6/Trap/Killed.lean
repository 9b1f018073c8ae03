import EasyXv6.Trap.Isolation

set_option autoImplicit false

/-!
# What a killed process can still do (trap_user.c)

`proc_kill` only sets a flag. The process looks at it before a system call and on its way back to
user mode, and exits.
-/
namespace EasyXv6.Trap
open Lib Rv64 Mem Proc Radix

/-- Between user mode and the kernel, in one direction or the other. -/
def Event.crosses : Event → Bool
  | .trap _ => true
  | .ret => true
  | _ => false

/-- How often a killed process can still cross. -/
def Loc.crossings : Loc → ℕ
  | .leaving => 2
  | .user => 1
  | _ => 0

/-- What `i` does in a run. -/
def deeds (i : Fin NPROC) : Machine → List (Event × Machine) → List Event
  | _, [] => []
  | m, (e, m') :: tr => if m.cur = i then e :: deeds i m' tr else deeds i m' tr

/-- What is left to a killed process that is at `l`. -/
structure Dying (l : Loc) (es : List Event) : Prop where
  ecall : Event.ecall ∉ es
  check : Event.check ∉ es
  crossings : es.countP Event.crosses ≤ l.crossings
  user : ∀ x, Event.user x ∈ es → 0 < l.crossings
  call : ∀ c, Event.call c ∈ es → l = .calling
  exit : ∀ st, Event.exit st ∈ es → l = .calling ∨ st = -1

/-- A step that leads a killed process from `l` to `l'`. -/
structure Dies (l : Loc) (e : Event) (l' : Loc) : Prop where
  ecall : e ≠ .ecall
  check : e ≠ .check
  crossings : [e].countP Event.crosses + l'.crossings ≤ l.crossings
  user : ∀ x, e = .user x → 0 < l.crossings
  calling : l' = .calling → l = .calling
  call : ∀ c, e = .call c → l = .calling
  exit : ∀ st, e = .exit st → l = .calling ∨ st = -1

/-- The hart runs user code only for a process that is there. -/
def InPlace (m : Machine) : Prop := m.hart.mode = .user → m.loc m.cur = .user

variable {K : Symbols} {L : Layout} {kernel : Multiset ℕ} {V : Fin NPROC → Context}
  {m m' : Machine} {e : Event} {i j : Fin NPROC} {s s' : Kernel} {l l' : Loc} {es : List Event}

section Dying

theorem Dying.nil : Dying l [] :=
  ⟨by simp, by simp, Nat.zero_le _, by simp, by simp, by simp⟩

theorem Dying.cons (first : Dies l e l') (rest : Dying l' es) : Dying l (e :: es) := by
  refine ⟨?_, ?_, ?_, ?_, ?_, ?_⟩
  · simp [first.ecall.symm, rest.ecall]
  · simp [first.check.symm, rest.check]
  · have here := first.crossings
    have later := rest.crossings
    rw [← List.singleton_append, List.countP_append]
    omega
  · intro x mem
    rcases List.mem_cons.mp mem with here | later
    · exact first.user x here.symm
    · have := first.crossings
      have := rest.user x later
      omega
  · intro c mem
    rcases List.mem_cons.mp mem with here | later
    · exact first.call c here.symm
    · exact first.calling (rest.call c later)
  · intro st mem
    rcases List.mem_cons.mp mem with here | later
    · exact first.exit st here.symm
    · exact (rest.exit st later).imp_left first.calling

end Dying

section Step

theorem born_of_used {c : Label} {loc : Fin NPROC → Loc} (used : (s.proc i).state ≠ .unused) :
    born s c loc i = loc i := by
  unfold born
  cases c with
  | fork k ret =>
    cases slot : firstUnused s.proc with
    | none => rfl
    | some child =>
      refine Function.update_of_ne ?_ ..
      rintro rfl
      exact used (firstUnused_state slot)
  | _ => rfl

theorem dispatch_killed (s : Kernel) (i j : Fin NPROC) :
    ((s.dispatch i).proc j).killed = (s.proc j).killed := by
  unfold Kernel.dispatch
  dsimp only
  split_ifs <;> rfl

theorem InPlace.step (st : Steady K L kernel V m) (place : InPlace m)
    (h : Step K L kernel m e m') : InPlace m' := by
  cases h with
  | user mode store => exact place
  | trap mode enter =>
    intro user
    cases (st.trapped mode enter).2.1.symm.trans user
  | ecall scratch | call scratch | exit scratch | serve scratch | result scratch
  | handled scratch | check scratch | switch scratch =>
    intro user
    cases scratch.mode'.symm.trans user
  | ret mode run loc back =>
    obtain ⟨w, -, there⟩ := st.returned mode run back
    intro _
    rw [there, w.cur, Function.update_self]

/-- A process that does not have the hart stays where it is. -/
theorem Steady.loc_kept (st : Steady K L kernel V m) (h : Step K L kernel m e m')
    (used : (m.kernel.proc i).state ≠ .unused) (other : m.cur ≠ i) : m'.loc i = m.loc i := by
  have apart : i ≠ m.cur := other.symm
  cases h with
  | trap mode enter => rw [(st.trapped mode enter).2.2, Function.update_of_ne apart]
  | ret mode run loc back => rw [(st.returned mode run back).2.2, Function.update_of_ne apart]
  | call => exact born_of_used used
  | user | exit | serve | switch => rfl
  | ecall | result | handled | check => exact Function.update_of_ne apart ..

/-- Nothing takes back that a process has been killed. -/
theorem Steady.killed_kept (st : Steady K L kernel V m) (h : Step K L kernel m e m')
    (used : (m.kernel.proc i).state ≠ .unused) (stays : (m'.kernel.proc i).state ≠ .unused)
    (killed : (m.kernel.proc i).killed = true) : (m'.kernel.proc i).killed = true := by
  cases h with
  | trap mode enter =>
    rw [(st.trapped mode enter).1.kernel]
    exact killed
  | ret mode run loc back =>
    rw [(st.returned mode run back).1.kernel]
    exact killed
  | call scratch run loc by' step =>
    refine st.spaces.killed_kept step ?_ used stays killed
    rintro k rfl
    exact by'
  | exit scratch run why step => exact st.spaces.killed_kept (.exit run step) (by simp) used stays killed
  | serve scratch run serves =>
    rw [← killed]
    exact serves.killed i
  | switch scratch ready => rw [dispatch_killed, killed]
  | user | ecall | result | handled | check => exact killed

/-- What a killed process does when it has the hart. -/
theorem Steady.dies (st : Steady K L kernel V m) (place : InPlace m) (h : Step K L kernel m e m')
    (killed : (m.kernel.proc m.cur).killed = true) : Dies (m.loc m.cur) e (m'.loc m.cur) := by
  cases h with
  | user mode store =>
    change Dies (m.loc m.cur) _ (m.loc m.cur)
    rw [place mode]
    constructor <;> simp [Event.crosses, Loc.crossings]
  | trap mode enter =>
    rw [(st.trapped mode enter).2.2, Function.update_self, place mode]
    constructor <;> simp [Event.crosses, Loc.crossings]
  | ecall scratch run loc alive => cases killed.symm.trans alive
  | check scratch run loc alive => cases killed.symm.trans alive
  | call scratch run loc by' step =>
    change Dies _ _ (born _ _ m.loc m.cur)
    rw [born_of_used (not_unused_of_running run), loc]
    constructor <;> simp [Event.crosses]
  | exit scratch run why step =>
    refine ⟨by simp, by simp, by simp [Event.crosses], by simp, id, by simp, ?_⟩
    rintro _ ⟨⟩
    exact why.imp_right fun here => here.2.1
  | serve scratch run serves => constructor <;> simp [Event.crosses]
  | switch scratch ready => constructor <;> simp [Event.crosses]
  | result scratch run loc =>
    change Dies _ _ (Function.update m.loc m.cur .handled m.cur)
    rw [Function.update_self]
    constructor <;> simp [Event.crosses, Loc.crossings]
  | handled scratch run loc known =>
    change Dies _ _ (Function.update m.loc m.cur .handled m.cur)
    rw [Function.update_self]
    constructor <;> simp [Event.crosses, Loc.crossings]
  | ret mode run loc back =>
    rw [(st.returned mode run back).2.2, Function.update_self, loc]
    constructor <;> simp [Event.crosses, Loc.crossings]

/-- Once the flag is set the process does only what is left to it, until its slot is freed. -/
theorem Steady.dying {tr : List (Event × Machine)} (st : Steady K L kernel V m) (place : InPlace m)
    (run : Along (Step K L kernel) m tr) (used : (m.kernel.proc i).state ≠ .unused)
    (stays : ∀ x ∈ tr, (x.2.kernel.proc i).state ≠ .unused)
    (killed : (m.kernel.proc i).killed = true) : Dying (m.loc i) (deeds i m tr) := by
  induction tr generalizing m V with
  | nil => exact .nil
  | cons x tr ih =>
    obtain ⟨first, later⟩ := List.forall_mem_cons.mp stays
    have rest : Dying (x.2.loc i) (deeds i x.2 tr) :=
      ih (st.step run.1) (place.step st run.1) run.2 first later
        (st.killed_kept run.1 used first killed)
    unfold deeds
    split_ifs with here
    · subst here
      exact .cons (st.dies place run.1 killed) rest
    · rw [← st.loc_kept run.1 used here]
      exact rest

end Step

section Boot

variable {taken : List Page} {code : ℕ → UInt8} {memory : ℕ → Page} {pages : List ℕ} {s₀ : Kernel}
  {m₀ : Machine} {tr tr' : List (Event × Machine)}

theorem Started.inPlace (start : Started K s m) : InPlace m := by
  intro user
  cases start.inside.mode.symm.trans user

theorem InPlace.run (st : Steady K L kernel V m) (place : InPlace m)
    (run : Along (Step K L kernel) m tr) : InPlace (final m tr) := by
  induction tr generalizing m V with
  | nil => exact place
  | cons x tr ih => exact ih (st.step run.1) (place.step st run.1) run.2

/-- A process that has been killed makes no system call any more and does not pass the test on the
    way to user mode: in the kernel it can only exit, with -1 unless it is in a system call. -/
theorem killed_dies (hboot : (boot L taken code).run (powerOn memory) = .ok pages s₀)
    (start : Started K s₀ m₀) (run : Along (Step K L pages) m₀ tr) (hm : final m₀ tr = m)
    (used : (m.kernel.proc i).state ≠ .unused) (killed : (m.kernel.proc i).killed = true)
    (run' : Along (Step K L pages) m tr')
    (stays : ∀ x ∈ tr', (x.2.kernel.proc i).state ≠ .unused) :
    Dying (m.loc i) (deeds i m tr') := by
  have steady := steady_of_boot hboot start run
  have place := start.inPlace.run (start.steady (boot_spaces hboot)) run
  rw [hm] at steady place
  exact steady.dying place run' used stays killed

theorem killed_dies_boot : ∃ pages s₀ m₀ tr tr',
    (boot exampleLayout [] fun _ => 0).run (powerOn fun _ => Bytes.zero) = .ok pages s₀ ∧
      Started exampleSymbols s₀ m₀ ∧ Along (Step exampleSymbols exampleLayout pages) m₀ tr ∧
      ((final m₀ tr).kernel.proc proczero).killed = true ∧ tr' ≠ [] ∧
      Along (Step exampleSymbols exampleLayout pages) (final m₀ tr) tr' ∧
      Dying ((final m₀ tr).loc proczero) (deeds proczero (final m₀ tr) tr') := by
  obtain ⟨pages, s₀, m₀, m₁, m₂, hboot, start, -, step₁, cur₁, dispatched, step₂, w, user⟩ :=
    user_after_boot (L := exampleLayout) exampleSymbols (fun _ => 0) (fun _ => Bytes.zero) (by decide)
  obtain ⟨-, -, -, tf, r, proc, -⟩ := boot_ok hboot
  have cur₂ : m₂.cur = proczero := w.cur.trans cur₁
  have proc₂ : m₂.kernel.proc = (s₀.dispatch proczero).proc := by rw [w.kernel, dispatched]
  have alive : (m₂.kernel.proc m₂.cur).killed = false := by
    rw [proc₂, cur₂, dispatch_killed, proc, Function.update_self]
    rfl
  have st₂ := ((start.steady (boot_spaces hboot)).step step₁).step step₂
  obtain ⟨m₃, m₄, step₃, step₄, -, cur₄, proc₄, loc₄, mode₄⟩ := st₂.calling user alive
  rw [cur₂] at cur₄ loc₄
  have first : m₄.kernel.proc proczero = (s₀.dispatch proczero).proc proczero := by rw [proc₄, proc₂]
  have running : (m₄.kernel.proc proczero).state = .running := by rw [first, dispatch_self]
  have pid : (m₄.kernel.proc proczero).pid = 0 := by
    rw [first, dispatch_self, proc, Function.update_self]
  have hit : firstPid m₄.kernel.proc 0 = some proczero := by
    change List.find? _ (proczero :: (List.finRange NPROC).drop 1) = some proczero
    rw [List.find?_cons_of_pos (by simpa using pid)]
  let s₅ := m₄.kernel.setProc proczero { m₄.kernel.proc proczero with killed := true }
  have kill : (procKill 0).run m₄.kernel = .ok 0 s₅ := by
    unfold procKill
    rw [Comp.bind_get_run, hit]
    simp [setProc, Comp.bind_modify_run, Comp.run_pure, running, s₅]
  have proc₅ : s₅.proc proczero = { m₄.kernel.proc proczero with killed := true } := by
    simp [s₅, Kernel.setProc]
  let m₅ : Machine := { m₄ with kernel := s₅ }
  have same : Scratch m₄.hart m₄.hart := .refl mode₄
  have step₅ : Step exampleSymbols exampleLayout pages m₄ (.call (.kill 0 0)) m₅ :=
    .call same (by rw [cur₄, running]) (by rw [cur₄, loc₄]) trivial (.kill kill)
  let m₆ : Machine := { (m₅.setPm (setFrame s₅.pm m₅.tf A0 0)).setLoc .handled with hart := m₄.hart }
  have running₅ : (m₅.kernel.proc m₅.cur).state = .running := by
    change (s₅.proc m₄.cur).state = .running
    rw [cur₄, proc₅, running]
  have step₆ : Step exampleSymbols exampleLayout pages m₅ (.result 0) m₆ :=
    .result same running₅ (by rw [← loc₄, ← cur₄])
  have used : (s₅.proc proczero).state ≠ .unused := by simp [proc₅, running]
  have run : Along (Step exampleSymbols exampleLayout pages) m₀ [(.switch proczero, m₁), (.ret, m₂),
      (.trap 8, m₃), (.ecall, m₄), (.call (.kill 0 0), m₅)] :=
    ⟨step₁, step₂, step₃, step₄, step₅, trivial⟩
  have killed : (m₅.kernel.proc proczero).killed = true := congrArg ProcT.killed proc₅
  have run' : Along (Step exampleSymbols exampleLayout pages) m₅ [(.result 0, m₆)] := ⟨step₆, trivial⟩
  exact ⟨pages, s₀, m₀, _, [(.result 0, m₆)], hboot, start, run, killed, by simp, run',
    killed_dies hboot start run rfl used killed run' (List.forall_mem_singleton.mpr used)⟩

end Boot

end EasyXv6.Trap
