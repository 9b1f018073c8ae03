import EasyXv6.Lib.Trace
import EasyXv6.Proc.Priority
import EasyXv6.Proc.Wakeup

set_option autoImplicit false

/-!
# Timed sleep (sysfunc.c, trap_kernel.c, timer.c)

The timer lock is taken and given back inside a critical section, so it is free between any two
steps. Interrupts are off in the handler of the timer interrupt, which is one step.
-/
namespace EasyXv6.Proc
open Lib

/-- `&timer_get()->ticks` -/
abbrev TICKS : Chan := .addr 0

/-- The local variables of a call of `sys_sleep`. -/
structure SleepCall where
  ticks0 : BitVec 64
  n : BitVec 32

/-- The condition of the loop. An `int` that is compared with a `uint64` is converted to one. -/
def SleepCall.waits (c : SleepCall) (ticks : BitVec 64) : Bool :=
  (ticks - c.ticks0).ult (c.n.signExtend 64)

/-- The ticks since the first reading. -/
def SleepCall.elapsed (c : SleepCall) (ticks : BitVec 64) : ℤ := (ticks - c.ticks0).toNat

/-- The processes, and the calls of `sys_sleep` that have not returned. -/
structure Clock where
  m : Machine
  ticks : BitVec 64
  call : Fin NPROC → Option SleepCall

namespace Clock

def start (ticks : BitVec 64) : Clock := ⟨.init, ticks, fun _ => none⟩

/-- `sys_sleep` from where it holds the timer lock to where it goes to sleep or returns. -/
def sleepRound (s : Clock) (i : Fin NPROC) (c : SleepCall) : Clock × Option ℤ :=
  if c.waits s.ticks then
    if (s.m.proc i).killed then ({ s with call := Function.update s.call i none }, some (-1))
    else
      ({ s with m := s.m.sleepStep i TICKS, call := Function.update s.call i (some c) }, none)
  else ({ s with call := Function.update s.call i none }, some 0)

/-- The body of the loop of `proc_wakeup`. -/
def wakeupTicks (m : Machine) (j : Fin NPROC) : Machine :=
  if m.cpu.current = some j then m else m.wakeupStep j TICKS

/-- `timer_interrupt_handler`: `timer_update`, and `proc_wakeup` with the timer lock free. -/
def timerInterruptHandler (s : Clock) : Clock :=
  { s with ticks := s.ticks + 1, m := (List.finRange NPROC).foldl wakeupTicks s.m }

/-- What can happen to a process in the middle of `sys_sleep`. -/
def Passive : Act → Prop
  | .preempt => True
  | .wakeup _ _ => True
  | _ => False

inductive Label
  | act (a : Act)
  | call (i : Fin NPROC) (n : BitVec 32) (ret : Option ℤ)
  | again (i : Fin NPROC) (c : SleepCall) (ret : Option ℤ)
  | tick

/-- A step of the scheduler or of a process outside `sys_sleep`, the first round of a call, a round
    after a wakeup, or a timer interrupt. -/
inductive Step : Clock → Label → Clock → Prop
  | act {s : Clock} {a : Act} {m : Machine} (hs : s.m.step a = some m) (chan : Machine.OtherChan a)
      (other : a ≠ .sleep TICKS)
      (outside : ∀ i, s.m.cpu = .run i → s.call i ≠ none → Passive a) :
      Step s (.act a) { s with m := m }
  | call {s : Clock} {i : Fin NPROC} {n : BitVec 32} (run : s.m.cpu = .run i)
      (loc : s.m.loc i = .other) (idle : s.call i = none) :
      Step s (.call i n (s.sleepRound i ⟨s.ticks, n⟩).2) (s.sleepRound i ⟨s.ticks, n⟩).1
  | again {s : Clock} {i : Fin NPROC} {c : SleepCall} (run : s.m.cpu = .run i)
      (loc : s.m.loc i = .other) (called : s.call i = some c) :
      Step s (.again i c (s.sleepRound i c).2) (s.sleepRound i c).1
  | tick {s : Clock} : Step s .tick s.timerInterruptHandler

/-- `p` sleeps on the tick counter. -/
def Asleep (s : Clock) (p : Fin NPROC) : Prop :=
  (s.m.proc p).state = .sleeping ∧ (s.m.proc p).sleepSpace = some TICKS

/-- Who sleeps on the tick counter is in a call whose ticks have not elapsed. -/
def Timely (s : Clock) : Prop :=
  ∀ p, s.Asleep p → ∃ c, s.call p = some c ∧ c.elapsed s.ticks < c.n.toInt

/-- What is expected of a step: a timely state after it, no return before the ticks have elapsed, and
    no sleep of a call with `n ≤ 0`. -/
def Expected (_ : Clock) (l : Label) (t : Clock) : Prop :=
  t.Timely ∧
    match l with
    | .call _ n (some ret) => ret = 0 → n.toInt ≤ 0
    | .call _ n none => 0 < n.toInt
    | .again _ c (some ret) => ret = 0 → c.n.toInt ≤ c.elapsed t.ticks
    | .again _ _ none => True
    | .act _ => True
    | .tick => True

/-- No process that has not been killed calls `sys_sleep` with a negative number. -/
def NoNegative (s : Clock) (l : Label) (_ : Clock) : Prop :=
  match l with
  | .call i n _ => n.toInt < 0 → (s.m.proc i).killed = true
  | _ => True

end Clock

section Numbers

variable {n : BitVec 32} {c : SleepCall} {ticks : BitVec 64}

theorem signExtend_of_nonneg (h : 0 ≤ n.toInt) : ((n.signExtend 64).toNat : ℤ) = n.toInt := by
  have msb : n.msb = false := by
    rw [BitVec.msb_eq_toInt]
    exact decide_eq_false (by omega)
  rw [BitVec.signExtend_eq_setWidth_of_msb_false msb, BitVec.toNat_setWidth,
    Nat.mod_eq_of_lt (by have := n.isLt; omega), BitVec.toInt_eq_toNat_of_msb msb]

theorem SleepCall.waits_iff (h : 0 ≤ c.n.toInt) : c.waits ticks = true ↔ c.elapsed ticks < c.n.toInt := by
  have := signExtend_of_nonneg h
  unfold waits elapsed
  rw [BitVec.ult_iff_lt, BitVec.lt_def]
  omega

theorem SleepCall.elapsed_nonneg (c : SleepCall) (ticks : BitVec 64) : 0 ≤ c.elapsed ticks :=
  Int.natCast_nonneg _

theorem SleepCall.elapsed_self (ticks : BitVec 64) (n : BitVec 32) :
    (SleepCall.mk ticks n).elapsed ticks = 0 := by
  simp [elapsed]

/-- Converted to a `uint64`, a negative number is not reached. -/
theorem SleepCall.waits_of_neg (h : n.toInt < 0) : (SleepCall.mk ticks n).waits ticks = true := by
  have pos : 0 < (n.signExtend 64).toNat := by
    by_contra zero
    have zero' : n.signExtend 64 = 0#64 := BitVec.eq_of_toNat_eq (by simp; omega)
    have same := congrArg BitVec.toInt zero'
    rw [BitVec.toInt_signExtend_of_le (by decide)] at same
    simp at same
    omega
  unfold waits
  rw [BitVec.ult_iff_lt, BitVec.lt_def]
  simpa using pos

/-- It returns 0 only when the ticks have elapsed, whatever its number is. -/
theorem SleepCall.le_elapsed (h : c.waits ticks = false) : c.n.toInt ≤ c.elapsed ticks := by
  by_cases neg : c.n.toInt < 0
  · have := c.elapsed_nonneg ticks
    omega
  · have done : ¬ c.waits ticks = true := by simp [h]
    rw [SleepCall.waits_iff (by omega)] at done
    omega

end Numbers

namespace Clock

section Handler

variable {m : Machine} {j k : Fin NPROC}

theorem wakeupTicks_woke (h : m.Woke) : (wakeupTicks m j).Woke := by
  unfold wakeupTicks
  split
  · exact h
  · exact h.wakeupStep TICKS

theorem wakeupTicks_ranked (h : m.Ranked) : (wakeupTicks m j).Ranked := by
  unfold wakeupTicks
  split
  · exact h
  · exact h.wakeupStep j TICKS

theorem wakeupTicks_cpu (m : Machine) (j : Fin NPROC) : (wakeupTicks m j).cpu = m.cpu := by
  unfold wakeupTicks
  split
  · rfl
  · exact Machine.wakeupStep_cpu j TICKS

theorem wakeupTicks_killed (m : Machine) (j k : Fin NPROC) :
    ((wakeupTicks m j).proc k).state = .sleeping → (m.proc k).state = .sleeping ∧
      ((wakeupTicks m j).proc k).sleepSpace = (m.proc k).sleepSpace := by
  intro hs
  unfold wakeupTicks at hs ⊢
  split at hs
  next here =>
    rw [if_pos here]
    exact ⟨hs, rfl⟩
  next here =>
    rw [if_neg here]
    rcases (Machine.wakeupStep_settles (a := .age) j k TICKS).sleep hs with same | begins
    · exact same
    · exact absurd begins id

/-- A process that is not on the CPU does not sleep on the counter after its round. -/
theorem wakeupTicks_wakes (h : m.cpu.current ≠ some j)
    (hs : ((wakeupTicks m j).proc j).state = .sleeping) :
    ((wakeupTicks m j).proc j).sleepSpace ≠ some TICKS := by
  unfold wakeupTicks at hs ⊢
  rw [if_neg h] at hs ⊢
  unfold Machine.wakeupStep at hs ⊢
  split at hs
  · rw [Machine.setProc_proc_self] at hs
    cases hs
  next awake =>
    rw [if_neg awake]
    exact fun space => awake ⟨hs, space⟩

theorem foldl_cpu (slots : List (Fin NPROC)) (m : Machine) :
    (slots.foldl wakeupTicks m).cpu = m.cpu := by
  induction slots generalizing m with
  | nil => rfl
  | cons j rest ih => exact (ih _).trans (wakeupTicks_cpu m j)

theorem foldl_woke (slots : List (Fin NPROC)) (h : m.Woke) : (slots.foldl wakeupTicks m).Woke := by
  induction slots generalizing m with
  | nil => exact h
  | cons j rest ih => exact ih (wakeupTicks_woke h)

theorem foldl_ranked (slots : List (Fin NPROC)) (h : m.Ranked) :
    (slots.foldl wakeupTicks m).Ranked := by
  induction slots generalizing m with
  | nil => exact h
  | cons j rest ih => exact ih (wakeupTicks_ranked h)

/-- Who still sleeps on the counter after the loop has not been visited and slept before. -/
theorem foldl_asleep (slots : List (Fin NPROC)) {p : Fin NPROC} (out : m.cpu.current ≠ some p)
    (hs : ((slots.foldl wakeupTicks m).proc p).state = .sleeping)
    (space : ((slots.foldl wakeupTicks m).proc p).sleepSpace = some TICKS) :
    p ∉ slots ∧ (m.proc p).state = .sleeping ∧ (m.proc p).sleepSpace = some TICKS := by
  induction slots generalizing m with
  | nil => exact ⟨List.not_mem_nil, hs, space⟩
  | cons j rest ih =>
    have out' : (wakeupTicks m j).cpu.current ≠ some p := by rwa [wakeupTicks_cpu]
    obtain ⟨later, asleep, on⟩ := ih out' hs space
    obtain ⟨before, same⟩ := wakeupTicks_killed m j p asleep
    refine ⟨?_, before, same ▸ on⟩
    rintro (_ | ⟨_, hp⟩)
    · exact wakeupTicks_wakes out asleep on
    · exact later hp

end Handler

/-- A process that sleeps on the counter has found its ticks not elapsed, and there has been no tick
    since. -/
structure Checked (s : Clock) : Prop where
  woke : s.m.Woke
  ranked : s.m.Ranked
  asleep : ∀ p, s.Asleep p → ∃ c, s.call p = some c ∧ c.waits s.ticks = true
  nonneg : ∀ p c, s.call p = some c → 0 ≤ c.n.toInt

section Steps

variable {s t : Clock} {l : Label} {i : Fin NPROC} {c : SleepCall} {a : Act}

theorem start_checked (ticks : BitVec 64) : (start ticks).Checked := by
  refine ⟨Machine.init_woke, Machine.init_ranked, ?_, nofun⟩
  rintro p ⟨hs, -⟩
  by_cases hp : p = proczero
  · subst hp
    simp [start, Machine.init] at hs
  · simp [start, Machine.init, Function.update_of_ne hp, procInit] at hs

theorem Checked.timely (h : s.Checked) : s.Timely := by
  intro p hp
  obtain ⟨c, call, waits⟩ := h.asleep p hp
  exact ⟨c, call, (SleepCall.waits_iff (h.nonneg p c call)).mp waits⟩

/-- After a loop over all slots nobody sleeps on the counter. -/
theorem Checked.wakeup (h : s.Checked) (slots : List (Fin NPROC)) (all : ∀ p, p ∈ slots)
    (ticks : BitVec 64) : Checked { s with ticks := ticks, m := slots.foldl wakeupTicks s.m } := by
  refine ⟨foldl_woke slots h.woke, foldl_ranked slots h.ranked, ?_, h.nonneg⟩
  rintro p ⟨hs, space⟩
  by_cases out : s.m.cpu.current = some p
  · have run := (foldl_cpu slots s.m).trans (Cpu.current_eq_some.mp out)
    exact absurd hs ((foldl_woke slots h.woke).onCpu p run)
  · exact absurd (all p) (foldl_asleep slots out hs space).1

theorem Checked.tick (h : s.Checked) : s.timerInterruptHandler.Checked :=
  h.wakeup _ List.mem_finRange _

theorem Checked.act {m : Machine} (h : s.Checked) (hs : s.m.step a = some m)
    (chan : Machine.OtherChan a) (other : a ≠ .sleep TICKS) : Checked { s with m := m } := by
  refine ⟨h.woke.step chan hs, h.ranked.step hs, ?_, h.nonneg⟩
  rintro p ⟨asleep, space⟩
  rcases h.ranked.sleep hs asleep with ⟨before, same⟩ | begins
  · exact h.asleep p ⟨before, same ▸ space⟩
  · change (m.proc p).sleepSpace = some TICKS at space
    rw [space] at begins
    cases a with
    | sleep space' =>
      cases begins
      exact absurd rfl other
    | wait =>
      obtain ⟨_, eq⟩ := begins
      cases eq
    | _ => exact absurd begins id

/-- A round of the loop, for a process that is on the CPU. -/
theorem Checked.sleepRound (h : s.Checked) (run : s.m.cpu = .run i) (loc : s.m.loc i = .other)
    (nonneg : 0 ≤ c.n.toInt ∨ c.waits s.ticks = false ∨ (s.m.proc i).killed = true) :
    (s.sleepRound i c).1.Checked := by
  -- the call has returned
  have returned : Checked { s with call := Function.update s.call i none } := by
    refine ⟨h.woke, h.ranked, ?_, ?_⟩
    · intro p hp
      have hpi : p ≠ i := by
        rintro rfl
        exact h.woke.onCpu p run hp.1
      obtain ⟨c', call, waits⟩ := h.asleep p hp
      exact ⟨c', (Function.update_of_ne hpi ..).trans call, waits⟩
    · intro p c' hc
      by_cases hpi : p = i
      · subst hpi
        dsimp only at hc
        rw [Function.update_self] at hc
        cases hc
      · dsimp only at hc
        rw [Function.update_of_ne hpi] at hc
        exact h.nonneg p c' hc
  unfold Clock.sleepRound
  split
  next waits =>
    split
    · exact returned
    next alive =>
    have pos : 0 ≤ c.n.toInt := by
      rcases nonneg with nonneg | done | killed
      · exact nonneg
      · rw [waits] at done
        cases done
      · exact absurd killed alive
    have step : s.m.step (.sleep TICKS) = some (s.m.sleepStep i TICKS) := by
      unfold Machine.step
      simp only [run]
      unfold Machine.procStep
      simp only [loc]
    refine ⟨h.woke.step (a := .sleep TICKS) ⟨0, rfl⟩ step, h.ranked.step step, ?_, ?_⟩
    · rintro p ⟨asleep, space⟩
      by_cases hpi : p = i
      · subst hpi
        exact ⟨c, Function.update_self .., waits⟩
      · have same : (s.m.sleepStep i TICKS).proc p = s.m.proc p := Machine.setProc_proc_of_ne _ hpi _
        dsimp only at asleep space
        rw [same] at asleep space
        obtain ⟨c', call, still⟩ := h.asleep p ⟨asleep, space⟩
        exact ⟨c', (Function.update_of_ne hpi ..).trans call, still⟩
    · intro p c' hc
      by_cases hpi : p = i
      · subst hpi
        dsimp only at hc
        rw [Function.update_self] at hc
        cases hc
        exact pos
      · dsimp only at hc
        rw [Function.update_of_ne hpi] at hc
        exact h.nonneg p c' hc
  · exact returned

theorem sleepRound_ticks : (s.sleepRound i c).1.ticks = s.ticks := by
  unfold Clock.sleepRound
  split
  · split <;> rfl
  · rfl

theorem sleepRound_zero (h : (s.sleepRound i c).2 = some 0) : c.waits s.ticks = false := by
  unfold Clock.sleepRound at h
  split at h
  · split at h
    · cases h
    · cases h
  next done => exact Bool.eq_false_iff.mpr done

theorem sleepRound_none (h : (s.sleepRound i c).2 = none) :
    c.waits s.ticks = true ∧ (s.m.proc i).killed ≠ true := by
  unfold Clock.sleepRound at h
  split at h
  next waits =>
    split at h
    · cases h
    next alive => exact ⟨waits, alive⟩
  · cases h

/-- A call that may go to sleep has a number that is not negative. -/
theorem call_nonneg {n : BitVec 32} (r : n.toInt < 0 → (s.m.proc i).killed = true) :
    0 ≤ n.toInt ∨ (SleepCall.mk s.ticks n).waits s.ticks = false ∨ (s.m.proc i).killed = true := by
  by_cases neg : n.toInt < 0
  · exact Or.inr (Or.inr (r neg))
  · exact Or.inl (by omega)

theorem Checked.step (h : s.Checked) (hs : Step s l t) (r : NoNegative s l t) : t.Checked := by
  cases hs with
  | act hs chan other outside => exact h.act hs chan other
  | call run loc idle => exact h.sleepRound run loc (call_nonneg r)
  | again run loc called => exact h.sleepRound run loc (Or.inl (h.nonneg _ _ called))
  | tick => exact h.tick

theorem Checked.expected_iff (h : s.Checked) (hs : Step s l t) :
    Expected s l t ↔ NoNegative s l t := by
  constructor
  · rintro ⟨-, expected⟩
    cases hs with
    | act => trivial
    | again => trivial
    | tick => trivial
    | @call i n run loc idle =>
      intro neg
      by_contra alive
      have ret : (s.sleepRound i ⟨s.ticks, n⟩).2 = none := by
        unfold Clock.sleepRound
        rw [if_pos (SleepCall.waits_of_neg neg), if_neg alive]
      rw [ret] at expected
      dsimp only at expected
      omega
  · intro r
    refine ⟨(h.step hs r).timely, ?_⟩
    cases hs with
    | act => trivial
    | tick => trivial
    | @call i n run loc idle =>
      cases ret : (s.sleepRound i ⟨s.ticks, n⟩).2 with
      | none =>
        dsimp only
        obtain ⟨waits, alive⟩ := sleepRound_none ret
        rcases call_nonneg (i := i) r with pos | done | killed
        · have := (SleepCall.waits_iff (c := ⟨s.ticks, n⟩) pos).mp waits
          rwa [SleepCall.elapsed_self] at this
        · rw [waits] at done
          cases done
        · exact absurd killed alive
      | some v =>
        rintro rfl
        have := SleepCall.le_elapsed (sleepRound_zero ret)
        rwa [SleepCall.elapsed_self] at this
    | @again i c run loc called =>
      cases ret : (s.sleepRound i c).2 with
      | none => trivial
      | some v =>
        rintro rfl
        rw [sleepRound_ticks]
        exact SleepCall.le_elapsed (sleepRound_zero ret)

end Steps

/-- Timed sleep does what is expected in every step of a run exactly when nobody calls it with a
    negative number. -/
theorem timed_sleep_iff (ticks : BitVec 64) (tr : List (Label × Clock))
    (h : Along Step (start ticks) tr) :
    Along Expected (start ticks) tr ↔ Along NoNegative (start ticks) tr :=
  h.iff (fun _ _ _ checked step ok => checked.step step ok)
    (fun _ _ _ checked step => checked.expected_iff step) (start_checked ticks)

section Example

/-- Steps outside `sys_sleep` are a run. -/
theorem run_acts (as : List Act) {s : Clock} (idle : ∀ i, s.call i = none) {m : Machine}
    (allowed : ∀ a ∈ as, Machine.OtherChan a ∧ a ≠ .sleep TICKS) (hm : s.m.after as = some m) :
    ∃ tr, Along Step s tr ∧ Along NoNegative s tr ∧ final s tr = { s with m := m } := by
  induction as generalizing s with
  | nil =>
    cases hm
    exact ⟨[], trivial, trivial, rfl⟩
  | cons a as ih =>
    obtain ⟨m', hs, hm⟩ := Option.bind_eq_some_iff.mp hm
    obtain ⟨chan, other⟩ := allowed a List.mem_cons_self
    obtain ⟨tr, run, ok, last⟩ := ih (s := { s with m := m' }) idle
      (fun b hb => allowed b (List.mem_cons_of_mem _ hb)) hm
    exact ⟨(.act a, { s with m := m' }) :: tr,
      ⟨.act hs chan other fun i _ called => absurd (idle i) called, run⟩, ⟨trivial, ok⟩, last⟩

/-- The first process runs. -/
def running : Clock := { start 0 with m := Machine.init.dispatchTo proczero }

theorem running_reached : ∃ tr, Along Step (start 0) tr ∧ Along NoNegative (start 0) tr ∧
    final (start 0) tr = running := by
  refine run_acts (List.replicate (NPROC + 1) .scan) (s := start 0) (fun _ => rfl) ?_ ?_
  · intro a ha
    rw [List.eq_of_mem_replicate ha]
    exact ⟨trivial, nofun⟩
  · exact (Machine.after_pass rfl).trans (by
      unfold start
      dsimp only
      rw [Machine.choose_init])

/-- The step in which it calls `sys_sleep`. -/
def calling (n : BitVec 32) : Label × Clock :=
  (.call proczero n (running.sleepRound proczero ⟨0, n⟩).2, (running.sleepRound proczero ⟨0, n⟩).1)

/-- A run that ends with the call. -/
theorem calling_reached (n : BitVec 32) : ∃ before, Along Step (start 0) (before ++ [calling n]) ∧
    Along NoNegative (start 0) before ∧ final (start 0) before = running ∧
      final (start 0) (before ++ [calling n]) = (calling n).2 := by
  obtain ⟨before, run, ok, last⟩ := running_reached
  refine ⟨before, Along.append.mpr ⟨run, ?_⟩, ok, last, final_append ..⟩
  rw [last]
  exact ⟨.call rfl rfl rfl, trivial⟩

/-- It sleeps for five ticks as expected. -/
theorem timed_sleep_iff_five : ∃ before, Along Step (start 0) (before ++ [calling 5]) ∧
    Along Expected (start 0) (before ++ [calling 5]) ∧ (calling 5).1 = .call proczero 5 none ∧
      (final (start 0) (before ++ [calling 5])).Asleep proczero := by
  obtain ⟨before, run, ok, last, after⟩ := calling_reached 5
  refine ⟨before, run, (timed_sleep_iff 0 _ run).mpr (Along.append.mpr ⟨ok, ?_⟩), rfl, ?_⟩
  · exact ⟨fun neg => absurd neg (by decide), trivial⟩
  · rw [after]
    exact ⟨rfl, rfl⟩

/-- A call with -1 goes to sleep, though no tick need elapse. -/
theorem negative_sleeps : ∃ before, Along Step (start 0) (before ++ [calling (-1)]) ∧
    (calling (-1)).1 = .call proczero (-1) none ∧
      (final (start 0) (before ++ [calling (-1)])).Asleep proczero ∧
      ¬ (final (start 0) (before ++ [calling (-1)])).Timely ∧
      ¬ Along Expected (start 0) (before ++ [calling (-1)]) := by
  obtain ⟨before, run, -, last, after⟩ := calling_reached (-1)
  have late : ¬ (calling (-1)).2.Timely := by
    intro timely
    obtain ⟨c, call, early⟩ := timely proczero ⟨rfl, rfl⟩
    obtain rfl : c = ⟨0, -1⟩ := (Option.some.inj call).symm
    exact absurd early (by decide)
  refine ⟨before, run, rfl, ?_, ?_, fun expected => late (Along.append.mp expected).2.1.1⟩
  · rw [after]
    exact ⟨rfl, rfl⟩
  · rw [after]
    exact late

end Example

end Clock

end EasyXv6.Proc
