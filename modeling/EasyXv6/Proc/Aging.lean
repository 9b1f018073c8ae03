import EasyXv6.Proc.Scheduler

set_option autoImplicit false

/-!
# What aging guarantees

A waiting process rises to `PRIORITY_MAX` and no further, and there a tie goes to the smaller pid.
So only the processes of smaller pid can keep it waiting, each of them once in as many rounds as
it takes to rise to the cap again.
-/
namespace EasyXv6.Proc
open Lib

/-- The longest wait that the design promises: `NPROC * (PRIORITY_MAX + 1)` rounds. -/
abbrev maxWait : ℕ := NPROC * (PRIORITY_MAX + 1).toNat

/-- `j` is never passed over for more than `maxWait` consecutive rounds. -/
def BoundedWait (t : Table) (j : Fin NPROC) : Prop :=
  ∀ k, ∃ m ≤ maxWait, picked t (k + m) = some j

/-- The RUNNABLE processes that win a tie against `j`. -/
def rivals (t : Table) (j : Fin NPROC) : Finset (Fin NPROC) :=
  Finset.univ.filter fun i => (t i).state = .runnable ∧ (t i).pid < (t j).pid

/-- The rounds from one turn of `i` to the first in which it is at the cap again. -/
def cooldown (t : Table) (i : Fin NPROC) : ℕ := (PRIORITY_MAX + 1 - (t i).priority).toNat

/-- The rounds of a wait that is too long in which the waiting process is at the cap. -/
abbrev capRounds : ℕ := maxWait + 1 - PRIORITY_MAX.toNat

/-- In `capRounds` rounds the rivals have too few turns to fill all of them. -/
def RivalsLeaveRoom (t : Table) (j : Fin NPROC) : Prop :=
  ∑ i ∈ rivals t j, ceilDiv capRounds (cooldown t i) < capRounds

/-- For some priority `p`, the rivals of priority `p` and more are as many as the rounds that one
    of priority `p` takes to rise to the cap. -/
def RivalsCrowd (t : Table) (j : Fin NPROC) : Prop :=
  ∃ p : ℤ, PRIORITY_MIN ≤ p ∧ p ≤ PRIORITY_MAX ∧
    PRIORITY_MAX + 1 - p ≤ ((rivals t j).filter fun i => p ≤ (t i).priority).card

section Cap

variable {t : Table} {i j : Fin NPROC}

theorem mem_rivals : i ∈ rivals t j ↔ (t i).state = .runnable ∧ (t i).pid < (t j).pid := by
  simp [rivals]

/-- Against a process at the cap only a rival at the cap is picked. -/
theorem rival_of_picked (h : Legal t) (hj : (t j).state = .runnable) {s : ℕ}
    (cap : level (tableAt t s) j = PRIORITY_MAX) (hi : picked t s = some i) (hne : i ≠ j) :
    i ∈ rivals t j ∧ level (tableAt t s) i = PRIORITY_MAX := by
  have legal := h.tableAt s
  have hr : (tableAt t s j).state = .runnable := (tableAt_state s).trans hj
  obtain ⟨hs, best⟩ := choose_spec hi
  obtain ⟨ei, _, li⟩ := legal.effectivePriority hs
  obtain ⟨ej, _, _⟩ := legal.effectivePriority hr
  rcases best j hr with hlt | ⟨heq, hpid⟩
  · rw [ei, ej] at hlt
    omega
  · rw [ei, ej] at heq
    have hpne : (tableAt t s i).pid ≠ (tableAt t s j).pid := fun e => hne (legal.pid i j hs hr e)
    rw [tableAt_pid, tableAt_pid] at hpid hpne
    rw [tableAt_state] at hs
    exact ⟨mem_rivals.mpr ⟨hs, by omega⟩, by omega⟩

/-- A process at the cap for all the rounds from `a` to `b` that is not picked lets each rival
    have a turn only once in its cooldown. -/
theorem spaced_of_waiting (h : Legal t) (hj : (t j).state = .runnable) {a b : ℕ}
    (cap : ∀ s, a ≤ s → s < b → level (tableAt t s) j = PRIORITY_MAX)
    (wait : ∀ s, a ≤ s → s < b → picked t s ≠ some j) :
    Spaced (cooldown t) (picked t) a b := by
  intro i s u ha hlt hb hs hu
  have hne : i ≠ j := by
    rintro rfl
    exact wait s ha (by omega) hs
  obtain ⟨hm, _⟩ := rival_of_picked h hj (cap s ha (by omega)) hs hne
  obtain ⟨_, top⟩ := rival_of_picked h hj (cap u (by omega) hb) hu hne
  have hi := (mem_rivals.mp hm).1
  have base : level (tableAt t (s + 1)) i = (t i).priority :=
    (level_round_picked hs).trans (tableAt_priority s)
  have rise := level_le h hi (s + 1) (u - (s + 1))
  rw [Nat.add_sub_cancel' (by omega : s + 1 ≤ u), top, base] at rise
  have := h.priority i hi
  unfold cooldown
  omega

theorem boundedWait_of_room (h : Legal t) (hj : (t j).state = .runnable)
    (room : RivalsLeaveRoom t j) : BoundedWait t j := by
  intro k
  by_contra hno
  push Not at hno
  have wait : ∀ s, k ≤ s → s < k + (maxWait + 1) → picked t s ≠ some j := by
    intro s h1 h2 hs
    exact hno (s - k) (by omega) (by rwa [Nat.add_sub_cancel' h1])
  have hw : maxWait = 1024 := rfl
  have hc : capRounds = 1010 := rfl
  have hp : PRIORITY_MAX = 15 := rfl
  have hq : PRIORITY_MIN = 0 := rfl
  have cap : ∀ s, k + 15 ≤ s → s < k + 15 + capRounds → level (tableAt t s) j = PRIORITY_MAX := by
    intro s h1 h2
    have rise := level_waiting h hj k (s - k) fun u hu1 hu2 => wait u hu1 (by omega)
    rw [Nat.add_sub_cancel' (by omega : k ≤ s)] at rise
    have low := ((h.tableAt k).effectivePriority ((tableAt_state k).trans hj)).2.1
    have high := ((h.tableAt s).effectivePriority ((tableAt_state s).trans hj)).2.2
    have := (h.priority j hj).1
    rw [tableAt_priority] at low
    omega
  have wait' : ∀ s, k + 15 ≤ s → s < k + 15 + capRounds → picked t s ≠ some j := by
    intro s h1 h2
    exact wait s (by omega) (by omega)
  have spaced := spaced_of_waiting h hj cap wait'
  have pos : ∀ i ∈ rivals t j, 0 < cooldown t i := by
    intro i hi
    have := h.priority i (mem_rivals.mp hi).1
    unfold cooldown
    omega
  obtain ⟨s, h1, h2, other⟩ := spaced.exists_other pos room
  obtain ⟨c, hc⟩ := exists_choose ((tableAt_state (i := j) s).trans hj)
  have hne : c ≠ j := by
    rintro rfl
    exact wait' s h1 h2 hc
  exact other c (rival_of_picked h hj (cap s h1 h2) hc hne).1 hc

/-- From round 15 on there is always a rival at the cap. -/
theorem not_picked_of_crowd (h : Legal t) (crowd : RivalsCrowd t j) (k : ℕ) (hk : 15 ≤ k) :
    picked t k ≠ some j := by
  have hp : PRIORITY_MAX = 15 := rfl
  have hq : PRIORITY_MIN = 0 := rfl
  obtain ⟨p, hp0, hp1, card⟩ := crowd
  obtain ⟨n, hn⟩ : ∃ n : ℕ, (n : ℤ) = PRIORITY_MAX - p := ⟨(PRIORITY_MAX - p).toNat, by omega⟩
  obtain ⟨i, hi, none⟩ := exists_no_turn (w := picked t) (a := k - n)
    (show n < ((rivals t j).filter fun i => p ≤ (t i).priority).card by omega)
  rw [Nat.sub_add_cancel (by omega)] at none
  obtain ⟨hi, hpi⟩ := Finset.mem_filter.mp hi
  obtain ⟨hr, hpid⟩ := mem_rivals.mp hi
  have rise := level_waiting h hr (k - n) n
    fun s h1 h2 => none s h1 (by rwa [Nat.sub_add_cancel (by omega)] at h2)
  rw [Nat.sub_add_cancel (by omega)] at rise
  have low := ((h.tableAt (k - n)).effectivePriority ((tableAt_state _).trans hr)).2.1
  rw [tableAt_priority] at low
  obtain ⟨ei, _, _⟩ := (h.tableAt k).effectivePriority ((tableAt_state k).trans hr)
  intro hj
  obtain ⟨hs, best⟩ := choose_spec hj
  obtain ⟨ej, _, lj⟩ := (h.tableAt k).effectivePriority hs
  rcases best i ((tableAt_state k).trans hr) with hlt | ⟨_, hle⟩
  · rw [ei, ej] at hlt
    omega
  · rw [tableAt_pid, tableAt_pid] at hle
    omega

theorem not_boundedWait_of_crowd (h : Legal t) (crowd : RivalsCrowd t j) : ¬ BoundedWait t j := by
  intro hb
  obtain ⟨m, _, hm⟩ := hb 15
  exact not_picked_of_crowd h crowd (15 + m) (by omega) hm

/-- Rivals of one priority either leave room or crowd. -/
theorem crowd_iff_not_room {p : ℤ} (hp0 : PRIORITY_MIN ≤ p) (hp1 : p ≤ PRIORITY_MAX)
    (same : ∀ i ∈ rivals t j, (t i).priority = p) : RivalsCrowd t j ↔ ¬ RivalsLeaveRoom t j := by
  have hmax : PRIORITY_MAX = 15 := rfl
  have hmin : PRIORITY_MIN = 0 := rfl
  obtain ⟨T, hT⟩ : ∃ T : ℕ, (T : ℤ) = 16 - p := ⟨(16 - p).toNat, by omega⟩
  have hsum : ∑ i ∈ rivals t j, ceilDiv capRounds (cooldown t i) =
      (rivals t j).card * ceilDiv 1010 T := by
    apply Finset.sum_const_nat
    intro i hi
    have : cooldown t i = T := by
      unfold cooldown
      rw [same i hi]
      omega
    rw [this]
    rfl
  have exact : (rivals t j).card * ceilDiv 1010 T < 1010 ↔ (rivals t j).card < T := by
    have h1 : 1 ≤ T := by omega
    have h2 : T ≤ 16 := by omega
    generalize (rivals t j).card = K
    unfold ceilDiv
    interval_cases T <;> simp only [Nat.reduceAdd, Nat.reduceSub, Nat.reduceDiv] <;> omega
  have room : RivalsLeaveRoom t j ↔ (rivals t j).card < T := by
    unfold RivalsLeaveRoom
    rw [hsum]
    exact exact
  rw [room, Nat.not_lt]
  constructor
  · rintro ⟨q, hq0, hq1, card⟩
    by_cases hq : q ≤ p
    · have := Finset.card_filter_le (rivals t j) (fun i => q ≤ (t i).priority)
      omega
    · have none : ((rivals t j).filter fun i => q ≤ (t i).priority) = ∅ := by
        apply Finset.filter_eq_empty_iff.mpr
        intro i hi
        rw [same i hi]
        exact hq
      rw [none, Finset.card_empty] at card
      omega
  · intro hle
    refine ⟨p, hp0, hp1, ?_⟩
    rw [Finset.filter_true_of_mem fun i hi => (same i hi).ge]
    omega

end Cap

section Wait

/-- A process is never passed over for too long if its rivals leave room, and is passed over for
    ever, whatever the boosts are, if they crowd. Rivals of one priority do one or the other. -/
theorem wait_of_aging (t : Table) (h : Legal t) (j : Fin NPROC) (hj : (t j).state = .runnable) :
    (RivalsLeaveRoom t j → BoundedWait t j) ∧ (RivalsCrowd t j → ¬ BoundedWait t j) ∧
      ∀ p, (∀ i ∈ rivals t j, (t i).priority = p) → (BoundedWait t j ↔ RivalsLeaveRoom t j) := by
  refine ⟨boundedWait_of_room h hj, not_boundedWait_of_crowd h, ?_⟩
  intro p same
  refine ⟨?_, boundedWait_of_room h hj⟩
  intro hb
  by_contra hno
  obtain ⟨i, hi⟩ : (rivals t j).Nonempty := by
    by_contra hempty
    rw [Finset.not_nonempty_iff_eq_empty] at hempty
    unfold RivalsLeaveRoom at hno
    rw [hempty, Finset.sum_empty] at hno
    exact hno (by decide)
  have range := h.priority i (mem_rivals.mp hi).1
  rw [same i hi] at range
  exact not_boundedWait_of_crowd h ((crowd_iff_not_room range.1 range.2 same).mpr hno) hb

/-- Two RUNNABLE processes, of pid 1 and priority 15 and of pid 2 and priority 0. -/
def starving : Table := fun i =>
  if i.val = 0 then { ProcT.zero with pid := 1, state := .runnable, priority := 15 }
  else if i.val = 1 then { ProcT.zero with pid := 2, state := .runnable }
  else ProcT.zero

theorem starving_runnable {i : Fin NPROC} (h : (starving i).state = .runnable) : i = 0 ∨ i = 1 := by
  unfold starving at h
  split at h
  · exact Or.inl (Fin.ext ‹_›)
  split at h
  · exact Or.inr (Fin.ext ‹_›)
  · cases h

theorem starving_legal : Legal starving := by
  refine ⟨?_, ?_, ?_⟩
  · intro i hi
    rcases starving_runnable hi with rfl | rfl <;> decide
  · intro i hi
    rcases starving_runnable hi with rfl | rfl <;> decide
  · intro i j hi hj
    rcases starving_runnable hi with rfl | rfl <;> rcases starving_runnable hj with rfl | rfl <;>
      decide

theorem starving_crowd : RivalsCrowd starving 1 := by
  refine ⟨15, by decide, by decide, ?_⟩
  have : 0 < ((rivals starving 1).filter fun i => 15 ≤ (starving i).priority).card :=
    Finset.card_pos.mpr ⟨0, Finset.mem_filter.mpr ⟨mem_rivals.mpr (by decide), by decide⟩⟩
  have hmax : PRIORITY_MAX = 15 := rfl
  omega

theorem starving_room : RivalsLeaveRoom starving 0 := by
  have none : rivals starving 0 = ∅ := by
    apply Finset.eq_empty_of_forall_notMem
    intro i hi
    obtain ⟨hr, hlt⟩ := mem_rivals.mp hi
    rcases starving_runnable hr with rfl | rfl <;> exact absurd hlt (by decide)
  unfold RivalsLeaveRoom
  rw [none, Finset.sum_empty]
  decide

theorem wait_of_aging_starving : BoundedWait starving 0 ∧ ¬ BoundedWait starving 1 :=
  ⟨(wait_of_aging starving starving_legal 0 (by decide)).1 starving_room,
    (wait_of_aging starving starving_legal 1 (by decide)).2.1 starving_crowd⟩

theorem starving_not_boundedWait : Legal starving ∧ (starving 1).state = .runnable ∧
    ¬ BoundedWait starving 1 :=
  ⟨starving_legal, by decide, not_boundedWait_of_crowd starving_legal starving_crowd⟩

end Wait

end EasyXv6.Proc
