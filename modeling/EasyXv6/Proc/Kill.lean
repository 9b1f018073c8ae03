import EasyXv6.Proc.Slots
import EasyXv6.Proc.Start

set_option autoImplicit false

/-!
# Which process a kill hits

`proc_free` leaves the pid in the slot and `proc_kill` does not look at the state, so that the pid of
a process that has been reaped still names its slot until the slot is used again.
-/
namespace EasyXv6.Proc
open Lib Mem Radix

/-- A process that is not UNUSED has the pid. -/
def Holds (s : Kernel) (p : Fin NPROC) (pid : ℤ) : Prop :=
  (s.proc p).state ≠ .unused ∧ (s.proc p).pid = pid

/-- A kill hits the process that has the pid, if any, and a child starts unhurt. -/
def KillHits (s : Kernel) : Label → Kernel → Prop
  | .kill pid ret, s' =>
    (ret = 0 ↔ ∃ p, Holds s p pid) ∧ (∀ p, Holds s p pid → s' = s.setProc p (s'.proc p)) ∧
      ((∀ p, ¬ Holds s p pid) → ret = -1 ∧ s' = s)
  | .fork _ ret, s' => ret ≠ -1 →
    ∃ c, firstUnused s.proc = some c ∧ (s'.proc c).pid = ret ∧ (s'.proc c).killed = false
  | _, _ => True

/-- The pid of the kill is not one that was left in an UNUSED slot. -/
def NotStale (s : Kernel) : Label → Kernel → Prop
  | .kill pid _, _ => pid = 0 ∨ ∀ p, (s.proc p).state = .unused → (s.proc p).pid ≠ pid
  | _, _ => True

variable {L : Layout} {s s' : Kernel} {free : List ℕ} {kernel : Multiset ℕ} {j p : Fin NPROC}
  {pid : ℤ} {l : Label}

theorem firstPid_spec {t : Table} (h : firstPid t pid = some p) : (t p).pid = pid := by
  have := List.find?_some h
  simpa using this

theorem firstPid_none {t : Table} (h : firstPid t pid = none) (p : Fin NPROC) : (t p).pid ≠ pid := by
  have := List.find?_eq_none.mp h p (List.mem_finRange p)
  simpa using this

theorem PidsOk.firstPid_zero (ok : PidsOk s) : firstPid s.proc 0 = some proczero := by
  change List.find? _ (proczero :: (List.finRange NPROC).drop 1) = some proczero
  rw [List.find?_cons_of_pos (by simpa using ok.init)]

/-- The slot that a kill stops at is in use when the pid is not stale. -/
theorem PidsOk.target_used (ok : PidsOk s) (h : firstPid s.proc pid = some p)
    (fresh : pid = 0 ∨ ∀ p, (s.proc p).state = .unused → (s.proc p).pid ≠ pid) :
    (s.proc p).state ≠ .unused := by
  intro hu
  rcases fresh with rfl | fresh
  · rw [ok.firstPid_zero] at h
    cases h
    exact ok.live (Or.inl hu)
  · exact fresh p hu (firstPid_spec h)

/-- No two processes in use have one pid. -/
theorem PidsOk.holds_unique (ok : PidsOk s) {q : Fin NPROC} (hp : Holds s p pid)
    (hq : Holds s q pid) : p = q := by
  by_cases hz : pid = 0
  · have zero : ∀ {r}, Holds s r pid → r = proczero := by
      intro r hr
      by_contra hne
      exact ok.used r hne hr.1 (hr.2.trans hz)
    rw [zero hp, zero hq]
  · exact ok.apart p q (hp.2.trans hq.2.symm) (hp.2 ▸ hz)

theorem kill_hits_iff (ok : PidsOk s) {ret : ℤ} (h : (procKill pid).run s = .ok ret s') :
    KillHits s (.kill pid ret) s' ↔ NotStale s (.kill pid ret) s' := by
  constructor
  · rintro ⟨found, -, -⟩
    by_contra stale
    rw [NotStale, not_or] at stale
    simp only [ne_eq, not_forall, not_not, exists_prop] at stale
    obtain ⟨hz, p, hp⟩ := stale
    rcases procKill_run h with ⟨q, hq, hret, -⟩ | ⟨hnone, -, -⟩
    · obtain ⟨r, used, hr⟩ := found.mp hret
      have same := ok.apart p r (hp.2.trans hr.symm) (hp.2 ▸ hz)
      rw [← same] at used
      exact used hp.1
    · exact firstPid_none hnone p hp.2
  · intro fresh
    rcases procKill_run h with ⟨q, hq, hret, hs'⟩ | ⟨hnone, hret, hs'⟩
    · have holds : Holds s q pid := ⟨ok.target_used hq fresh, firstPid_spec hq⟩
      refine ⟨iff_of_true hret ⟨q, holds⟩, ?_, fun hno => absurd holds (hno q)⟩
      intro p hp
      cases ok.holds_unique hp holds
      rw [hs', Kernel.setProc_proc_self]
    · have no : ∀ p, ¬ Holds s p pid := fun p hp => firstPid_none hnone p hp.2
      refine ⟨iff_of_false ?_ fun ⟨p, hp⟩ => no p hp, fun p hp => absurd hp (no p),
        fun _ => ⟨hret, hs'⟩⟩
      rw [hret]
      decide

/-- No UNUSED slot is marked as killed. -/
def Clean (s : Kernel) : Prop := ∀ j, (s.proc j).state = .unused → (s.proc j).killed = false

theorem Clean.step (clean : Clean s) (ok : PidsOk s) (own : Owned L s free kernel)
    (h : Step L kernel s l s') (fresh : NotStale s l s') : Clean s' := by
  intro j hu
  have change := own.change h j
  generalize s'.proc j = q at change hu
  cases change with
  | kept same =>
    have hu' := same.unused.mp hu
    rw [same.killed hu', clean j hu']
  | born slot => cases hu
  | exited _ _ _ state _ =>
    rw [state] at hu
    cases hu
  | reaped first => rfl
  | hit first =>
    dsimp only at hu
    split at hu
    · cases hu
    · exact absurd hu (ok.target_used first fresh)

theorem step_hits_iff (clean : Clean s) (ok : PidsOk s) (own : Owned L s free kernel)
    (h : Step L kernel s l s') : KillHits s l s' ↔ NotStale s l s' := by
  cases h with
  | fork run h =>
    refine iff_of_true ?_ trivial
    intro hret
    rcases procFork_ok own (not_unused_of_running run) h with
      ⟨-, failed, -⟩ | ⟨rfl, c, tf, r, free', forked⟩
    · exact absurd failed hret
    · refine ⟨c, forked.slot, ?_, ?_⟩
      · rw [forked.proc, Function.update_self]
        rfl
      · rw [forked.proc, Function.update_self]
        exact clean c (firstUnused_state forked.slot)
  | kill h => exact kill_hits_iff ok h
  | exit run h => exact Iff.rfl
  | wait run h => exact Iff.rfl
  | brk run h => exact Iff.rfl
  | other run h => exact Iff.rfl

/-- In a run every kill hits its process and every child starts unhurt exactly when no kill has the
    pid of a process that was reaped and whose slot is still UNUSED. -/
theorem kill_hits_live_iff {m : ℕ → Page} {taken : List Page} {code : ℕ → UInt8} {k : List ℕ}
    {s₀ : Kernel} {tr : List (Label × Kernel)}
    (hboot : (boot L taken code).run (powerOn m) = .ok k s₀)
    (hrun : Along (Step L k) s₀ tr) : Along KillHits s₀ tr ↔ Along NotStale s₀ tr := by
  obtain ⟨free₀, own₀, -⟩ := boot_ok hboot
  obtain ⟨ok₀, others⟩ := boot_pidsOk hboot
  have clean₀ : Clean s₀ := by
    intro j hu
    have hj : j ≠ proczero := by
      rintro rfl
      exact ok₀.live (Or.inl hu)
    rw [others j hj]
    rfl
  refine Along.iff (I := fun s => (∃ free, Owned L s free k) ∧ PidsOk s ∧ Clean s) ?_ ?_ hrun
    ⟨⟨free₀, own₀⟩, ok₀, clean₀⟩
  · rintro s l t ⟨⟨free, own⟩, ok, clean⟩ step fresh
    obtain ⟨free', moves⟩ := own.step step
    exact ⟨⟨free', moves.owned⟩, ok.step own step, clean.step ok own step fresh⟩
  · rintro s l t ⟨⟨free, own⟩, ok, clean⟩ step
    exact step_hits_iff clean ok own step

theorem firstPid_child (zero : (s.proc proczero).pid = 0) (one : (s.proc 1).pid = 2) :
    firstPid s.proc 2 = some 1 := by
  change List.find? _ (proczero :: 1 :: (List.finRange NPROC).drop 2) = some 1
  rw [List.find?_cons_of_neg (by rw [zero]; decide), List.find?_cons_of_pos (by simpa using one)]

/-- The pid of a child that has been waited for. -/
theorem stale_kill_boot : ∃ kernel s₀ tr s',
    (boot exampleLayout [] fun _ => 0).run (powerOn fun _ => Bytes.zero) = .ok kernel s₀ ∧
      Along (Step exampleLayout kernel) s₀ (tr ++ [(.kill 2 0, s')]) ∧
      (∀ p, ¬ Holds (final s₀ tr) p 2) ∧ (s'.proc 1).state = .unused ∧
      (s'.proc 1).killed = true ∧ ¬ Along KillHits s₀ (tr ++ [(.kill 2 0, s')]) := by
  obtain ⟨kernel, s₀, s₁, s₂, s₃, hboot, run, -, unused, pid, zero⟩ :=
    reap_after_boot exampleLayout (fun _ => Bytes.zero) (fun _ => 0) 0 0 (by decide)
  generalize htr : [(Label.other proczero, s₀.dispatch proczero), (.fork proczero 2, s₁),
    (.other 1, s₁.dispatch 1), (.exit 1 0, s₂), (.other proczero, s₂.dispatch proczero),
    (.wait proczero 0 (some 2), s₃)] = tr at run
  have last : final s₀ tr = s₃ := by
    rw [← htr]
    rfl
  obtain ⟨free₀, own₀, -⟩ := boot_ok hboot
  have ok : PidsOk s₃ := by
    rw [← last]
    exact (run.invariant (I := fun s => (∃ free, Owned exampleLayout s free kernel) ∧ PidsOk s)
      (fun s l t ⟨⟨free, own⟩, ok⟩ step =>
        ⟨⟨_, (own.step step).choose_spec.owned⟩, ok.step own step⟩)
      ⟨⟨free₀, own₀⟩, (boot_pidsOk hboot).1⟩).2
  have no : ∀ p, ¬ Holds s₃ p 2 := by
    rintro p ⟨used, hp⟩
    have same := ok.apart p 1 (hp.trans pid.symm) (by rw [hp]; decide)
    rw [same] at used
    exact used unused
  obtain ⟨s', hs', hkill⟩ : ∃ s', s'.proc 1 = { s₃.proc 1 with
      killed := true
      state := if (s₃.proc 1).state = .sleeping then .runnable else (s₃.proc 1).state } ∧
      (procKill 2).run s₃ = .ok 0 s' := by
    unfold procKill
    rw [Comp.bind_get_run, firstPid_child zero pid]
    exact ⟨_, Kernel.setProc_proc_self .., rfl⟩
  refine ⟨kernel, s₀, tr, s', hboot, Along.append.mpr ⟨run, ?_⟩, ?_, ?_, ?_, ?_⟩
  · rw [last]
    exact ⟨.kill hkill, trivial⟩
  · rw [last]
    exact no
  · rw [hs']
    dsimp only
    rw [unused, if_neg (by simp)]
  · rw [hs']
  · intro hits
    have bad := (Along.append.mp hits).2
    rw [last] at bad
    obtain ⟨p, hp⟩ := bad.1.1.mp rfl
    exact no p hp

theorem kill_hits_live_iff_reaped : ∃ kernel s₀ s₁ s₂ s₃,
    (boot exampleLayout [] fun _ => 0).run (powerOn fun _ => Bytes.zero) = .ok kernel s₀ ∧
      (Along KillHits s₀ [(.other proczero, s₀.dispatch proczero), (.fork proczero 2, s₁),
          (.other 1, s₁.dispatch 1), (.exit 1 0, s₂), (.other proczero, s₂.dispatch proczero),
          (.wait proczero 0 (some 2), s₃)] ↔
        Along NotStale s₀ [(.other proczero, s₀.dispatch proczero), (.fork proczero 2, s₁),
          (.other 1, s₁.dispatch 1), (.exit 1 0, s₂), (.other proczero, s₂.dispatch proczero),
          (.wait proczero 0 (some 2), s₃)]) := by
  obtain ⟨kernel, s₀, s₁, s₂, s₃, hboot, run, -⟩ :=
    reap_after_boot exampleLayout (fun _ => Bytes.zero) (fun _ => 0) 0 0 (by decide)
  exact ⟨kernel, s₀, s₁, s₂, s₃, hboot, kill_hits_live_iff hboot run⟩

end EasyXv6.Proc
