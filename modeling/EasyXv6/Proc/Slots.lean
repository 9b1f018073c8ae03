import EasyXv6.Proc.Runs

set_option autoImplicit false

/-!
# What a step does to a slot

A slot is filled by a fork, becomes a zombie by an exit, is emptied by a wait and is hit by a kill.
Every other step leaves its pid, its exit status and what it is used for.
-/
namespace EasyXv6.Proc
open Lib Mem Radix

structure Kept (p q : ProcT) : Prop where
  pid : q.pid = p.pid
  xstate : q.xstate = p.xstate
  unused : q.state = .unused ↔ p.state = .unused
  zombie : q.state = .zombie ↔ p.state = .zombie
  killed : p.state = .unused → q.killed = p.killed

inductive Change (s : Kernel) (j : Fin NPROC) : Label → ProcT → Prop
  | kept {l : Label} {q : ProcT} (same : Kept (s.proc j) q) : Change s j l q
  | born {i : Fin NPROC} {tf r : ℕ} (slot : firstUnused s.proc = some j) :
      Change s j (.fork i s.nextpid) ((s.proc j).child (s.proc i) i s.nextpid tf r)
  | exited {st : ℤ} {q : ProcT} (notInit : j ≠ proczero) (run : (s.proc j).state = .running)
      (pid : q.pid = (s.proc j).pid) (state : q.state = .zombie) (status : q.xstate = st) :
      Change s j (.exit j st) q
  | reaped {i : Fin NPROC} {addr : ℕ} (first : firstZombie s.proc i = some j) :
      Change s j (.wait i addr (some (s.proc j).pid)) (s.proc j).freed
  | hit {pid : ℤ} (first : firstPid s.proc pid = some j) : Change s j (.kill pid 0)
      { s.proc j with
        killed := true
        state := if (s.proc j).state = .sleeping then .runnable else (s.proc j).state }

variable {L : Layout} {s s' : Kernel} {free free' : List ℕ} {kernel : Multiset ℕ}
  {i j c : Fin NPROC} {l : Label}

section Change

theorem Kept.refl (p : ProcT) : Kept p p := ⟨rfl, rfl, Iff.rfl, Iff.rfl, fun _ => rfl⟩

/-- One slot is replaced. -/
theorem Change.update {p : ProcT} (t : Table) (ht : t = Function.update s.proc c p)
    (h : j = c → Change s j l p) : Change s j l (t j) := by
  rw [ht]
  by_cases hj : j = c
  · rw [← hj, Function.update_self]
    exact h hj
  · rw [Function.update_of_ne hj]
    exact .kept (.refl _)

theorem Woken.kept {p q : ProcT} (h : Woken p q) : Kept p q := by
  refine ⟨?_, ?_, ?_, ?_, ?_⟩
  · rw [h.same]
  · rw [h.same]
  · rcases h.state with hs | ⟨hp, hq⟩
    · rw [hs]
    · simp [hp, hq]
  · rcases h.state with hs | ⟨hp, hq⟩
    · rw [hs]
    · simp [hp, hq]
  · intro _
    rw [h.same]

theorem Served.kept {p q : ProcT} (h : Served p q) : Kept p q := by
  have dead : ∀ {r : ProcT}, Live r → r.state ≠ .unused ∧ r.state ≠ .zombie :=
    fun l => ⟨fun h => l.not_gone (Or.inl h), fun h => l.not_gone (Or.inr h)⟩
  refine ⟨?_, ?_, ?_, ?_, ?_⟩
  · rw [h.same]
  · rw [h.same]
  · exact iff_of_false (dead h.live').1 (dead h.live).1
  · exact iff_of_false (dead h.live').2 (dead h.live).2
  · exact fun hu => absurd hu (dead h.live).1

theorem Change.of_table {t : Table} (h : ∀ j, Kept (s.proc j) (t j)) (j : Fin NPROC) :
    Change s j l (t j) := .kept (h j)

theorem change_exit {st : ℤ} (run : (s.proc i).state = .running)
    (h : (procExit i st).run s = .ok () s') (j : Fin NPROC) :
    Change s j (.exit i st) (s'.proc j) := by
  obtain ⟨notInit, parent, rfl⟩ := procExit_run h
  have woken := woken_exiting s.proc i parent j
  dsimp only [exited]
  by_cases hj : j = i
  · subst hj
    rw [Function.update_self] at woken ⊢
    generalize exiting s.proc j parent j = q at woken ⊢
    exact .exited notInit run woken.kept.pid rfl rfl
  · rw [Function.update_of_ne hj] at woken ⊢
    exact .kept woken.kept

theorem change_wait {addr : ℕ} {ret : Option ℤ} (own : Owned L s free kernel)
    (run : (s.proc i).state = .running) (h : (procWait L i addr).run s = .ok ret s')
    (j : Fin NPROC) : Change s j (.wait i addr ret) (s'.proc j) := by
  cases hc : firstZombie s.proc i with
  | some c =>
    obtain ⟨rfl, -, proc, -⟩ := procWait_reaps own (not_unused_of_running run) hc h
    refine .update _ proc ?_
    rintro rfl
    exact .reaped hc
  | none =>
    unfold procWait at h
    rw [Comp.bind_get_run, hc] at h
    dsimp only at h
    rw [Comp.run_ite] at h
    split at h
    · rw [Comp.run_pure, Outcome.ok.injEq] at h
      obtain ⟨-, rfl⟩ := h
      exact .kept (.refl _)
    · rw [setProc, Comp.bind_modify_run, Comp.run_pure, Outcome.ok.injEq] at h
      obtain ⟨-, rfl⟩ := h
      refine .update _ rfl ?_
      rintro rfl
      refine .kept ⟨rfl, rfl, ?_, ?_, fun _ => rfl⟩
      · simp [run]
      · simp [run]

/-- What a step does to every slot. -/
theorem Owned.change (own : Owned L s free kernel) (h : Step L kernel s l s') (j : Fin NPROC) :
    Change s j l (s'.proc j) := by
  cases h with
  | fork run h =>
    rcases procFork_ok own (not_unused_of_running run) h with
      ⟨-, -, rfl⟩ | ⟨rfl, c, tf, r, free', forked⟩
    · exact .kept (.refl _)
    · refine .update _ forked.proc ?_
      rintro rfl
      exact .born forked.slot
  | exit run h => exact change_exit run h j
  | wait run h => exact change_wait own run h j
  | brk run h =>
    obtain ⟨-, -, top, proc⟩ := sysBrk_ok own (not_unused_of_running run) (not_gone_of_running run) h
    refine .update _ proc ?_
    rintro rfl
    exact .kept ⟨rfl, rfl, Iff.rfl, Iff.rfl, fun _ => rfl⟩
  | kill h =>
    rcases procKill_run h with ⟨p, hp, rfl, rfl⟩ | ⟨-, -, rfl⟩
    · refine .update _ rfl ?_
      rintro rfl
      exact .hit hp
    · exact .kept (.refl _)
  | other run h =>
    rcases h.proc j with same | served
    · rw [same]
      exact .kept (.refl _)
    · exact .kept served.kept

/-- Only a fork fills a slot. -/
theorem Change.still {q : ProcT} (h : Change s j l q) (hl : ∀ i ret, l ≠ .fork i ret) :
    q.pid = (s.proc j).pid ∧ ((s.proc j).state = .unused → q.state = .unused) := by
  cases h with
  | kept same => exact ⟨same.pid, same.unused.mpr⟩
  | born slot => exact absurd rfl (hl _ _)
  | exited _ run pid _ _ =>
    refine ⟨pid, fun hu => ?_⟩
    rw [run] at hu
    cases hu
  | reaped first => exact ⟨rfl, fun _ => rfl⟩
  | hit first =>
    refine ⟨rfl, fun hu => ?_⟩
    dsimp only
    rw [hu, if_neg (by simp)]

end Change

section Pids

/-- Only a fork draws a pid. -/
theorem Owned.pids (own : Owned L s free kernel) (h : Step L kernel s l s') :
    (s'.nextpid = s.nextpid ∧ ∀ j, (s'.proc j).pid = (s.proc j).pid ∧
        ((s.proc j).state = .unused → (s'.proc j).state = .unused)) ∨
      ∃ c, firstUnused s.proc = some c ∧ s'.nextpid = s.nextpid + 1 ∧
        (s'.proc c).pid = s.nextpid ∧ ∀ j, j ≠ c → s'.proc j = s.proc j := by
  have change := own.change h
  cases h with
  | fork run h =>
    rcases procFork_ok own (not_unused_of_running run) h with
      ⟨-, -, rfl⟩ | ⟨rfl, c, tf, r, free', forked⟩
    · exact Or.inl ⟨rfl, fun _ => ⟨rfl, id⟩⟩
    · refine Or.inr ⟨c, forked.slot, forked.nextpid, ?_, ?_⟩
      · rw [forked.proc, Function.update_self]
        rfl
      · intro j hj
        rw [forked.proc, Function.update_of_ne hj]
  | exit run h =>
    exact Or.inl ⟨(procExit_ok (not_unused_of_running run) h).2.1,
      fun j => (change j).still fun _ _ => by simp⟩
  | @wait _ i addr ret run h =>
    refine Or.inl ⟨?_, fun j => (change j).still fun _ _ => by simp⟩
    cases hc : firstZombie s.proc i with
    | some c => exact (procWait_reaps own (not_unused_of_running run) hc h).2.2.2.1
    | none => exact (procWait_none own (not_gone_of_running run) hc h).2.2
  | brk run h =>
    exact Or.inl ⟨(sysBrk_ok own (not_unused_of_running run) (not_gone_of_running run) h).2.1,
      fun j => (change j).still fun _ _ => by simp⟩
  | kill h =>
    refine Or.inl ⟨?_, fun j => (change j).still fun _ _ => by simp⟩
    rcases procKill_run h with ⟨p, -, -, rfl⟩ | ⟨-, -, rfl⟩ <;> rfl
  | other run h => exact Or.inl ⟨h.nextpid, fun j => (change j).still fun _ _ => by simp⟩

/-- The pids of the table: 0 is that of the first process and of slots never used, the others
    differ. -/
structure PidsOk (s : Kernel) : Prop where
  init : (s.proc proczero).pid = 0
  live : ¬ Gone (s.proc proczero)
  next : 0 < s.nextpid
  nonneg : ∀ j, 0 ≤ (s.proc j).pid
  below : ∀ j, (s.proc j).pid < s.nextpid
  apart : ∀ j k, (s.proc j).pid = (s.proc k).pid → (s.proc j).pid ≠ 0 → j = k
  used : ∀ j, j ≠ proczero → (s.proc j).state ≠ .unused → (s.proc j).pid ≠ 0

/-- The first process never exits. -/
theorem Change.init {q : ProcT} (h : Change s proczero l q) (live : ¬ Gone (s.proc proczero)) :
    ¬ Gone q := by
  cases h with
  | kept same => exact fun g => live (g.imp same.unused.mp same.zombie.mp)
  | born slot => exact absurd (Or.inl (firstUnused_state slot)) live
  | exited notInit _ _ _ _ => exact absurd rfl notInit
  | reaped first => exact absurd (Or.inr (firstZombie_spec first).2) live
  | hit first =>
    intro g
    apply live
    unfold Gone at g ⊢
    dsimp only at g
    split at g
    · rcases g with g | g <;> cases g
    · exact g

theorem PidsOk.step (ok : PidsOk s) (own : Owned L s free kernel) (h : Step L kernel s l s') :
    PidsOk s' := by
  have live := (own.change h proczero).init ok.live
  rcases own.pids h with ⟨next, still⟩ | ⟨c, slot, next, pid, others⟩
  · refine ⟨?_, live, ?_, ?_, ?_, ?_, ?_⟩
    · rw [(still _).1, ok.init]
    · rw [next]
      exact ok.next
    · intro j
      rw [(still j).1]
      exact ok.nonneg j
    · intro j
      rw [(still j).1, next]
      exact ok.below j
    · intro j k
      rw [(still j).1, (still k).1]
      exact ok.apart j k
    · intro j hj hu
      rw [(still j).1]
      exact ok.used j hj fun hu' => hu ((still j).2 hu')
  · have zero : proczero ≠ c := by
      rintro rfl
      exact ok.live (Or.inl (firstUnused_state slot))
    have fresh : ∀ j, (s.proc j).pid ≠ s.nextpid := fun j => ne_of_lt (ok.below j)
    have positive := ok.next
    refine ⟨?_, live, ?_, ?_, ?_, ?_, ?_⟩
    · rw [others _ zero, ok.init]
    · omega
    · intro j
      by_cases hj : j = c
      · rw [hj, pid]
        omega
      · rw [others j hj]
        exact ok.nonneg j
    · intro j
      by_cases hj : j = c
      · rw [hj, pid, next]
        omega
      · rw [others j hj, next]
        have := ok.below j
        omega
    · intro j k hjk hne
      by_cases hj : j = c <;> by_cases hk : k = c
      · rw [hj, hk]
      · rw [hj, pid, others k hk] at hjk
        exact absurd hjk.symm (fresh k)
      · rw [hk, pid, others j hj] at hjk
        exact absurd hjk (fresh j)
      · rw [others j hj] at hjk hne
        rw [others k hk] at hjk
        exact ok.apart j k hjk hne
    · intro j hj hu
      by_cases hjc : j = c
      · rw [hjc, pid]
        omega
      · rw [others j hjc] at hu ⊢
        exact ok.used j hj hu

/-- After boot only the first slot is in use, with the pid 0. -/
theorem boot_pidsOk {m : ℕ → Page} {taken : List Page} {code : ℕ → UInt8} {k : List ℕ}
    (h : (boot L taken code).run (powerOn m) = .ok k s) :
    PidsOk s ∧ ∀ j, j ≠ proczero → s.proc j = procInit (fun _ => .zero) j := by
  obtain ⟨free, own, next, tf, r, proc, -⟩ := boot_ok h
  have pid : ∀ j, (s.proc j).pid = 0 := by
    intro j
    by_cases hj : j = proczero
    · rw [hj, proc, Function.update_self]
    · rw [proc, Function.update_of_ne hj]
      rfl
  have others : ∀ j, j ≠ proczero → s.proc j = procInit (fun _ => .zero) j := by
    intro j hj
    rw [proc, Function.update_of_ne hj]
  refine ⟨⟨pid _, ?_, ?_, ?_, ?_, ?_, ?_⟩, others⟩
  · rw [proc, Function.update_self]
    rintro (h | h) <;> cases h
  · rw [next]
    decide
  · exact fun j => (pid j).ge
  · intro j
    rw [pid, next]
    decide
  · exact fun j k _ hne => absurd (pid j) hne
  · intro j hj hu
    rw [others j hj] at hu
    exact absurd rfl hu

end Pids

end EasyXv6.Proc
