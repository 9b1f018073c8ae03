import EasyXv6.Sync.Sleeplock

set_option autoImplicit false

/-!
# One process has a sleep lock, and no wakeup is lost

Only the process on the CPU can be in a critical section, since interrupts are off there. A process
that sleeps on the lock has seen it taken, and whoever gives it up comes to every sleeping process
before `slk->lk` is free.
-/
namespace EasyXv6.Sync
open Lib Proc

namespace Sleepers

variable {n : ℕ} {κ : Type} [DecidableEq κ]

section Acts

variable {w w' : World (Fin n) (Option κ)} {p q : Fin n} {l : LockName (Fin n) (Option κ)}
  {a : Act (Fin n) (Option κ)}

/-- `spinlock_acquire` returns only if the process does not hold the lock. -/
theorem acquire_ok (h : w.Nested) (on : w.on = .run p)
    (run : (World.perform (.acquire l)).run w = .ok () w') : w' = w.taken l ∧ w'.Nested := by
  have now := World.now_of_run on
  have new : l ∉ w.held w.thread := by
    rw [World.thread_of_run on]
    intro mem
    have held : w.core.lock l = ⟨true, MYCPU⟩ := by
      rw [h.lock, now, if_pos mem]
    unfold World.perform World.onCore spinlockAcquire pushOff at run
    simp [Comp.run_bind, Comp.run_zoom, Core.holding, held] at run
  have allowed : w.Allowed (.acquire l) := ⟨World.notBack_of_run on, new⟩
  refine ⟨?_, h.of_step ⟨allowed, run⟩⟩
  rw [h.acquire_run allowed.1 new] at run
  cases run
  rfl

/-- `spinlock_release` returns only if the process holds the lock. -/
theorem release_ok (h : w.Nested) (on : w.on = .run p)
    (run : (World.perform (.release l)).run w = .ok () w') : w' = w.given l ∧ w'.Nested := by
  have now := World.now_of_run on
  have mem : l ∈ w.held w.thread := by
    rw [World.thread_of_run on]
    by_contra new
    have free : w.core.lock l = .unlocked := by
      rw [h.lock, now, if_neg new]
    unfold World.perform World.onCore spinlockRelease at run
    simp [Comp.run_bind, Comp.run_zoom, Core.holding, free, Spinlock.unlocked] at run
  have allowed : w.Allowed (.release l) := ⟨World.notBack_of_run on, mem⟩
  refine ⟨?_, h.of_step ⟨allowed, run⟩⟩
  rw [h.release_run allowed.1 mem] at run
  cases run
  rfl

/-- `proc_sched` switches only if the process holds its own lock and no other. -/
theorem sched_ok (h : w.Nested) (on : w.on = .run p)
    (run : (World.perform (.sched .sleeping)).run w = .ok () w') :
    w' = w.left p .sleeping ∧ w'.Nested ∧ w.held (some p) = [.own p] := by
  have now := World.now_of_run on
  have checks : w.core.holding (.own p) = true ∧ w.core.noff = 1 := by
    unfold World.perform World.onCore procSched at run
    by_contra bad
    by_cases holds : w.core.holding (.own p) = true
    · have deep : w.core.noff ≠ 1 := fun one => bad ⟨holds, one⟩
      have holds' : ({ w.core with state := Function.update w.core.state p .sleeping } :
        Core (Fin n) (Option κ)).holding (.own p) = true := holds
      simp [Comp.run_bind, Comp.run_zoom, on, holds', deep] at run
    · have none : ({ w.core with state := Function.update w.core.state p .sleeping } :
        Core (Fin n) (Option κ)).holding (.own p) = false := Bool.eq_false_iff.mpr holds
      simp [Comp.run_bind, Comp.run_zoom, on, none] at run
  have own : w.held (some p) = [.own p] := by
    have count := h.noff
    rw [checks.2, now] at count
    obtain ⟨l, only⟩ := List.length_eq_one_iff.mp (Int.ofNat.inj count).symm
    have mem : LockName.own p ∈ w.held (some p) := by
      by_contra absent
      have free : w.core.lock (.own p) = .unlocked := by
        rw [h.lock, now, if_neg absent]
      have holds := checks.1
      simp [Core.holding, free, Spinlock.unlocked] at holds
    rw [only, List.mem_singleton] at mem
    rw [only, mem]
  have allowed : w.Allowed (.sched .sleeping) := ⟨p, on, own, by decide⟩
  refine ⟨?_, h.of_step ⟨allowed, run⟩, own⟩
  rw [h.sched_run on own (by decide)] at run
  cases run
  rfl

/-- What a step of the CPU leaves of a process that is not on it. -/
structure Leaves (w w' : World (Fin n) (Option κ)) (q : Fin n) : Prop where
  held : (∃ o, w.ctx q = .sched o) → w'.held (some q) = w.held (some q)
  ctx : w'.ctx q = w.ctx q
  asleep : w'.core.state q = .sleeping → w.core.state q = .sleeping ∧ w'.on ≠ .run q

omit [DecidableEq κ] in
theorem thread_ne (off : w.on ≠ .run q) : some q ≠ w.thread := by
  unfold World.thread
  split
  next p hp =>
    intro same
    exact off (hp.trans (congrArg On.run (Option.some.inj same).symm))
  next => exact nofun

theorem leaves_of_step (h : w.Nested) (step : World.Step w a w') (off : w.on ≠ .run q)
    (state : ∀ r st, a ≠ .setState r st) (new : ∀ r, a ≠ .create r) : Leaves w w' q := by
  obtain ⟨allowed, run⟩ := step
  cases a with
  | acquire l =>
    rw [h.acquire_run allowed.1 allowed.2] at run
    cases run
    exact ⟨fun _ => Function.update_of_ne (thread_ne off) .., rfl, fun sleeping => ⟨sleeping, off⟩⟩
  | release l =>
    rw [h.release_run allowed.1 allowed.2] at run
    cases run
    exact ⟨fun _ => Function.update_of_ne (thread_ne off) .., rfl, fun sleeping => ⟨sleeping, off⟩⟩
  | setIntr b =>
    cases run
    exact ⟨fun _ => rfl, rfl, fun sleeping => ⟨sleeping, off⟩⟩
  | sched st =>
    obtain ⟨p, on, own, leaves⟩ := allowed
    rw [h.sched_run on own leaves] at run
    cases run
    have hq : q ≠ p := fun same => off (same ▸ on)
    refine ⟨fun _ => rfl, Function.update_of_ne hq .., fun sleeping => ⟨?_, nofun⟩⟩
    exact (Function.update_of_ne hq ..).symm.trans sleeping
  | back =>
    obtain ⟨p, on⟩ := allowed
    rw [h.back_run on] at run
    cases run
    exact ⟨fun _ => rfl, rfl, fun sleeping => ⟨sleeping, nofun⟩⟩
  | dispatch r =>
    rw [h.dispatch_run allowed.1 allowed.2] at run
    cases run
    have on : (w.entered r).on = .run r := by
      unfold World.entered
      split <;> rfl
    have states : (w.entered r).core.state = Function.update w.core.state r .running := by
      unfold World.entered
      split <;> rfl
    refine ⟨?_, ?_, ?_⟩
    · rintro ⟨o, saved⟩
      unfold World.entered
      split
      next => rfl
      next fresh =>
        refine Function.update_of_ne ?_ ..
        rintro same
        rw [← Option.some.inj same, saved] at fresh
        cases fresh
    · unfold World.entered
      split <;> rfl
    · intro sleeping
      rw [states] at sleeping
      rw [on]
      by_cases hq : q = r
      · rw [hq, Function.update_self] at sleeping
        cases sleeping
      · rw [Function.update_of_ne hq] at sleeping
        exact ⟨sleeping, fun same => hq (On.run.inj same).symm⟩
  | setState r st => exact absurd rfl (state r st)
  | create r => exact absurd rfl (new r)

end Acts

section Invariant

variable {s s' : Sleepers n κ} {p q r : Fin n} {c : Pc n}

/-- A process below `proc_sched` in `proc_sleep`. -/
structure Below (s : Sleepers n κ) (p : Fin n) : Prop where
  asleep : s.pc p = .asleep
  held : s.world.held (some p) = [.own p]
  saved : ∃ o, s.world.ctx p = .sched o

/-- A process that holds locks in the functions of the sleep lock is on the CPU and is not
    interrupted, or it is below `proc_sched`. -/
structure Placed (s : Sleepers n κ) : Prop where
  nested : s.world.Nested
  locks : ∀ p, ∀ l ∈ (s.pc p).locks p, l ∈ s.world.held (some p)
  here : ∀ p, ((s.pc p).locks p : List (LockName (Fin n) (Option κ))) ≠ [] →
    s.trap p = false ∧ (s.world.on = .run p ∨ Below s p)

/-- At most one process has the lock, and where processes sleep on it, one has it or wakes them. -/
structure Granted (s : Sleepers n κ) : Prop where
  owner : ∀ p, (s.pc p).Owner → s.slk.locked = true ∧ s.slk.pid = s.pid p
  unique : ∀ p q, (s.pc p).Owner → (s.pc q).Owner → p = q
  owned : s.slk.locked = true → ∃ p, (s.pc p).Owner
  about : ∀ p, (s.pc p).About → s.slk.locked = true
  sleeps : ∀ q, s.SleepsOn q → s.world.on ≠ .run q ∧
    (s.slk.locked = true ∨ ∃ p, (s.pc p).Wakes q)

/-- Steps after which the processes are where they were. -/
theorem Placed.keep (h : Placed s) (nested : s'.world.Nested) (pc : s'.pc = s.pc)
    (same : ∀ p, ((s.pc p).locks p : List (LockName (Fin n) (Option κ))) ≠ [] →
      s'.trap p = s.trap p ∧ s'.world.held (some p) = s.world.held (some p) ∧
        s'.world.ctx p = s.world.ctx p ∧ (s.world.on = .run p → s'.world.on = .run p)) :
    Placed s' := by
  refine ⟨nested, fun p l hl => ?_, fun p hp => ?_⟩
  · rw [pc] at hl
    rw [(same p (List.ne_nil_of_mem hl)).2.1]
    exact h.locks p l hl
  · rw [pc] at hp
    obtain ⟨trap, held, ctx, on⟩ := same p hp
    obtain ⟨here, place⟩ := h.here p hp
    refine ⟨trap.trans here, place.imp on fun below => ⟨?_, ?_, ?_⟩⟩
    · rw [pc]
      exact below.asleep
    · rw [held]
      exact below.held
    · rw [ctx]
      exact below.saved

omit [DecidableEq κ] in
theorem Granted.keep (h : Granted s) (pc : s'.pc = s.pc) (slk : s'.slk = s.slk)
    (pid : ∀ p, (s.pc p).Owner → s'.pid p = s.pid p)
    (sleeps : ∀ q, s'.SleepsOn q → s.SleepsOn q ∧ s'.world.on ≠ .run q) : Granted s' := by
  refine ⟨fun p hp => ?_, ?_, ?_, ?_, fun q hq => ?_⟩
  · rw [pc] at hp
    rw [slk, pid p hp]
    exact h.owner p hp
  · rw [pc]
    exact h.unique
  · rw [pc, slk]
    exact h.owned
  · rw [pc, slk]
    exact h.about
  · obtain ⟨before, off⟩ := sleeps q hq
    rw [pc, slk]
    exact ⟨off, (h.sleeps q before).2⟩

/-- The process on the CPU goes on to the place `c`. -/
theorem Placed.move (h : Placed s) (on : s.world.on = .run p) (here : s.trap p = false)
    (nested : s'.world.Nested) (pc : s'.pc = Function.update s.pc p c) (trap : s'.trap = s.trap)
    (others : ∀ q, q ≠ p → s'.world.held (some q) = s.world.held (some q) ∧
      s'.world.ctx q = s.world.ctx q)
    (locks : ∀ l ∈ c.locks p, l ∈ s'.world.held (some p))
    (place : s'.world.on = .run p ∨ Below s' p) : Placed s' := by
  refine ⟨nested, fun q l hl => ?_, fun q hq => ?_⟩
  · by_cases hqp : q = p
    · rw [pc, hqp, Function.update_self] at hl
      rw [hqp]
      exact locks l hl
    · rw [pc, Function.update_of_ne hqp] at hl
      rw [(others q hqp).1]
      exact h.locks q l hl
  · by_cases hqp : q = p
    · rw [hqp, trap]
      exact ⟨here, place⟩
    · rw [pc, Function.update_of_ne hqp] at hq
      obtain ⟨here', other⟩ := h.here q hq
      rw [on] at other
      have below := other.resolve_left fun same => hqp (On.run.inj same).symm
      obtain ⟨held, ctx⟩ := others q hqp
      rw [trap]
      refine ⟨here', Or.inr ⟨?_, ?_, ?_⟩⟩
      · rw [pc, Function.update_of_ne hqp]
        exact below.asleep
      · rw [held]
        exact below.held
      · rw [ctx]
        exact below.saved

/-- Only the process on the CPU is in the functions and awake with a lock. -/
theorem Placed.only (h : Placed s) (on : s.world.on = .run p)
    (holds : ((s.pc q).locks q : List (LockName (Fin n) (Option κ))) ≠ [])
    (awake : s.pc q ≠ .asleep) : q = p := by
  obtain ⟨-, same | below⟩ := h.here q holds
  · rw [on] at same
    exact (On.run.inj same).symm
  · exact absurd below.asleep awake

theorem Placed.waker (h : Placed s) (on : s.world.on = .run p) (wakes : (s.pc q).Wakes r) :
    q = p := by
  cases hq : s.pc q with
  | waking k => exact h.only on (by rw [hq]; exact List.cons_ne_nil _ _) (by rw [hq]; exact nofun)
  | checking k => exact h.only on (by rw [hq]; exact List.cons_ne_nil _ _) (by rw [hq]; exact nofun)
  | _ =>
    rw [hq] at wakes
    exact wakes.elim

theorem Placed.sleeper (h : Placed s) (on : s.world.on = .run p) (about : (s.pc q).About) :
    q = p := by
  cases hq : s.pc q with
  | handing => exact h.only on (by rw [hq]; exact List.cons_ne_nil _ _) (by rw [hq]; exact nofun)
  | dozing => exact h.only on (by rw [hq]; exact List.cons_ne_nil _ _) (by rw [hq]; exact nofun)
  | _ =>
    rw [hq] at about
    exact about.elim

theorem Granted.move (h : Granted s) (placed : Placed s) (on : s.world.on = .run p)
    (pc : s'.pc = Function.update s.pc p c) (slk : s'.slk = s.slk) (pid : s'.pid = s.pid)
    (owner : c.Owner ↔ (s.pc p).Owner) (about : c.About → s.slk.locked = true)
    (sleeps : ∀ q, s'.SleepsOn q → s'.world.on ≠ .run q ∧ (s.slk.locked = true ∨
      s.SleepsOn q ∧ ((s.pc p).Wakes q → c.Wakes q))) : Granted s' := by
  have owners : ∀ q, (s'.pc q).Owner ↔ (s.pc q).Owner := by
    intro q
    rw [pc]
    by_cases hq : q = p
    · rw [hq, Function.update_self]
      exact owner
    · rw [Function.update_of_ne hq]
  refine ⟨fun q hq => ?_, fun q r hq hr => ?_, fun locked => ?_, fun q hq => ?_, fun q hq => ?_⟩
  · rw [slk, pid]
    exact h.owner q ((owners q).mp hq)
  · exact h.unique q r ((owners q).mp hq) ((owners r).mp hr)
  · rw [slk] at locked
    obtain ⟨q, hq⟩ := h.owned locked
    exact ⟨q, (owners q).mpr hq⟩
  · rw [slk]
    rw [pc] at hq
    by_cases hqp : q = p
    · rw [hqp, Function.update_self] at hq
      exact about hq
    · rw [Function.update_of_ne hqp] at hq
      exact h.about q hq
  · obtain ⟨off, locked | ⟨before, still⟩⟩ := sleeps q hq
    · rw [slk]
      exact ⟨off, Or.inl locked⟩
    · rw [slk]
      refine ⟨off, (h.sleeps q before).2.imp id ?_⟩
      rintro ⟨r, wakes⟩
      obtain rfl := placed.waker on wakes
      refine ⟨r, ?_⟩
      rw [pc, Function.update_self]
      exact still wakes

structure Sound (s : Sleepers n κ) : Prop where
  placed : Placed s
  granted : Granted s

/-- The process on the CPU goes on to the place `c`, and stays on the CPU. -/
theorem Sound.go (h : Sound s) (on : s.world.on = .run p) (here : s.trap p = false)
    {w : World (Fin n) (Option κ)} {space : Fin n → Space} (nested : w.Nested) (on' : w.on = .run p)
    (held : ∀ q, q ≠ p → w.held (some q) = s.world.held (some q)) (ctx : w.ctx = s.world.ctx)
    (state : ∀ q, w.core.state q = .sleeping → s.world.core.state q = .sleeping)
    (spaces : ∀ q, space q = .slk → s.sleepSpace q = .slk)
    (locks : ∀ l ∈ c.locks p, l ∈ w.held (some p)) (owner : c.Owner ↔ (s.pc p).Owner)
    (about : c.About → s.slk.locked = true)
    (wakes : ∀ q, w.core.state q = .sleeping → space q = .slk → q ≠ p → (s.pc p).Wakes q →
      c.Wakes q) :
    Sound { s with world := w, sleepSpace := space, pc := Function.update s.pc p c } := by
  refine ⟨h.placed.move on here nested rfl rfl (fun q hq => ⟨held q hq, congrFun ctx q⟩) locks
    (Or.inl on'), h.granted.move h.placed on rfl rfl rfl owner about ?_⟩
  rintro q ⟨sleeping, there⟩
  have before : s.SleepsOn q := ⟨state q sleeping, spaces q there⟩
  have off := (h.granted.sleeps q before).1
  rw [on] at off
  have hq : q ≠ p := fun same => off (congrArg On.run same.symm)
  refine ⟨?_, Or.inr ⟨before, wakes q sleeping there hq⟩⟩
  dsimp only
  rw [on']
  exact off

/-- It does so with one more lock. -/
theorem Sound.take (h : Sound s) (on : s.world.on = .run p) (here : s.trap p = false)
    {l : LockName (Fin n) (Option κ)} {w : World (Fin n) (Option κ)}
    (run : (World.perform (.acquire l)).run s.world = .ok () w)
    (locks : ∀ k ∈ c.locks p, k ≠ l → k ∈ (s.pc p).locks p) (owner : c.Owner ↔ (s.pc p).Owner)
    (about : c.About → s.slk.locked = true)
    (wakes : ∀ q, q ≠ p → (s.pc p).Wakes q → c.Wakes q) :
    Sound { s with world := w, pc := Function.update s.pc p c } := by
  obtain ⟨rfl, nested⟩ := acquire_ok h.placed.nested on run
  have thread := World.thread_of_run on
  have self : (s.world.taken l).held (some p) = l :: s.world.held (some p) := by
    change Function.update s.world.held s.world.thread _ _ = _
    rw [thread, Function.update_self]
  refine h.go on here nested on (fun q hq => ?_) rfl (fun q hq => hq) (fun q hq => hq)
    (fun k hk => ?_) owner about fun q _ _ hq => wakes q hq
  · change Function.update s.world.held s.world.thread _ _ = _
    rw [thread, Function.update_of_ne fun same => hq (Option.some.inj same)]
  · rw [self]
    by_cases hkl : k = l
    · rw [hkl]
      exact List.mem_cons_self
    · exact List.mem_cons_of_mem _ (h.placed.locks p k (locks k hk hkl))

/-- It does so with one lock less. -/
theorem Sound.give (h : Sound s) (on : s.world.on = .run p) (here : s.trap p = false)
    {l : LockName (Fin n) (Option κ)} {w : World (Fin n) (Option κ)} {space : Fin n → Space}
    (run : (World.perform (.release l)).run s.world = .ok () w)
    (spaces : ∀ q, space q = .slk → s.sleepSpace q = .slk)
    (locks : ∀ k ∈ c.locks p, k ≠ l ∧ k ∈ (s.pc p).locks p) (owner : c.Owner ↔ (s.pc p).Owner)
    (about : c.About → s.slk.locked = true)
    (wakes : ∀ q, s.world.core.state q = .sleeping → space q = .slk → q ≠ p → (s.pc p).Wakes q →
      c.Wakes q) :
    Sound { s with world := w, sleepSpace := space, pc := Function.update s.pc p c } := by
  obtain ⟨rfl, nested⟩ := release_ok h.placed.nested on run
  have thread := World.thread_of_run on
  have self : (s.world.given l).held (some p) = (s.world.held (some p)).erase l := by
    change Function.update s.world.held s.world.thread _ _ = _
    rw [thread, Function.update_self]
  refine h.go on here nested on (fun q hq => ?_) rfl (fun q hq => hq) spaces
    (fun k hk => ?_) owner about wakes
  · change Function.update s.world.held s.world.thread _ _ = _
    rw [thread, Function.update_of_ne fun same => hq (Option.some.inj same)]
  · obtain ⟨hkl, held⟩ := locks k hk
    rw [self]
    exact (List.mem_erase_of_ne hkl).mpr (h.placed.locks p k held)

omit [DecidableEq κ] in
/-- A process takes the sleep lock. -/
theorem Granted.grant (h : Granted s) (free : s.slk.locked = false)
    (pc : s'.pc = Function.update s.pc p c) (slk : s'.slk = ⟨true, s.pid p⟩) (pid : s'.pid = s.pid)
    (owner : c.Owner) (off : ∀ q, s'.SleepsOn q → s'.world.on ≠ .run q) : Granted s' := by
  have only : ∀ q, (s'.pc q).Owner → q = p := by
    intro q hq
    by_contra hqp
    rw [pc, Function.update_of_ne hqp] at hq
    have locked := (h.owner q hq).1
    rw [free] at locked
    cases locked
  refine ⟨fun q hq => ?_, fun q r hq hr => ?_, fun _ => ⟨p, ?_⟩, fun _ _ => ?_, fun q hq => ?_⟩
  · rw [only q hq, slk, pid]
    exact ⟨rfl, rfl⟩
  · rw [only q hq, only r hr]
  · rw [pc, Function.update_self]
    exact owner
  · rw [slk]
  · rw [slk]
    exact ⟨off q hq, Or.inl rfl⟩

/-- The process that has the sleep lock gives it up, and begins to wake those that sleep on it. -/
theorem Granted.clear (h : Granted s) (placed : Placed s) (on : s.world.on = .run p)
    (had : (s.pc p).Owner) (pc : s'.pc = Function.update s.pc p (.waking 0))
    (slk : s'.slk.locked = false) (off : ∀ q, s'.SleepsOn q → s'.world.on ≠ .run q) :
    Granted s' := by
  have none : ∀ q, ¬ (s'.pc q).Owner := by
    intro q hq
    by_cases hqp : q = p
    · rw [pc, hqp, Function.update_self] at hq
      exact hq
    · rw [pc, Function.update_of_ne hqp] at hq
      exact hqp (h.unique q p hq had)
  refine ⟨fun q hq => absurd hq (none q), fun q r hq => absurd hq (none q), fun locked => ?_,
    fun q hq => ?_, fun q hq => ⟨off q hq, Or.inr ⟨p, ?_⟩⟩⟩
  · rw [slk] at locked
    cases locked
  · by_cases hqp : q = p
    · rw [pc, hqp, Function.update_self] at hq
      exact hq.elim
    · rw [pc, Function.update_of_ne hqp] at hq
      exact absurd (placed.sleeper on hq) hqp
  · rw [pc, Function.update_self]
    exact Nat.zero_le _

theorem act_ok {a : Act (Fin n) (Option κ)} (run : (act a).run s = .ok () s') :
    ∃ w, (World.perform a).run s.world = .ok () w ∧ s' = { s with world := w } := by
  unfold act at run
  exact (Comp.zoom_ok_iff ..).mp run

/-- An act, and the place after it. -/
theorem act_goto_ok {a : Act (Fin n) (Option κ)}
    (run : (act a >>= fun _ => goto p c).run s = .ok () s') :
    ∃ w, (World.perform a).run s.world = .ok () w ∧
      s' = { s with world := w, pc := Function.update s.pc p c } := by
  obtain ⟨⟨⟩, t, first, rest⟩ := (Comp.bind_ok_iff ..).mp run
  obtain ⟨w, performed, rfl⟩ := act_ok first
  cases rest
  exact ⟨w, performed, rfl⟩

theorem Sound.test (h : Sound s) (on : s.world.on = .run p) (here : s.trap p = false)
    (pc : s.pc p = .testing) (run : (test p).run s = .ok () s') : Sound s' := by
  unfold Sleepers.test at run
  rw [Comp.bind_get_run] at run
  by_cases locked : s.slk.locked = true
  · rw [if_pos locked] at run
    obtain ⟨w, performed, rfl⟩ := act_goto_ok run
    refine h.take on here performed ?_ ?_ (fun _ => locked) ?_ <;> rw [pc]
    · intro k hk other
      rcases List.mem_cons.mp hk with rfl | hk
      · exact absurd rfl other
      · exact hk
    · exact Iff.rfl
    · exact fun _ _ wakes => wakes
  · rw [if_neg locked, Comp.bind_modify_run] at run
    obtain ⟨w, performed, rfl⟩ := act_goto_ok run
    obtain ⟨rfl, nested⟩ := release_ok h.placed.nested on performed
    have thread := World.thread_of_run on
    refine ⟨h.placed.move on here nested rfl rfl (fun q hq => ⟨?_, rfl⟩) nofun (Or.inl on),
      h.granted.grant (Bool.eq_false_iff.mpr locked) rfl rfl rfl trivial
        fun q hq => (h.granted.sleeps q hq).1⟩
    change Function.update s.world.held s.world.thread _ _ = _
    rw [thread, Function.update_of_ne fun same => hq (Option.some.inj same)]

/-- The process sleeps, with the sleep lock taken by another one. -/
theorem Sound.doze (h : Sound s) (on : s.world.on = .run p) (here : s.trap p = false)
    (pc : s.pc p = .dozing) (run : (code p .dozing).run s = .ok () s') : Sound s' := by
  unfold code setSpace at run
  rw [Comp.bind_modify_run] at run
  obtain ⟨w, performed, rfl⟩ := act_goto_ok run
  obtain ⟨rfl, nested, own⟩ := sched_ok h.placed.nested on performed
  have locked := h.granted.about p (by rw [pc]; trivial)
  refine ⟨h.placed.move on here nested rfl rfl (fun q hq => ⟨rfl, Function.update_of_ne hq ..⟩) ?_
    (Or.inr ⟨Function.update_self .., own, _, Function.update_self ..⟩), ?_⟩
  · intro l hl
    rw [List.mem_singleton.mp hl]
    change _ ∈ s.world.held (some p)
    rw [own]
    exact List.mem_cons_self
  · refine h.granted.move h.placed on rfl rfl rfl ?_ nofun fun q _ => ⟨nofun, Or.inl locked⟩
    rw [pc]
    exact Iff.rfl

/-- The state of a process is set, not to SLEEPING: it is killed or woken. -/
theorem Sound.rouse {st : ProcState} (h : Sound s) (awake : st ≠ .sleeping)
    (world : s'.world = s.setState q st) (pc : s'.pc = s.pc) (slk : s'.slk = s.slk)
    (pid : s'.pid = s.pid) (trap : s'.trap = s.trap) (space : s'.sleepSpace = s.sleepSpace) :
    Sound s' := by
  have nested : (s.setState q st).Nested :=
    h.placed.nested.frame rfl rfl rfl (Or.inl rfl) fun _ _ saved _ => saved
  refine ⟨h.placed.keep (world ▸ nested) pc fun p _ => ?_, h.granted.keep pc slk
    (fun p _ => congrFun pid p) fun r hr => ?_⟩
  · rw [trap, world]
    exact ⟨rfl, rfl, rfl, id⟩
  · have before : s.SleepsOn r := by
      obtain ⟨sleeping, there⟩ := hr
      rw [world] at sleeping
      rw [space] at there
      refine ⟨?_, there⟩
      change Function.update s.world.core.state q st r = _ at sleeping
      by_cases hrq : r = q
      · rw [hrq, Function.update_self] at sleeping
        exact absurd sleeping awake
      · rwa [Function.update_of_ne hrq] at sleeping
    rw [world]
    exact ⟨before, (h.granted.sleeps r before).1⟩

theorem Sound.check {k : Fin n} (h : Sound s) (on : s.world.on = .run p) (here : s.trap p = false)
    (pc : s.pc p = .checking k) (run : (check p k).run s = .ok () s') : Sound s' := by
  unfold Sleepers.check at run
  rw [Comp.bind_get_run] at run
  have later : ∀ q, q ≠ k → (Pc.checking k).Wakes q → (Pc.waking (n := n) (k + 1)).Wakes q := by
    intro q hq le
    have ne : (k : ℕ) ≠ q := fun same => hq (Fin.ext same.symm)
    change (k : ℕ) + 1 ≤ q
    have le' : (k : ℕ) ≤ q := le
    omega
  have kept : ∀ l ∈ (Pc.waking (n := n) (k + 1)).locks p, l ≠ .own k ∧
      l ∈ ((Pc.checking k).locks p : List (LockName (Fin n) (Option κ))) := by
    intro l hl
    rw [List.mem_singleton.mp hl]
    exact ⟨nofun, List.mem_cons_of_mem _ List.mem_cons_self⟩
  by_cases sleeps : s.world.core.state k = .sleeping ∧ s.sleepSpace k = .slk
  · rw [if_pos sleeps] at run
    obtain ⟨⟨⟩, t, first, rest⟩ := (Comp.bind_ok_iff ..).mp run
    obtain ⟨w, performed, rfl⟩ := act_ok first
    cases performed
    have woken : Sound { s with world := s.setState k .runnable } :=
      h.rouse (by decide) rfl rfl rfl rfl rfl rfl
    obtain ⟨w, performed, rfl⟩ := act_goto_ok rest
    refine woken.give on here performed (fun q hq => hq) ?_ ?_ nofun ?_ <;>
      rw [show Sleepers.pc { s with world := s.setState k .runnable } p = .checking k from pc]
    · exact kept
    · exact Iff.rfl
    · intro q sleeping _ _ wakes
      refine later q ?_ wakes
      rintro rfl
      change Function.update s.world.core.state q .runnable q = _ at sleeping
      rw [Function.update_self] at sleeping
      cases sleeping
  · rw [if_neg sleeps] at run
    obtain ⟨w, performed, rfl⟩ := act_goto_ok run
    refine h.give on here performed (fun q hq => hq) ?_ ?_ nofun ?_ <;> rw [pc]
    · exact kept
    · exact Iff.rfl
    · intro q sleeping there _ wakes
      refine later q ?_ wakes
      rintro rfl
      exact sleeps ⟨sleeping, there⟩

theorem Sound.wake {k : ℕ} (h : Sound s) (on : s.world.on = .run p) (here : s.trap p = false)
    (pc : s.pc p = .waking k) (run : (wake p k).run s = .ok () s') : Sound s' := by
  unfold Sleepers.wake at run
  by_cases hk : k < n
  · rw [dif_pos hk] at run
    have later : ∀ q : Fin n, q.val ≠ k → (Pc.waking (n := n) k).Wakes q →
        (Pc.waking (n := n) (k + 1)).Wakes q := by
      intro q hq le
      have le' : k ≤ q.val := le
      change k + 1 ≤ q.val
      omega
    by_cases self : (⟨k, hk⟩ : Fin n) = p
    · rw [if_pos self] at run
      cases run
      refine h.go on here h.placed.nested on (fun _ _ => rfl) rfl (fun q hq => hq)
        (fun q hq => hq) ?_ ?_ nofun ?_
      · intro l hl
        refine h.placed.locks p l ?_
        rw [pc]
        exact hl
      · rw [pc]
        exact Iff.rfl
      · rw [pc]
        intro q _ _ hq wakes
        refine later q (fun same => hq ?_) wakes
        rw [← self]
        exact Fin.ext same
    · rw [if_neg self] at run
      obtain ⟨w, performed, rfl⟩ := act_goto_ok run
      refine h.take on here performed ?_ ?_ nofun ?_ <;> rw [pc]
      · intro l hl other
        rcases List.mem_cons.mp hl with same | hl
        · exact absurd same other
        · exact hl
      · exact Iff.rfl
      · exact fun _ _ wakes => wakes
  · rw [dif_neg hk] at run
    obtain ⟨w, performed, rfl⟩ := act_goto_ok run
    refine h.give on here performed (fun q hq => hq) nofun ?_ nofun ?_ <;> rw [pc]
    · exact Iff.rfl
    · intro q _ _ _ wakes
      have le : k ≤ q.val := wakes
      omega

/-- Every step of the functions of the sleep lock. -/
theorem Sound.code (h : Sound s) (on : s.world.on = .run p) (here : s.trap p = false)
    (run : (code p (s.pc p)).run s = .ok () s') : Sound s' := by
  cases pc : s.pc p with
  | outside =>
    rw [pc] at run
    cases run
  | inside =>
    rw [pc] at run
    cases run
  | acquiring =>
    rw [pc] at run
    obtain ⟨w, performed, rfl⟩ := act_goto_ok run
    refine h.take on here performed ?_ ?_ nofun ?_ <;> rw [pc]
    · intro k hk other
      exact absurd (List.mem_singleton.mp hk) other
    · exact Iff.rfl
    · exact fun _ _ wakes => wakes
  | testing =>
    rw [pc] at run
    exact h.test on here pc run
  | handing =>
    rw [pc] at run
    obtain ⟨w, performed, rfl⟩ := act_goto_ok run
    have locked := h.granted.about p (by rw [pc]; trivial)
    refine h.give on here performed (fun q hq => hq) ?_ ?_ (fun _ => locked) ?_ <;> rw [pc]
    · intro k hk
      rw [List.mem_singleton.mp hk]
      exact ⟨nofun, List.mem_cons_self⟩
    · exact Iff.rfl
    · exact fun _ _ _ _ wakes => wakes
  | dozing =>
    rw [pc] at run
    exact h.doze on here pc run
  | asleep =>
    rw [pc] at run
    unfold Sleepers.code setSpace at run
    rw [Comp.bind_modify_run] at run
    obtain ⟨w, performed, rfl⟩ := act_goto_ok run
    refine h.give on here performed (fun q hq => ?_) nofun ?_ nofun ?_
    · change Function.update s.sleepSpace p .null q = _ at hq
      by_cases hqp : q = p
      · rw [hqp, Function.update_self] at hq
        cases hq
      · rwa [Function.update_of_ne hqp] at hq
    · rw [pc]
      exact Iff.rfl
    · rw [pc]
      exact fun _ _ _ _ wakes => wakes
  | releasing =>
    rw [pc] at run
    obtain ⟨w, performed, rfl⟩ := act_goto_ok run
    refine h.take on here performed ?_ ?_ nofun ?_ <;> rw [pc]
    · intro k hk other
      exact absurd (List.mem_singleton.mp hk) other
    · exact Iff.rfl
    · exact fun _ _ wakes => wakes
  | clearing =>
    rw [pc] at run
    cases run
    refine ⟨h.placed.move on here h.placed.nested rfl rfl (fun _ _ => ⟨rfl, rfl⟩) ?_ (Or.inl on),
      h.granted.clear h.placed on (by rw [pc]; trivial) rfl rfl
        fun q hq => (h.granted.sleeps q hq).1⟩
    intro l hl
    refine h.placed.locks p l ?_
    rw [pc]
    exact hl
  | waking k =>
    rw [pc] at run
    exact h.wake on here pc run
  | checking k =>
    rw [pc] at run
    exact h.check on here pc run

/-- A step of other code: what it does not do on the CPU, and who is there. -/
theorem Sound.world (h : Sound s) {a : Act (Fin n) (Option κ)} {w : World (Fin n) (Option κ)}
    (foreign : s.Foreign a) (step : World.Step s.world a w)
    (free : ∀ p, s.world.on = .run p →
      ((s.pc p).locks p : List (LockName (Fin n) (Option κ))) = [])
    (world : s'.world = w) (pc : s'.pc = s.pc) (slk : s'.slk = s.slk) (pid : s'.pid = s.pid)
    (trap : s'.trap = s.trap)
    (sleeps : ∀ q, s'.SleepsOn q → s.world.on ≠ .run q ∧ s'.sleepSpace q = s.sleepSpace q) :
    Sound s' := by
  have state : ∀ r st, a ≠ .setState r st := by
    rintro r st rfl
    exact foreign
  have new : ∀ r, a ≠ .create r := by
    rintro r rfl
    exact foreign
  refine ⟨h.placed.keep (world ▸ h.placed.nested.of_step step) pc fun q holds => ?_,
    h.granted.keep pc slk (fun p _ => congrFun pid p) fun q hq => ?_⟩
  · have off : s.world.on ≠ .run q := fun on => holds (free q on)
    have leaves := leaves_of_step h.placed.nested step off state new
    have below := (h.placed.here q holds).2.resolve_left off
    rw [trap, world]
    exact ⟨rfl, leaves.held below.saved, leaves.ctx, fun on => absurd on off⟩
  · obtain ⟨off, space⟩ := sleeps q hq
    obtain ⟨sleeping, there⟩ := hq
    have leaves := leaves_of_step h.placed.nested step off state new
    rw [world] at sleeping
    rw [space] at there
    rw [world]
    exact ⟨⟨(leaves.asleep sleeping).1, there⟩, (leaves.asleep sleeping).2⟩

theorem Sound.noLocks (h : Sound s) (free : s.Free p) :
    ((s.pc p).locks p : List (LockName (Fin n) (Option κ))) = [] := by
  rcases free with trap | out | inside
  · by_contra holds
    have here := (h.placed.here p holds).1
    rw [trap] at here
    cases here
  · rw [out]
    rfl
  · rw [inside]
    rfl

theorem Sound.step {e : Event n κ} (h : Sound s) (step : Step s e s') : Sound s' := by
  cases step with
  | code on here run => exact h.code on here run
  | acquire on here pc =>
    refine h.go on here h.placed.nested on (fun _ _ => rfl) rfl (fun q hq => hq) (fun q hq => hq)
      nofun ?_ nofun ?_ <;> rw [pc]
    · exact Iff.rfl
    · exact fun _ _ _ _ wakes => wakes
  | release on here pc =>
    refine h.go on here h.placed.nested on (fun _ _ => rfl) rfl (fun q hq => hq) (fun q hq => hq)
      nofun ?_ nofun ?_ <;> rw [pc]
    · exact Iff.rfl
    · exact fun _ _ _ _ wakes => wakes
  | @interrupt p on here enabled =>
    -- interrupts are on, so no lock is held
    have none : s.world.now = [] := by
      by_contra held
      rw [h.placed.nested.intr held] at enabled
      cases enabled
    have nested : (s.setIntr false).Nested :=
      h.placed.nested.frame rfl rfl rfl (Or.inr none) fun _ _ saved _ => saved
    refine ⟨h.placed.keep nested rfl fun q holds => ⟨?_, rfl, rfl, id⟩, h.granted.keep rfl rfl
      (fun _ _ => rfl) fun q hq => ⟨hq, (h.granted.sleeps q hq).1⟩⟩
    refine Function.update_of_ne ?_ ..
    rintro rfl
    obtain ⟨l, hl⟩ := List.exists_mem_of_ne_nil _ holds
    have held := h.placed.locks q l hl
    rw [← World.now_of_run on, none] at held
    cases held
  | @resume p on there done =>
    have none : s.world.now = [] := (World.now_of_run on).trans done
    have nested : (s.setIntr true).Nested :=
      h.placed.nested.frame rfl rfl rfl (Or.inr none) fun _ _ saved _ => saved
    refine ⟨h.placed.keep nested rfl fun q holds => ⟨?_, rfl, rfl, id⟩, h.granted.keep rfl rfl
      (fun _ _ => rfl) fun q hq => ⟨hq, (h.granted.sleeps q hq).1⟩⟩
    refine Function.update_of_ne ?_ ..
    rintro rfl
    rw [(h.placed.here q holds).1] at there
    cases there
  | @own p a w x on free foreign step space =>
    refine h.world foreign step (fun q hq => ?_) rfl rfl rfl rfl rfl fun q hq => ?_
    · rw [on] at hq
      obtain rfl := On.run.inj hq
      exact h.noLocks free
    · have hqp : q ≠ p := by
        rintro rfl
        obtain ⟨-, there⟩ := hq
        change Function.update s.sleepSpace q x q = _ at there
        rw [Function.update_self] at there
        exact space there
      rw [on]
      exact ⟨fun same => hqp (On.run.inj same).symm, Function.update_of_ne hqp ..⟩
  | scheduler on foreign step =>
    exact h.world foreign step (fun p hp => absurd hp (on p)) rfl rfl rfl rfl rfl
      fun q _ => ⟨on q, rfl⟩
  | kill q =>
    refine h.rouse ?_ rfl rfl rfl rfl rfl rfl
    split
    next => decide
    next awake => exact awake
  | wake state space => exact h.rouse (by decide) rfl rfl rfl rfl rfl rfl
  | @create q w pid on pc step =>
    have nested : (s.setState q .runnable).Nested :=
      h.placed.nested.frame rfl rfl rfl (Or.inl rfl) fun _ _ saved _ => saved
    have nested' := nested.of_step step
    obtain ⟨-, run⟩ := step
    cases run
    have away : ∀ r, ((s.pc r).locks r : List (LockName (Fin n) (Option κ))) ≠ [] → r ≠ q := by
      rintro r holds rfl
      rw [pc] at holds
      exact holds rfl
    refine ⟨h.placed.keep nested' rfl fun r holds => ?_, h.granted.keep rfl rfl (fun r owner => ?_)
      fun r hr => ?_⟩
    · exact ⟨Function.update_of_ne (away r holds) .., rfl, Function.update_of_ne (away r holds) .., id⟩
    · refine Function.update_of_ne ?_ ..
      rintro rfl
      rw [pc] at owner
      exact owner
    · obtain ⟨sleeping, there⟩ := hr
      change Function.update s.sleepSpace q .null r = _ at there
      have hrq : r ≠ q := by
        rintro rfl
        rw [Function.update_self] at there
        cases there
      rw [Function.update_of_ne hrq] at there
      change Function.update s.world.core.state q .runnable r = _ at sleeping
      rw [Function.update_of_ne hrq] at sleeping
      exact ⟨⟨sleeping, there⟩, (h.granted.sleeps r ⟨sleeping, there⟩).1⟩

theorem start_sound (intr : Bool) (state : Fin n → ProcState) (pid : Fin n → ℤ) :
    Sound (start intr state pid : Sleepers n κ) where
  placed := ⟨World.start_nested intr state, nofun, fun _ holds => absurd rfl holds⟩
  granted := ⟨nofun, nofun, nofun, nofun, fun _ hq => by cases hq.2⟩

end Invariant

/-- In every state of every run at most one process is between its acquire and its release, the lock
    is taken exactly if there is one, and then holds its pid; and with the lock and its spinlock free
    no process is SLEEPING on it. -/
theorem sleeplock_safe (intr : Bool) (state : Fin n → ProcState) (pid : Fin n → ℤ)
    {tr : List (Event n κ × Sleepers n κ)} (run : Along Step (start intr state pid) tr)
    {s : Sleepers n κ} (now : s = final (start intr state pid) tr) :
    (∀ p q, (s.pc p).Owner → (s.pc q).Owner → p = q) ∧
    (∀ p, (s.pc p).Owner → s.slk.locked = true ∧ s.slk.pid = s.pid p) ∧
    (s.slk.locked = true → ∃ p, (s.pc p).Owner) ∧
    ((s.world.core.lock inner).locked = false → s.slk.locked = false → ∀ q, ¬ s.SleepsOn q) := by
  have sound : Sound s := by
    rw [now]
    exact run.invariant (fun _ _ _ h step => h.step step) (start_sound intr state pid)
  refine ⟨sound.granted.unique, sound.granted.owner, sound.granted.owned, fun open' free q hq => ?_⟩
  rcases (sound.granted.sleeps q hq).2 with locked | ⟨p, wakes⟩
  · rw [free] at locked
    cases locked
  · -- the process that wakes the others holds the spinlock
    have holds : inner ∈ ((s.pc p).locks p : List (LockName (Fin n) (Option κ))) ∧
        s.pc p ≠ .asleep := by
      cases hp : s.pc p with
      | waking k => exact ⟨List.mem_cons_self, nofun⟩
      | checking k => exact ⟨List.mem_cons_of_mem _ List.mem_cons_self, nofun⟩
      | _ =>
        rw [hp] at wakes
        exact wakes.elim
    have on := (sound.placed.here p (List.ne_nil_of_mem holds.1)).2.resolve_right
      fun below => holds.2 below.asleep
    have held := sound.placed.locks p _ holds.1
    rw [← World.now_of_run on] at held
    rw [sound.placed.nested.lock, if_pos held] at open'
    cases open'

section Example

/-- Two processes: the first takes the sleep lock and gives up the CPU, the second sleeps on it. -/
def contending : List (Event 2 Empty) :=
  let first : Fin 2 := ⟨0, Nat.two_pos⟩
  let second : Fin 2 := ⟨1, Nat.one_lt_two⟩
  [.scheduler (.dispatch first), .own (.release (.own first)), .acquire, .code, .code,
    .own (.acquire (.own first)), .own (.sched .runnable), .scheduler .back,
    .scheduler (.dispatch second), .own (.release (.own second)), .acquire, .code, .code, .code, .code,
    .scheduler .back]

theorem contending_run : ∃ tr : List (Event 2 Empty × Sleepers 2 Empty),
    Along Step (start true (fun _ => .runnable) fun p => p.val + 1) tr ∧
      tr.map Prod.fst = contending ∧
      (final (start true (fun _ => .runnable) fun p => p.val + 1) tr).SleepsOn 1 :=
  ⟨[(.scheduler (.dispatch 0), _), (.own (.release (.own 0)), _), (.acquire, _), (.code, _),
      (.code, _), (.own (.acquire (.own 0)), _), (.own (.sched .runnable), _), (.scheduler .back, _),
      (.scheduler (.dispatch 1), _), (.own (.release (.own 1)), _), (.acquire, _), (.code, _),
      (.code, _), (.code, _), (.code, _), (.scheduler .back, _)],
    ⟨.scheduler nofun rfl ⟨⟨rfl, rfl⟩, rfl⟩,
      .own (x := .null) rfl (Or.inr (Or.inl rfl)) nofun ⟨⟨nofun, List.mem_cons_self⟩, rfl⟩ nofun,
      .acquire rfl rfl rfl, .code rfl rfl rfl, .code rfl rfl rfl,
      .own (x := .null) rfl (Or.inr (Or.inr rfl)) nofun ⟨⟨nofun, nofun⟩, rfl⟩ nofun,
      .own (x := .null) rfl (Or.inr (Or.inr rfl)) trivial ⟨⟨0, rfl, rfl, nofun⟩, rfl⟩ nofun,
      .scheduler nofun trivial ⟨⟨0, rfl⟩, rfl⟩, .scheduler nofun rfl ⟨⟨rfl, rfl⟩, rfl⟩,
      .own (x := .null) rfl (Or.inr (Or.inl rfl)) nofun ⟨⟨nofun, List.mem_cons_self⟩, rfl⟩ nofun,
      .acquire rfl rfl rfl, .code rfl rfl rfl, .code rfl rfl rfl, .code rfl rfl rfl,
      .code rfl rfl rfl, .scheduler nofun trivial ⟨⟨1, rfl⟩, rfl⟩, trivial⟩, rfl, rfl, rfl⟩

/-- While the second process sleeps, the first one has the lock. -/
theorem sleeplock_safe_contending : ∃ tr : List (Event 2 Empty × Sleepers 2 Empty),
    tr.map Prod.fst = contending ∧
    (final (start true (fun _ => .runnable) fun p => p.val + 1) tr).SleepsOn 1 ∧
    ∀ p q, ((final (start true (fun _ => .runnable) fun p => p.val + 1) tr).pc p).Owner →
      ((final (start true (fun _ => .runnable) fun p => p.val + 1) tr).pc q).Owner → p = q := by
  obtain ⟨tr, run, events, sleeps⟩ := contending_run
  exact ⟨tr, events, sleeps, (sleeplock_safe true _ _ run rfl).1⟩

end Example

end Sleepers

end EasyXv6.Sync
