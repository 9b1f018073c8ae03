import EasyXv6.Fs.Transparent
import EasyXv6.Lib.Recency

set_option autoImplicit false

/-!
# Which buffer is reused (bio.c)

The list of the buffers is in the order in which their last references were dropped. Referenced
buffers stay where they are in it.
-/
namespace EasyXv6.Fs.Bcache
open Lib

/-- The step drops the last reference to the buffer. -/
def Drops (s s' : Cached) (i : Fin NBUF) : Prop :=
  (s.cache.buf i).refcnt = 1 ∧ (s'.cache.buf i).refcnt = 0

instance (s s' : Cached) : DecidablePred (Drops s s') := fun i => by
  unfold Drops
  infer_instance

def dropped (s s' : Cached) : List (Fin NBUF) := (List.finRange NBUF).filter (Drops s s')

/-- The buffers whose last reference was dropped in a run, the latest first. -/
def releases : Cached → List (Op × Cached) → List (Fin NBUF)
  | _, [] => []
  | s, (_, s') :: rest => releases s' rest ++ dropped s s'

/-- `bunpin` is applied only to a buffer that has another reference. -/
def PinsOnly (s : Cached) (op : Op) (_ : Cached) : Prop :=
  ∀ i, op = .bunpin i → 1 < (s.cache.buf i).refcnt

section Order

variable {s s' : Cached} {op : Op} {l uses : List (Fin NBUF)} {i : Fin NBUF}

theorem dropped_none (h : ∀ i, ¬ Drops s s' i) : dropped s s' = [] := by
  unfold dropped
  rw [List.filter_eq_nil_iff]
  intro i _
  simpa using h i

theorem dropped_one (h : ∀ j, Drops s s' j ↔ j = i) : dropped s s' = [i] := by
  unfold dropped
  have same : (fun j => decide (Drops s s' j)) = fun j => decide (j = i) := by
    funext j
    exact decide_eq_decide.mpr (h j)
  rw [same, List.filter_eq, List.count_eq_one_of_mem (List.nodup_finRange NBUF) (List.mem_finRange i)]
  rfl

/-- A change of one buffer whose count does not go from 1 to 0 drops nothing. -/
theorem not_drops_modBuf {f : Buf → Buf} (cache : s'.cache = s.cache.modBuf i f)
    (keep : (s.cache.buf i).refcnt = 1 → (f (s.cache.buf i)).refcnt ≠ 0) (j : Fin NBUF) :
    ¬ Drops s s' j := by
  rintro ⟨one, zero⟩
  rw [cache] at zero
  by_cases hj : j = i
  · subst hj
    rw [modBuf_buf_self] at zero
    exact keep one zero
  · rw [modBuf_buf_of_ne _ _ hj, one] at zero
    cases zero

/-- The list and its order after a call. -/
def Sorted (s : Cached) (uses : List (Fin NBUF)) : Prop :=
  ∃ l, s.cache.Lru l ∧ ByRecency uses l

/-- A call that moves no buffer drops no last reference. -/
theorem Sorted.stay {f : Buf → Buf} (h : Sorted s uses) (cache : s'.cache = s.cache.modBuf i f)
    (keep : (s.cache.buf i).refcnt = 1 → (f (s.cache.buf i)).refcnt ≠ 0) :
    Sorted s' (dropped s s' ++ uses) := by
  obtain ⟨l, lru, sorted⟩ := h
  rw [dropped_none (not_drops_modBuf cache keep)]
  refine ⟨l, ?_, sorted⟩
  rw [cache]
  exact ⟨lru.perm, lru.cycle⟩

/-- `brelse` moves the buffer to the front exactly when it drops the last reference. -/
theorem Sorted.brelse {c : Bcache} (h : Sorted s uses) (hr : (brelse i).run s.cache = .ok () c) :
    Sorted { s with cache := c } (dropped s { s with cache := c } ++ uses) := by
  obtain ⟨pos, hc⟩ := brelse_cases hr
  by_cases last : (s.cache.buf i).refcnt = 1
  · obtain ⟨l, lru, sorted⟩ := h
    rw [last, if_pos rfl] at hc
    have buf : c.buf = (s.cache.modBuf i fun x => { x with refcnt := x.refcnt - 1 }).buf := by
      rw [hc]
      rfl
    have drops : ∀ j, Drops s { s with cache := c } j ↔ j = i := by
      intro j
      unfold Drops
      dsimp only
      rw [buf]
      by_cases hj : j = i
      · subst hj
        rw [modBuf_buf_self]
        simp [last]
      · rw [modBuf_buf_of_ne _ _ hj]
        simp only [hj, iff_false]
        rintro ⟨one, zero⟩
        rw [one] at zero
        cases zero
    rw [dropped_one drops]
    have moved : (s.cache.modBuf i fun x => { x with refcnt := x.refcnt - 1 }).Lru l :=
      ⟨lru.perm, lru.cycle⟩
    refine ⟨i :: l.erase i, ?_, sorted.use lru.nodup i⟩
    rw [hc]
    exact moved.release i
  · rw [if_neg (by omega)] at hc
    exact h.stay hc fun one => absurd one last

theorem Sorted.step (h : Sorted s uses) (hs : Step s op s') (pins : PinsOnly s op s') :
    Sorted s' (dropped s s' ++ uses) := by
  cases hs with
  | bread hr =>
    obtain ⟨l, lru, -⟩ := id h
    obtain ⟨-, x, hx, hc⟩ := bread_cases lru hr
    refine h.stay hc fun one => ?_
    cases hx with
    | hit =>
      dsimp only
      rw [one]
      decide
    | miss none free =>
      rw [free] at one
      cases one
  | @bwrite i c hr =>
    obtain ⟨-, hc⟩ := bwrite_cases hr
    have none : ∀ j, ¬ Drops s { s with cache := c, changed := Function.update s.changed i false } j := by
      rintro j ⟨one, zero⟩
      dsimp only at zero
      rw [hc] at zero
      rw [one] at zero
      cases zero
    obtain ⟨l, lru, sorted⟩ := h
    rw [dropped_none none]
    refine ⟨l, ?_, sorted⟩
    dsimp only
    rw [hc]
    exact ⟨lru.perm, lru.cycle⟩
  | brelse hr => exact h.brelse hr
  | bpin hr =>
    refine h.stay (bpin_cases hr) fun one => ?_
    dsimp only
    rw [one]
    decide
  | bunpin hr =>
    refine h.stay (bunpin_cases hr) fun one => ?_
    have shared := pins _ rfl
    rw [one] at shared
    exact absurd shared (Nat.lt_irrefl 1)
  | @store i data =>
    refine h.stay (f := fun x => { x with data := data }) rfl fun one => ?_
    dsimp only
    rw [one]
    decide

theorem Sorted.run {tr : List (Op × Cached)} (h : Sorted s uses)
    (run : Along (fun s op s' => Step s op s' ∧ PinsOnly s op s') s tr) :
    Sorted (final s tr) (releases s tr ++ uses) := by
  induction tr generalizing s uses with
  | nil => exact h
  | cons step rest ih =>
    have after := ih (h.step run.1.1 run.1.2) run.2
    rwa [← List.append_assoc] at after

theorem init_sorted (disk : ℕ → Block) : Sorted (Cached.init disk) [] :=
  ⟨_, bioInit_lru disk, ByRecency.unused _⟩

end Order

section Miss

variable {c c' : Bcache} {l uses : List (Fin NBUF)} {i : Fin NBUF} {dev b : ℕ}

/-- What `bget` reuses on a miss: the last unreferenced buffer of the list. -/
theorem bget_miss (h : c.Lru l) (miss : ∀ j, ¬ c.Caches j dev b)
    (hr : (bget dev b).run c = .ok i c') :
    l.reverse.find? (fun j => (c.buf j).refcnt = 0) = some i ∧ c' = c.modBuf i fun x =>
      { x with dev := dev, blockno := b, valid := false, refcnt := 1 } := by
  have hb : b < FSSIZE := by
    by_contra large
    unfold bget at hr
    rw [if_pos (Nat.not_lt.mp large)] at hr
    cases hr
  have absent : l.find? (fun j => decide (c.Caches j dev b)) = none := by
    rw [List.find?_eq_none]
    intro j _
    simpa using miss j
  rw [bget_run h hb, absent] at hr
  dsimp only at hr
  split at hr
  next j found =>
    cases hr
    exact ⟨found, rfl⟩
  next => cases hr

end Miss

/-- On a miss the buffer that is reused is an unreferenced one whose last reference was never dropped,
    or else the one for which that is longest ago. What was released after some other unreferenced
    buffer stays in the cache. -/
theorem evicts_least_recent (disk : ℕ → Block) (tr : List (Op × Cached))
    (run : Along (fun s op s' => Step s op s' ∧ PinsOnly s op s') (Cached.init disk) tr)
    {c c' : Bcache} (now : c = (final (Cached.init disk) tr).cache) {i : Fin NBUF} {dev b : ℕ}
    (miss : ∀ j, ¬ c.Caches j dev b) (hr : (bget dev b).run c = .ok i c') :
    (c.buf i).refcnt = 0 ∧
    (∀ j, (c.buf j).refcnt = 0 → j ≠ i → i ∉ releases (Cached.init disk) tr ∨
      (releases (Cached.init disk) tr).idxOf j < (releases (Cached.init disk) tr).idxOf i) ∧
    ∀ k j, (c.buf j).refcnt = 0 →
      (releases (Cached.init disk) tr).idxOf k < (releases (Cached.init disk) tr).idxOf j →
        c'.buf k = c.buf k := by
  have sorted := (init_sorted disk).run run
  rw [List.append_nil] at sorted
  obtain ⟨l, lru, order⟩ := sorted
  rw [← now] at lru
  generalize releases (Cached.init disk) tr = uses at order ⊢
  obtain ⟨found, hc⟩ := bget_miss lru miss hr
  have oldest : ∀ j, (c.buf j).refcnt = 0 → j ≠ i → NotOlder uses j i := fun j free other =>
    order.find_last found (lru.mem j) (decide_eq_true free) other
  refine ⟨find_prop found, oldest, fun k j free later => ?_⟩
  have hk : k ≠ i := by
    rintro rfl
    have bound : uses.idxOf j ≤ uses.length := List.idxOf_le_length
    by_cases same : j = k
    · rw [same] at later
      exact Nat.lt_irrefl _ later
    · rcases oldest j free same with never | older
      · rw [List.idxOf_eq_length never] at later
        exact Nat.not_lt.mpr bound later
      · exact Nat.lt_asymm older later
  rw [hc, modBuf_buf_of_ne _ _ hk]

/-- Of two buffers that were released, both stay while there is one that was not. -/
theorem evicts_least_recent_unused : ∃ (tr : List (Op × Cached)) (c' : Bcache),
    tr.map Prod.fst = [.bread 1 5 0, .bread 1 6 1, .brelse 1, .brelse 0] ∧
    (bget 1 7).run (final (Cached.init fun _ => Block.zero) tr).cache = .ok 2 c' ∧
    ∀ k j, ((final (Cached.init fun _ => Block.zero) tr).cache.buf j).refcnt = 0 →
      (releases (Cached.init fun _ => Block.zero) tr).idxOf k <
        (releases (Cached.init fun _ => Block.zero) tr).idxOf j →
          c'.buf k = (final (Cached.init fun _ => Block.zero) tr).cache.buf k := by
  have run : ∃ tr : List (Op × Cached), Along (fun s op s' => Step s op s' ∧ PinsOnly s op s')
        (Cached.init fun _ => Block.zero) tr ∧
      tr.map Prod.fst = [.bread 1 5 0, .bread 1 6 1, .brelse 1, .brelse 0] ∧
      (∀ j, ¬ (final (Cached.init fun _ => Block.zero) tr).cache.Caches j 1 7) ∧
      ∃ c', (bget 1 7).run (final (Cached.init fun _ => Block.zero) tr).cache = .ok 2 c' :=
    ⟨[(.bread 1 5 0, _), (.bread 1 6 1, _), (.brelse 1, _), (.brelse 0, _)],
      ⟨⟨.bread rfl, nofun⟩, ⟨.bread rfl, nofun⟩, ⟨.brelse rfl, nofun⟩, ⟨.brelse rfl, nofun⟩, trivial⟩,
      rfl, by decide +kernel, _, rfl⟩
  obtain ⟨tr, run, ops, miss, c', hr⟩ := run
  exact ⟨tr, c', ops, hr, (evicts_least_recent _ tr run rfl miss hr).2.2⟩

end EasyXv6.Fs.Bcache
