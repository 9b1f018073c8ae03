import EasyXv6.Dev.Descriptors
import EasyXv6.Lib.Ring

set_option autoImplicit false

/-!
# The requests under way

A request is published, taken by the device, completed, and handled by whoever finds it in the used
ring.
-/
namespace EasyXv6.Dev
open Lib

variable {P β : Type}

/-- How far a call with descriptors has come. -/
inductive Stage
  | publish
  | wait
  | unlink
  | release
  deriving DecidableEq

def Loc.stage : Loc β → Option (Stage × Chain β)
  | .publish c => some (.publish, c)
  | .wait c => some (.wait, c)
  | .unlink c => some (.unlink, c)
  | .release c => some (.release, c)
  | .used (.wait c) _ => some (.wait, c)
  | _ => none

/-- Past the test of the loop of `virtio_disk_process_used`. -/
def Loc.body : Loc β → Prop
  | .used _ .test => False
  | .used _ _ => True
  | _ => False

def Virtio.stage (s : Virtio P β) (p : P) : Option (Stage × Chain β) := (s.loc p).stage

/-- The call that has its descriptors. -/
def Virtio.held (s : Virtio P β) (p : P) : Option (Chain β) := (s.stage p).map Prod.snd

/-- The requests whose completion has been handled. -/
def History.done (h : History P β) : List ℕ := (h.completed.take h.handled.length).map Prod.fst

def Unhandled (h : History P β) (n : ℕ) : Prop := n < h.published.length ∧ n ∉ h.done

section Invariant

/-- The calls and their requests. -/
structure Requests (stage : P → Option (Stage × Chain β)) (h : History P β)
    (info : Fin NUM → Info β) (flag : β → Bool) : Prop where
  serial : ∀ p st c, stage p = some (st, c) → st ≠ .publish → h.published[h.serial p]? = some c
  serial_inj : ∀ p q st st' c c', stage p = some (st, c) → st ≠ .publish →
    stage q = some (st', c') → st' ≠ .publish → h.serial p = h.serial q → p = q
  waiting : ∀ n, Unhandled h n → ∃ p c, stage p = some (.wait, c) ∧ h.serial p = n
  finished : ∀ p st c, stage p = some (st, c) → st = .unlink ∨ st = .release → h.serial p ∈ h.done
  buffer : ∀ p c, stage p = some (.wait, c) → (info c.idx0).b = some c.b
  status : ∀ p c, stage p = some (.wait, c) → h.serial p ∈ h.completed.map Prod.fst →
    (info c.idx0).status = 0
  flag : ∀ b, flag b = true ↔ ∃ n c, Unhandled h n ∧ h.published[n]? = some c ∧ c.b = b
  once : ∀ n m c c', Unhandled h n → Unhandled h m → h.published[n]? = some c →
    h.published[m]? = some c' → c.b = c'.b → n = m

/-- The available ring and the requests that the device has. -/
structure Taken (s : Virtio P β) : Prop where
  ring : InRing NUM s.disk.availRing (s.hist.published.map (·.idx0)) s.fetched
  idx : s.disk.availIdx = s.hist.published.length % 2 ^ 16
  seen : s.seen = s.fetched % 2 ^ 16
  nums : ((s.pending ++ s.hist.completed).map Prod.fst).Perm (List.range s.fetched)
  heads : ∀ r ∈ s.pending ++ s.hist.completed, ∃ c, s.hist.published[r.1]? = some c ∧ c.idx0 = r.2

/-- What is handled when a completion is: its head, and the buffer of the request. -/
def History.due (h : History P β) (r : ℕ × Fin NUM) : Fin NUM × Option β :=
  (r.2, (h.published[r.1]?).map fun c => c.b)

/-- The used ring and what the driver has handled. -/
structure Returned (h : History P β) (d : Disk β) : Prop where
  ring : InRing NUM d.usedRing (h.completed.map Prod.snd) h.handled.length
  idx : d.usedRingIdx = h.completed.length % 2 ^ 16
  due : h.handled <+: h.completed.map h.due

/-- The one who is in the loop over the used ring. -/
def Handling (h : History P β) (usedIdx : ℕ) : Used → Prop
  | .test => False
  | .read => usedIdx = h.handled.length % 2 ^ 16 ∧ h.handled.length < h.completed.length
  | .check id | .clear id => usedIdx = h.handled.length % 2 ^ 16 ∧
      ∃ n, h.completed[h.handled.length]? = some (n, id)
  | .advance => ∃ k, h.handled.length = k + 1 ∧ usedIdx = k % 2 ^ 16

theorem Handling.complete {h : History P β} {usedIdx : ℕ} {u : Used} (hu : Handling h usedIdx u)
    (r : ℕ × Fin NUM) : Handling { h with completed := h.completed ++ [r] } usedIdx u := by
  have still : ∀ {id : Fin NUM}, (∃ n, h.completed[h.handled.length]? = some (n, id)) →
      ∃ n, (h.completed ++ [r])[h.handled.length]? = some (n, id) := by
    rintro id ⟨n, hn⟩
    exact ⟨n, (List.getElem?_append_left (List.getElem?_eq_some_iff.mp hn).1).trans hn⟩
  cases u with
  | test => exact hu
  | read =>
    refine ⟨hu.1, Nat.lt_of_lt_of_le hu.2 ?_⟩
    dsimp only
    rw [List.length_append]
    exact Nat.le_add_right _ _
  | check id => exact ⟨hu.1, still hu.2⟩
  | clear id => exact ⟨hu.1, still hu.2⟩
  | advance => exact hu

/-- At most one is in the loop. -/
def Alone (loc : P → Loc β) (h : History P β) (usedIdx : ℕ) : Prop :=
  (∀ p, ¬ (loc p).body) ∧ usedIdx = h.handled.length % 2 ^ 16 ∨
    ∃ p k u, loc p = .used k u ∧ (∀ q, q ≠ p → ¬ (loc q).body) ∧ Handling h usedIdx u

structure Good (s : Virtio P β) : Prop where
  slots : Slots s.held s.disk.free s.disk.desc
  linked : ∀ p st c, s.stage p = some (st, c) → st ≠ .publish → Linked s.disk.desc c
  requests : Requests s.stage s.hist s.disk.info s.disk.flag
  taken : Taken s
  returned : Returned s.hist s.disk
  alone : Alone s.loc s.hist s.disk.usedIdx

variable {s s' : Virtio P β} {p q : P} {n : ℕ} {c : Chain β}

theorem held_of_stage {st : Stage} (h : s.stage p = some (st, c)) : s.held p = some c := by
  rw [Virtio.held, h]
  rfl

theorem stage_of_held (h : s.held p = some c) : ∃ st, s.stage p = some (st, c) := by
  rw [Virtio.held, Option.map_eq_some_iff] at h
  obtain ⟨⟨st, c'⟩, hst, rfl⟩ := h
  exact ⟨st, hst⟩

theorem Good.waiting (g : Good s) (h : Unhandled s.hist n) :
    ∃ p c, s.stage p = some (.wait, c) ∧ s.hist.serial p = n ∧ s.hist.published[n]? = some c := by
  obtain ⟨p, c, hp, rfl⟩ := g.requests.waiting n h
  exact ⟨p, c, hp, rfl, g.requests.serial p _ c hp (by decide)⟩

/-- The first descriptor of a request. -/
def History.head (h : History P β) (n : ℕ) : Fin NUM := (h.published[n]?).elim ⟨0, NUM_pos⟩ fun c => c.idx0

theorem History.head_eq {h : History P β} (hc : h.published[n]? = some c) : h.head n = c.idx0 := by
  rw [History.head, hc]
  rfl

theorem Good.head_inj (g : Good s) {m : ℕ} (hn : Unhandled s.hist n) (hm : Unhandled s.hist m)
    (same : s.hist.head n = s.hist.head m) : n = m := by
  obtain ⟨p, c, hp, rfl, hc⟩ := g.waiting hn
  obtain ⟨q, c', hq, rfl, hc'⟩ := g.waiting hm
  rw [History.head_eq hc, History.head_eq hc'] at same
  by_contra ne
  refine g.slots.apart p q c c' (fun h => ne (by rw [h])) (held_of_stage hp) (held_of_stage hq)
    c.idx0 List.mem_cons_self ?_
  rw [same]
  exact List.mem_cons_self

/-- There are no more requests under way than descriptors. -/
theorem Good.few (g : Good s) {ns : List ℕ} (nodup : ns.Nodup) (h : ∀ n ∈ ns, Unhandled s.hist n) :
    (ns.map s.hist.head).Nodup := by
  refine List.Nodup.map_on ?_ nodup
  intro n hn m hm same
  exact g.head_inj (h n hn) (h m hm) same

theorem length_le_of_nodup {l : List (Fin NUM)} (h : l.Nodup) : l.length ≤ NUM := by
  have := h.length_le_card
  rwa [Fintype.card_fin] at this

/-- A call that is still to be published has a descriptor of its own. -/
theorem Good.few_publish (g : Good s) {ns : List ℕ} (nodup : ns.Nodup)
    (h : ∀ n ∈ ns, Unhandled s.hist n) (hp : s.stage p = some (.publish, c)) :
    ns.length < NUM := by
  have fresh : c.idx0 ∉ ns.map s.hist.head := by
    intro mem
    obtain ⟨n, hn, same⟩ := List.mem_map.mp mem
    obtain ⟨q, c', hq, rfl, hc'⟩ := g.waiting (h n hn)
    rw [History.head_eq hc'] at same
    have ne : q ≠ p := by
      rintro rfl
      cases hp.symm.trans hq
    exact g.slots.apart q p c' c ne (held_of_stage hq) (held_of_stage hp) c'.idx0
      List.mem_cons_self (same ▸ List.mem_cons_self)
  have bound := length_le_of_nodup (List.nodup_cons.mpr ⟨fresh, g.few nodup h⟩)
  rw [List.length_cons, List.length_map] at bound
  exact bound

theorem Good.nums_nodup (g : Good s) : ((s.pending ++ s.hist.completed).map Prod.fst).Nodup :=
  g.taken.nums.nodup_iff.mpr List.nodup_range

theorem Good.completed_nodup (g : Good s) : (s.hist.completed.map Prod.fst).Nodup := by
  have := g.nums_nodup
  rw [List.map_append] at this
  exact this.of_append_right

theorem Good.fetched_le (g : Good s) : s.fetched ≤ s.hist.published.length := by
  have := g.taken.ring.lo_le
  rwa [List.length_map] at this

theorem Good.num_lt (g : Good s) {r : ℕ × Fin NUM} (hr : r ∈ s.pending ++ s.hist.completed) :
    r.1 < s.fetched :=
  List.mem_range.mp (g.taken.nums.mem_iff.mp (List.mem_map_of_mem hr))

theorem History.mem_done {h : History P β} (hn : n ∈ h.done) :
    ∃ k r, k < h.handled.length ∧ h.completed[k]? = some r ∧ r.1 = n := by
  obtain ⟨r, hr, rfl⟩ := List.mem_map.mp hn
  obtain ⟨k, hk, rfl⟩ := List.mem_iff_getElem.mp hr
  rw [List.length_take] at hk
  refine ⟨k, _, Nat.lt_of_lt_of_le hk (Nat.min_le_left _ _), ?_, rfl⟩
  rw [List.getElem_take, List.getElem?_eq_getElem]

theorem History.done_subset {h : History P β} (hn : n ∈ h.done) :
    n ∈ h.completed.map Prod.fst := by
  obtain ⟨k, r, -, hr, rfl⟩ := mem_done hn
  exact List.mem_map_of_mem (List.mem_of_getElem? hr)

theorem Good.done_lt (g : Good s) : ∀ m ∈ s.hist.done, m < s.hist.published.length := by
  intro m hm
  obtain ⟨r, hr, rfl⟩ := List.mem_map.mp (History.done_subset hm)
  exact Nat.lt_of_lt_of_le (g.num_lt (List.mem_append_right _ hr)) g.fetched_le

/-- A completion that is not handled is one of an unhandled request. -/
theorem Good.unhandled (g : Good s) {k : ℕ} {r : ℕ × Fin NUM} (hk : s.hist.handled.length ≤ k)
    (hr : s.hist.completed[k]? = some r) : Unhandled s.hist r.1 := by
  refine ⟨Nat.lt_of_lt_of_le (g.num_lt (List.mem_append_right _ (List.mem_of_getElem? hr)))
    g.fetched_le, fun done => ?_⟩
  obtain ⟨j, r', hj, hr', same⟩ := History.mem_done done
  have eq : (s.hist.completed.map Prod.fst)[j]? = (s.hist.completed.map Prod.fst)[k]? := by
    rw [List.getElem?_map, List.getElem?_map, hr, hr', Option.map_some, Option.map_some, same]
  have lt : j < (s.hist.completed.map Prod.fst).length := by
    rw [List.length_map]
    exact (List.getElem?_eq_some_iff.mp hr').1
  have index : j = k := (List.getElem?_inj lt g.completed_nodup).mp eq
  omega

theorem Good.unhandled_pending (g : Good s) {r : ℕ × Fin NUM} (hr : r ∈ s.pending) :
    Unhandled s.hist r.1 := by
  refine ⟨Nat.lt_of_lt_of_le (g.num_lt (List.mem_append_left _ hr)) g.fetched_le, fun done => ?_⟩
  have disjoint := g.nums_nodup
  rw [List.map_append] at disjoint
  exact List.disjoint_of_nodup_append disjoint (List.mem_map_of_mem hr) (History.done_subset done)

/-- The device has not taken it. -/
theorem Good.unhandled_published (g : Good s) (hn : s.fetched ≤ n)
    (hlt : n < s.hist.published.length) : Unhandled s.hist n := by
  refine ⟨hlt, fun done => ?_⟩
  obtain ⟨r, hr, rfl⟩ := List.mem_map.mp (History.done_subset done)
  exact absurd (g.num_lt (List.mem_append_right _ hr)) (Nat.not_lt.mpr hn)

/-- Calls go on, or begin, or end; none stops waiting before its request is handled. -/
theorem Requests.goOn {stage stage' : P → Option (Stage × Chain β)} {h : History P β}
    {info info' : Fin NUM → Info β} {flag : β → Bool} (r : Requests stage h info flag)
    (from' : ∀ q st c, stage' q = some (st, c) → st ≠ .publish → stage q = some (st, c) ∨
      (∃ st', stage q = some (st', c) ∧ st' ≠ .publish) ∧ st ≠ .wait ∧ h.serial q ∈ h.done)
    (waits : ∀ q c, stage q = some (.wait, c) →
      stage' q = some (.wait, c) ∨ h.serial q ∈ h.done)
    (infos : ∀ q c, stage q = some (.wait, c) → info' c.idx0 = info c.idx0) :
    Requests stage' h info' flag := by
  have still : ∀ q c, stage' q = some (.wait, c) → stage q = some (.wait, c) := by
    intro q c hq
    rcases from' q .wait c hq (by decide) with same | ⟨-, ne, -⟩
    · exact same
    · exact absurd rfl ne
  have published : ∀ q st c, stage' q = some (st, c) → st ≠ .publish →
      ∃ st', stage q = some (st', c) ∧ st' ≠ .publish := by
    intro q st c hq ne
    rcases from' q st c hq ne with same | ⟨old, -⟩
    · exact ⟨st, same, ne⟩
    · exact old
  refine ⟨?_, ?_, ?_, ?_, ?_, ?_, r.flag, r.once⟩
  · intro q st c hq ne
    obtain ⟨st', old, ne'⟩ := published q st c hq ne
    exact r.serial q st' c old ne'
  · intro q x st st' c c' hq ne hx ne'
    obtain ⟨_, oldq, neq⟩ := published q st c hq ne
    obtain ⟨_, oldx, nex⟩ := published x st' c' hx ne'
    exact r.serial_inj q x _ _ c c' oldq neq oldx nex
  · intro n hn
    obtain ⟨q, c, hq, rfl⟩ := r.waiting n hn
    rcases waits q c hq with same | done
    · exact ⟨q, c, same, rfl⟩
    · exact absurd done hn.2
  · intro q st c hq past
    have ne : st ≠ .publish := by rcases past with rfl | rfl <;> decide
    rcases from' q st c hq ne with same | ⟨-, -, done⟩
    · exact r.finished q st c same past
    · exact done
  · intro q c hq
    rw [infos q c (still q c hq)]
    exact r.buffer q c (still q c hq)
  · intro q c hq
    rw [infos q c (still q c hq)]
    exact r.status q c (still q c hq)

theorem Good.idx0_ne (g : Good s) {st st' : Stage} {c' : Chain β} (ne : q ≠ p)
    (hp : s.stage p = some (st, c)) (hq : s.stage q = some (st', c')) : c'.idx0 ≠ c.idx0 := by
  intro same
  refine g.slots.apart q p c' c ne (held_of_stage hq) (held_of_stage hp) c'.idx0
    List.mem_cons_self ?_
  rw [same]
  exact List.mem_cons_self

/-- The history when one more completion has been handled. -/
def History.handle (h : History P β) (x : Fin NUM × Option β) : History P β :=
  { h with handled := h.handled ++ [x] }

theorem History.handle_done {h : History P β} {x : Fin NUM × Option β} {r : ℕ × Fin NUM}
    (hr : h.completed[h.handled.length]? = some r) : (h.handle x).done = h.done ++ [r.1] := by
  have length : (h.handle x).handled.length = h.handled.length + 1 := by
    rw [History.handle, List.length_append, List.length_singleton]
  rw [History.done, length, History.done]
  change (h.completed.take (h.handled.length + 1)).map Prod.fst = _
  rw [List.take_add_one, hr, List.map_append]
  rfl

/-- The completion that is next is one of a waiting call. -/
theorem Good.nextWaits (g : Good s) {r : ℕ × Fin NUM}
    (hr : s.hist.completed[s.hist.handled.length]? = some r) :
    ∃ q c, s.stage q = some (.wait, c) ∧ s.hist.serial q = r.1 ∧ c.idx0 = r.2 ∧
      s.hist.published[r.1]? = some c := by
  obtain ⟨q, c, hq, serial, hc⟩ := g.waiting (g.unhandled (Nat.le_refl _) hr)
  obtain ⟨c', hc', head⟩ := g.taken.heads r (List.mem_append_right _ (List.mem_of_getElem? hr))
  cases hc.symm.trans hc'
  exact ⟨q, c, hq, serial, head, hc⟩

theorem Requests.handle [DecidableEq β] (g : Good s) {x : Fin NUM × Option β} {r : ℕ × Fin NUM}
    (hr : s.hist.completed[s.hist.handled.length]? = some r)
    (hc : s.hist.published[r.1]? = some c) :
    Requests s.stage (s.hist.handle x) s.disk.info (Function.update s.disk.flag c.b false) := by
  have q := g.requests
  have done := History.handle_done (x := x) hr
  have unhandled : ∀ n, Unhandled (s.hist.handle x) n ↔ Unhandled s.hist n ∧ n ≠ r.1 := by
    intro n
    rw [Unhandled, done, List.mem_append, List.mem_singleton, not_or, ← and_assoc]
    rfl
  refine ⟨q.serial, q.serial_inj, fun n hn => q.waiting n ((unhandled n).mp hn).1, ?_, q.buffer,
    q.status, ?_, ?_⟩
  · intro p st c' hp past
    rw [done]
    exact List.mem_append_left _ (q.finished p st c' hp past)
  · intro b
    by_cases hb : b = c.b
    · rw [hb, Function.update_self]
      refine iff_of_false Bool.false_ne_true ?_
      rintro ⟨n, c', hn, hc', same⟩
      obtain ⟨old, ne⟩ := (unhandled n).mp hn
      exact ne (q.once n r.1 c' c old (g.unhandled (Nat.le_refl _) hr) hc' hc same)
    · rw [Function.update_of_ne hb, q.flag]
      constructor
      · rintro ⟨n, c', hn, hc', rfl⟩
        refine ⟨n, c', (unhandled n).mpr ⟨hn, ?_⟩, hc', rfl⟩
        rintro rfl
        cases hc.symm.trans hc'
        exact hb rfl
      · rintro ⟨n, c', hn, hc', rfl⟩
        exact ⟨n, c', ((unhandled n).mp hn).1, hc', rfl⟩
  · intro n m c' c'' hn hm
    exact q.once n m c' c'' ((unhandled n).mp hn).1 ((unhandled m).mp hm).1

theorem Good.fetch (g : Good s) (h : s.seen ≠ s.disk.availIdx) :
    Good { s with
      seen := (s.seen + 1) % 2 ^ 16
      fetched := s.fetched + 1
      pending := (s.fetched, s.disk.availRing (s.seen % NUM)) :: s.pending } := by
  have room := g.taken.ring.room
  rw [List.length_map] at room
  have more : s.fetched < s.hist.published.length := by
    simp only [NUM] at room
    rw [g.taken.seen, g.taken.idx, Ne, counter_eq_iff g.fetched_le (by omega)] at h
    exact Nat.lt_of_le_of_ne g.fetched_le h
  obtain ⟨c, hc⟩ : ∃ c, s.hist.published[s.fetched]? = some c :=
    ⟨_, List.getElem?_eq_getElem more⟩
  obtain ⟨head, popped⟩ := g.taken.ring.pop (x := c.idx0) (by rw [List.getElem?_map, hc]; rfl)
  have cell : s.seen % NUM = s.fetched % NUM := by
    rw [g.taken.seen]
    exact counter_cell (by decide) _
  refine ⟨g.slots, g.linked, g.requests, ⟨popped, g.taken.idx, ?_, ?_, ?_⟩,
    ⟨g.returned.ring, g.returned.idx, g.returned.due⟩, g.alone⟩
  · rw [g.taken.seen]
    exact counter_succ _ _
  · rw [List.range_succ]
    exact (g.taken.nums.cons s.fetched).trans (List.perm_append_singleton _ _).symm
  · intro r hr
    rcases List.mem_cons.mp hr with rfl | old
    · exact ⟨c, hc, by rw [cell]; exact head.symm⟩
    · exact g.taken.heads r old

theorem Good.complete (g : Good s) {r : ℕ × Fin NUM} (hr : r ∈ s.pending) :
    Good { s with
      disk := { s.disk with
        info := Function.update s.disk.info r.2 { s.disk.info r.2 with status := 0 }
        usedRing := Function.update s.disk.usedRing (s.disk.usedRingIdx % NUM) r.2
        usedRingIdx := (s.disk.usedRingIdx + 1) % 2 ^ 16 }
      pending := s.pending.erase r
      hist := { s.hist with completed := s.hist.completed ++ [r] } } := by
  have le : s.hist.handled.length ≤ s.hist.completed.length := by
    have := g.returned.ring.lo_le
    rwa [List.length_map] at this
  have notCompleted : r.1 ∉ s.hist.completed.map Prod.fst := by
    have nodup := g.nums_nodup
    rw [List.map_append] at nodup
    exact fun mem => List.disjoint_of_nodup_append nodup (List.mem_map_of_mem hr) mem
  have few : s.hist.completed.length < s.hist.handled.length + NUM := by
    have nodup : (r.1 :: (s.hist.completed.drop s.hist.handled.length).map Prod.fst).Nodup := by
      rw [List.nodup_cons]
      refine ⟨fun mem => notCompleted ?_, ?_⟩
      · exact (List.Sublist.map _ (List.drop_sublist _ _)).subset mem
      · exact g.completed_nodup.sublist (List.Sublist.map _ (List.drop_sublist _ _))
    have under : ∀ n ∈ r.1 :: (s.hist.completed.drop s.hist.handled.length).map Prod.fst,
        Unhandled s.hist n := by
      intro n hn
      rcases List.mem_cons.mp hn with rfl | hn
      · exact g.unhandled_pending hr
      · obtain ⟨x, hx, rfl⟩ := List.mem_map.mp hn
        obtain ⟨k, hk⟩ := List.mem_iff_getElem?.mp hx
        rw [List.getElem?_drop] at hk
        exact g.unhandled (Nat.le_add_right _ k) hk
    have bound := length_le_of_nodup (g.few nodup under)
    rw [List.length_map, List.length_cons, List.length_map, List.length_drop] at bound
    omega
  have done : History.done { s.hist with completed := s.hist.completed ++ [r] } = s.hist.done := by
    dsimp only [History.done]
    rw [List.take_append_of_le_length le]
  have unhandled : ∀ n, Unhandled { s.hist with completed := s.hist.completed ++ [r] } n ↔
      Unhandled s.hist n := fun n => by rw [Unhandled, Unhandled, done]
  have moved : (s.pending.erase r ++ (s.hist.completed ++ [r])).Perm
      (s.pending ++ s.hist.completed) := by
    rw [← List.append_assoc]
    exact (List.perm_append_singleton r _).trans
      ((List.perm_cons_erase hr).symm.append_right s.hist.completed)
  obtain ⟨c, hc, head⟩ := g.taken.heads r (List.mem_append_left _ hr)
  have q := g.requests
  refine ⟨g.slots, g.linked, ⟨q.serial, q.serial_inj, fun n hn => q.waiting n ((unhandled n).mp hn),
    ?_, ?_, ?_, ?_, ?_⟩, ⟨g.taken.ring, g.taken.idx, g.taken.seen, ?_, ?_⟩, ⟨?_, ?_, ?_⟩, ?_⟩
  · intro p st c' hp past
    rw [done]
    exact q.finished p st c' hp past
  · intro p c' hp
    have kept : (Function.update s.disk.info r.2 { s.disk.info r.2 with status := 0 }
        c'.idx0).b = (s.disk.info c'.idx0).b := by
      by_cases same : c'.idx0 = r.2
      · rw [same, Function.update_self]
      · rw [Function.update_of_ne same]
    exact kept.trans (q.buffer p c' hp)
  · intro p c' hp mem
    change (Function.update s.disk.info r.2 { s.disk.info r.2 with status := 0 }
      c'.idx0).status = 0
    by_cases same : c'.idx0 = r.2
    · rw [same, Function.update_self]
    · rw [Function.update_of_ne same]
      change s.hist.serial p ∈ (s.hist.completed ++ [r]).map Prod.fst at mem
      rw [List.map_append, List.mem_append, List.map_singleton, List.mem_singleton] at mem
      rcases mem with old | new
      · exact q.status p c' hp old
      · have published := q.serial p _ c' hp (by decide)
        rw [new, hc, Option.some.injEq] at published
        rw [← published, head] at same
        exact absurd rfl same
  · intro b
    rw [q.flag]
    exact exists_congr fun n => exists_congr fun c' => by rw [unhandled]
  · intro n m c' c'' hn hm
    exact q.once n m c' c'' ((unhandled n).mp hn) ((unhandled m).mp hm)
  · exact (moved.map Prod.fst).trans g.taken.nums
  · exact fun x hx => g.taken.heads x (moved.subset hx)
  · have cell : s.disk.usedRingIdx % NUM = (s.hist.completed.map Prod.snd).length % NUM := by
      rw [g.returned.idx, List.length_map]
      exact counter_cell (by decide) _
    have pushed := g.returned.ring.push (by rw [List.length_map]; exact few) r.2
    change InRing NUM (Function.update _ (s.disk.usedRingIdx % NUM) r.2)
      ((s.hist.completed ++ [r]).map _) _
    rw [cell, List.map_append]
    exact pushed
  · change (s.disk.usedRingIdx + 1) % 2 ^ 16 = (s.hist.completed ++ [r]).length % 2 ^ 16
    rw [g.returned.idx, List.length_append, List.length_singleton]
    exact counter_succ _ _
  · change s.hist.handled <+: (s.hist.completed ++ [r]).map s.hist.due
    rw [List.map_append]
    exact g.returned.due.trans (List.prefix_append _ _)
  · rcases g.alone with ⟨none, idx⟩ | ⟨p, k, u, hp, others, handling⟩
    · exact Or.inl ⟨none, idx⟩
    · exact Or.inr ⟨p, k, u, hp, others, handling.complete r⟩

end Invariant

end EasyXv6.Dev
