import EasyXv6.Dev.Requests

set_option autoImplicit false

/-!
# The protocol of the disk requests

Two things go wrong in the driver: the loop over the used ring can be entered by several at a time,
and a buffer has one `disk` flag for all requests on it.
-/
namespace EasyXv6.Dev
open Lib

variable {P β : Type}

section Steps

variable [DecidableEq P] {s s' : Virtio P β} {p q : P} {n : ℕ} {c : Chain β} {next : Loc β}

/-- The driver after a step of `p`. -/
def Virtio.moved (s : Virtio P β) (p : P) (next : Loc β) (d : Disk β) (h : History P β) :
    Virtio P β :=
  { s with disk := d, loc := Function.update s.loc p next, hist := h }

theorem moved_stage (s : Virtio P β) (p : P) (next : Loc β) (d : Disk β) (h : History P β) :
    (s.moved p next d h).stage = Function.update s.stage p next.stage := by
  funext q
  dsimp only [Virtio.stage, Virtio.moved]
  by_cases hq : q = p
  · rw [hq, Function.update_self, Function.update_self]
  · rw [Function.update_of_ne hq, Function.update_of_ne hq]
    rfl

theorem moved_held (s : Virtio P β) (p : P) (next : Loc β) (d : Disk β) (h : History P β) :
    (s.moved p next d h).held = Function.update s.held p (next.stage.map Prod.snd) := by
  funext q
  rw [Virtio.held, moved_stage]
  by_cases hq : q = p
  · rw [hq, Function.update_self, Function.update_self]
  · rw [Function.update_of_ne hq, Function.update_of_ne hq]
    rfl

theorem moved_stage_same {d : Disk β} {h : History P β} (same : next.stage = s.stage p) :
    (s.moved p next d h).stage = s.stage := by
  rw [moved_stage, same, Function.update_eq_self]

theorem moved_held_same {d : Disk β} {h : History P β}
    (same : next.stage.map Prod.snd = s.held p) : (s.moved p next d h).held = s.held := by
  rw [moved_held, same, Function.update_eq_self]

/-- Who leaves the loop, or stays outside it. -/
theorem Alone.outside {loc : P → Loc β} {h : History P β} {usedIdx : ℕ}
    (alone : Alone loc h usedIdx) (hp : ¬ (loc p).body) (hnext : ¬ next.body) :
    Alone (Function.update loc p next) h usedIdx := by
  have body : ∀ q, (Function.update loc p next q).body → (loc q).body := by
    intro q hq
    by_cases same : q = p
    · rw [same, Function.update_self] at hq
      exact absurd hq hnext
    · rwa [Function.update_of_ne same] at hq
  rcases alone with ⟨none, idx⟩ | ⟨q, k, u, hq, others, handling⟩
  · exact Or.inl ⟨fun q hq => none q (body q hq), idx⟩
  · have ne : q ≠ p := by
      rintro rfl
      refine hp ?_
      rw [hq]
      cases u <;> first | exact trivial | cases handling
    refine Or.inr ⟨q, k, u, (Function.update_of_ne ne _ _).trans hq, ?_, handling⟩
    exact fun x hx hb => others x hx (body x hb)

/-- The one who is in the loop goes on. -/
theorem Alone.inside {loc : P → Loc β} {h : History P β} {usedIdx : ℕ} {k : Caller β} {u : Used}
    (others : ∀ q, q ≠ p → ¬ (loc q).body) (handling : Handling h usedIdx u) :
    Alone (Function.update loc p (.used k u)) h usedIdx := by
  refine Or.inr ⟨p, k, u, Function.update_self .., fun q hq => ?_, handling⟩
  rw [Function.update_of_ne hq]
  exact others q hq

theorem Alone.handling {loc : P → Loc β} {h : History P β} {usedIdx : ℕ} {k : Caller β} {u : Used}
    (alone : Alone loc h usedIdx) (hp : loc p = .used k u) (hb : (loc p).body) :
    (∀ q, q ≠ p → ¬ (loc q).body) ∧ Handling h usedIdx u := by
  rcases alone with ⟨none, -⟩ | ⟨q, k', u', hq, others, handling⟩
  · exact absurd hb (none p)
  · have same : p = q := by
      by_contra ne
      exact others p ne hb
    subst same
    cases hp.symm.trans hq
    exact ⟨others, handling⟩

/-- A step that only moves a process, or its index of the used ring. -/
theorem Good.quiet (g : Good s) {u : ℕ} (same : next.stage = s.stage p)
    (alone : Alone (Function.update s.loc p next) s.hist u) :
    Good (s.moved p next { s.disk with usedIdx := u } s.hist) where
  slots := by
    rw [moved_held_same (by rw [same]; rfl)]
    exact g.slots
  linked := by
    rw [moved_stage_same same]
    exact g.linked
  requests := by
    rw [moved_stage_same same]
    exact g.requests
  taken := ⟨g.taken.ring, g.taken.idx, g.taken.seen, g.taken.nums, g.taken.heads⟩
  returned := ⟨g.returned.ring, g.returned.idx, g.returned.due⟩
  alone := alone

variable {d : Disk β}

/-- `alloc3_desc` has succeeded. -/
theorem Good.alloc (g : Good s) {free : Fin NUM → Bool} (hp : s.stage p = none)
    (hb : ¬ (s.loc p).body) (nodup : c.descs.Nodup) (hfree : ∀ i ∈ c.descs, s.disk.free i = true)
    (hfree' : ∀ i, free i = true ↔ s.disk.free i = true ∧ i ∉ c.descs) :
    Good (s.moved p (.publish c) (s.disk.setFree free) s.hist) where
  slots := by
    rw [moved_held]
    exact g.slots.take (by rw [Virtio.held, hp]; rfl) nodup hfree hfree'
  linked := by
    rw [moved_stage]
    intro q st c' hq ne
    by_cases same : q = p
    · rw [same, Function.update_self] at hq
      cases hq
      exact absurd rfl ne
    · rw [Function.update_of_ne same] at hq
      exact g.linked q st c' hq ne
  requests := by
    rw [moved_stage]
    refine g.requests.goOn ?_ ?_ fun _ _ _ => rfl
    · intro q st c' hq ne
      by_cases same : q = p
      · rw [same, Function.update_self] at hq
        cases hq
        exact absurd rfl ne
      · rw [Function.update_of_ne same] at hq
        exact Or.inl hq
    · intro q c' hq
      left
      have ne : q ≠ p := by
        rintro rfl
        cases hp.symm.trans hq
      rw [Function.update_of_ne ne, hq]
  taken := ⟨g.taken.ring, g.taken.idx, g.taken.seen, g.taken.nums, g.taken.heads⟩
  returned := ⟨g.returned.ring, g.returned.idx, g.returned.due⟩
  alone := g.alone.outside hb id

/-- A call that waits for its request sees it handled. -/
theorem Good.exit (g : Good s) (hp : s.stage p = some (.wait, c)) (hb : ¬ (s.loc p).body)
    (flag : s.disk.flag c.b = false) : Good (s.moved p (.unlink c) s.disk s.hist) where
  slots := by
    have same : (Loc.unlink c).stage.map Prod.snd = s.held p := (held_of_stage hp).symm
    rw [moved_held_same same]
    exact g.slots
  linked := by
    rw [moved_stage]
    intro q st c' hq ne
    by_cases same : q = p
    · rw [same, Function.update_self] at hq
      cases hq
      exact g.linked p _ c hp (by decide)
    · rw [Function.update_of_ne same] at hq
      exact g.linked q st c' hq ne
  requests := by
    have published := g.requests.serial p _ c hp (by decide)
    have done : s.hist.serial p ∈ s.hist.done := by
      by_contra pending
      have set := (g.requests.flag c.b).mpr
        ⟨_, c, ⟨(List.getElem?_eq_some_iff.mp published).1, pending⟩, published, rfl⟩
      rw [flag] at set
      cases set
    rw [moved_stage]
    refine g.requests.goOn ?_ ?_ fun _ _ _ => rfl
    · intro q st c' hq ne
      by_cases same : q = p
      · rw [same, Function.update_self] at hq
        cases hq
        rw [same]
        exact Or.inr ⟨⟨_, hp, by decide⟩, by decide, done⟩
      · rw [Function.update_of_ne same] at hq
        exact Or.inl hq
    · intro q c' hq
      by_cases same : q = p
      · rw [same]
        exact Or.inr done
      · rw [Function.update_of_ne same]
        exact Or.inl hq
  taken := ⟨g.taken.ring, g.taken.idx, g.taken.seen, g.taken.nums, g.taken.heads⟩
  returned := ⟨g.returned.ring, g.returned.idx, g.returned.due⟩
  alone := g.alone.outside hb id

/-- `disk.info[idx[0]].b = 0` -/
theorem Good.unlink (g : Good s) (hp : s.stage p = some (.unlink, c)) (hb : ¬ (s.loc p).body)
    {b : Option β} : Good (s.moved p (.release c) { s.disk with
      info := Function.update s.disk.info c.idx0 { s.disk.info c.idx0 with b := b } } s.hist) where
  slots := by
    have same : (Loc.release c).stage.map Prod.snd = s.held p := (held_of_stage hp).symm
    rw [moved_held_same same]
    exact g.slots
  linked := by
    rw [moved_stage]
    intro q st c' hq ne
    by_cases same : q = p
    · rw [same, Function.update_self] at hq
      cases hq
      exact g.linked p _ c hp (by decide)
    · rw [Function.update_of_ne same] at hq
      exact g.linked q st c' hq ne
  requests := by
    rw [moved_stage]
    refine g.requests.goOn ?_ ?_ ?_
    · intro q st c' hq ne
      by_cases same : q = p
      · rw [same, Function.update_self] at hq
        cases hq
        rw [same]
        exact Or.inr ⟨⟨_, hp, by decide⟩, by decide, g.requests.finished p _ c hp (Or.inl rfl)⟩
      · rw [Function.update_of_ne same] at hq
        exact Or.inl hq
    · intro q c' hq
      have ne : q ≠ p := by
        rintro rfl
        cases hp.symm.trans hq
      rw [Function.update_of_ne ne]
      exact Or.inl hq
    · intro q c' hq
      have ne : q ≠ p := by
        rintro rfl
        cases hp.symm.trans hq
      exact Function.update_of_ne (g.idx0_ne ne hp hq) _ _
  taken := ⟨g.taken.ring, g.taken.idx, g.taken.seen, g.taken.nums, g.taken.heads⟩
  returned := ⟨g.returned.ring, g.returned.idx, g.returned.due⟩
  alone := g.alone.outside hb id

/-- `free_chain(idx[0])` -/
theorem Good.release (g : Good s) (hp : s.stage p = some (.release, c)) (hb : ¬ (s.loc p).body) :
    Good (s.moved p .idle (s.disk.give c) s.hist) where
  slots := by
    rw [moved_held]
    exact g.slots.give (held_of_stage hp)
  linked := by
    rw [moved_stage]
    intro q st c' hq ne
    have other : q ≠ p := by
      rintro rfl
      rw [Function.update_self] at hq
      cases hq
    rw [Function.update_of_ne other] at hq
    refine (g.linked q st c' hq ne).congr fun i hi => if_neg fun mem => ?_
    exact g.slots.apart q p c' c other (held_of_stage hq) (held_of_stage hp) i hi mem
  requests := by
    rw [moved_stage]
    refine g.requests.goOn ?_ ?_ fun _ _ _ => rfl
    · intro q st c' hq ne
      have other : q ≠ p := by
        rintro rfl
        rw [Function.update_self] at hq
        cases hq
      rw [Function.update_of_ne other] at hq
      exact Or.inl hq
    · intro q c' hq
      have ne : q ≠ p := by
        rintro rfl
        cases hp.symm.trans hq
      rw [Function.update_of_ne ne]
      exact Or.inl hq
  taken := ⟨g.taken.ring, g.taken.idx, g.taken.seen, g.taken.nums, g.taken.heads⟩
  returned := ⟨g.returned.ring, g.returned.idx, g.returned.due⟩
  alone := g.alone.outside hb id

/-- The history with one more request, of `p`. -/
def History.publish (h : History P β) (p : P) (c : Chain β) : History P β :=
  { h with published := h.published ++ [c]
           serial := Function.update h.serial p h.published.length }

theorem History.publish_old {h : History P β} (hn : n < h.published.length) :
    (h.publish p c).published[n]? = h.published[n]? := List.getElem?_append_left hn

theorem History.publish_new (h : History P β) (p : P) (c : Chain β) :
    (h.publish p c).published[h.published.length]? = some c := List.getElem?_concat_length ..

theorem History.publish_unhandled (h : History P β) (p : P) (c : Chain β)
    (small : ∀ m ∈ h.done, m < h.published.length) :
    Unhandled (h.publish p c) n ↔ Unhandled h n ∨ n = h.published.length := by
  have length : (h.publish p c).published.length = h.published.length + 1 := by
    rw [History.publish, List.length_append, List.length_singleton]
  have done : (h.publish p c).done = h.done := rfl
  rw [Unhandled, Unhandled, length, done]
  constructor
  · rintro ⟨lt, new⟩
    by_cases last : n = h.published.length
    · exact Or.inr last
    · exact Or.inl ⟨by omega, new⟩
  · rintro (⟨lt, new⟩ | rfl)
    · exact ⟨by omega, new⟩
    · exact ⟨Nat.lt_succ_self _, fun mem => Nat.lt_irrefl _ (small _ mem)⟩

variable [DecidableEq β]

theorem Requests.publish (g : Good s) (hp : s.stage p = some (.publish, c))
    (clear : s.disk.flag c.b = false) :
    Requests (Function.update s.stage p (some (.wait, c))) (s.hist.publish p c)
      (Function.update s.disk.info c.idx0 ⟨some c.b, 0xff⟩)
      (Function.update s.disk.flag c.b true) := by
  have r := g.requests
  have cases : ∀ {q st c'}, Function.update s.stage p (some (.wait, c)) q = some (st, c') →
      q = p ∧ st = .wait ∧ c' = c ∨ q ≠ p ∧ s.stage q = some (st, c') := by
    intro q st c' hq
    by_cases same : q = p
    · rw [same, Function.update_self] at hq
      cases hq
      exact Or.inl ⟨same, rfl, rfl⟩
    · rw [Function.update_of_ne same] at hq
      exact Or.inr ⟨same, hq⟩
  have self : (s.hist.publish p c).serial p = s.hist.published.length := Function.update_self ..
  have other : ∀ {q}, q ≠ p → (s.hist.publish p c).serial q = s.hist.serial q :=
    fun ne => Function.update_of_ne ne _ _
  have old : ∀ {q st c'}, s.stage q = some (st, c') → st ≠ .publish →
      s.hist.serial q < s.hist.published.length := by
    intro q st c' hq ne
    exact (List.getElem?_eq_some_iff.mp (r.serial q st c' hq ne)).1
  have unhandled : ∀ n, Unhandled (s.hist.publish p c) n ↔
      Unhandled s.hist n ∨ n = s.hist.published.length :=
    fun n => s.hist.publish_unhandled p c g.done_lt
  -- a request that is not handled has another buffer
  have apart : ∀ {n c'}, Unhandled s.hist n → s.hist.published[n]? = some c' → c'.b ≠ c.b := by
    intro n c' hn hc' same
    have set := (r.flag c.b).mpr ⟨n, c', hn, hc', same⟩
    rw [clear] at set
    cases set
  refine ⟨?_, ?_, ?_, ?_, ?_, ?_, ?_, ?_⟩
  · intro q st c' hq ne
    rcases cases hq with ⟨rfl, rfl, rfl⟩ | ⟨hqp, hq⟩
    · rw [self]
      exact s.hist.publish_new q c'
    · rw [other hqp, History.publish_old (old hq ne)]
      exact r.serial q st c' hq ne
  · intro q x st st' c' c'' hq ne hx ne' same
    rcases cases hq with ⟨hqp, -⟩ | ⟨hqp, oldq⟩ <;> rcases cases hx with ⟨hxp, -⟩ | ⟨hxp, oldx⟩
    · exact hqp.trans hxp.symm
    · rw [hqp, self, other hxp] at same
      exact absurd (old oldx ne') (by omega)
    · rw [hxp, self, other hqp] at same
      exact absurd (old oldq ne) (by omega)
    · rw [other hqp, other hxp] at same
      exact r.serial_inj q x st st' c' c'' oldq ne oldx ne' same
  · intro n hn
    rcases (unhandled n).mp hn with hn | rfl
    · obtain ⟨q, c', hq, rfl⟩ := r.waiting n hn
      have ne : q ≠ p := by
        rintro rfl
        cases hp.symm.trans hq
      exact ⟨q, c', (Function.update_of_ne ne _ _).trans hq, other ne⟩
    · exact ⟨p, c, Function.update_self .., self⟩
  · intro q st c' hq past
    rcases cases hq with ⟨-, rfl, -⟩ | ⟨hqp, hq⟩
    · rcases past with h | h <;> cases h
    · rw [other hqp]
      exact r.finished q st c' hq past
  · intro q c' hq
    rcases cases hq with ⟨-, -, rfl⟩ | ⟨hqp, hq⟩
    · rw [Function.update_self]
    · rw [Function.update_of_ne (g.idx0_ne hqp hp hq)]
      exact r.buffer q c' hq
  · intro q c' hq mem
    rcases cases hq with ⟨hqp, -, -⟩ | ⟨hqp, hq⟩
    · rw [hqp, self] at mem
      obtain ⟨x, hx, eq⟩ := List.mem_map.mp mem
      have := g.num_lt (List.mem_append_right _ hx)
      have := g.fetched_le
      omega
    · rw [Function.update_of_ne (g.idx0_ne hqp hp hq)]
      rw [other hqp] at mem
      exact r.status q c' hq mem
  · intro b
    by_cases hb : b = c.b
    · rw [hb, Function.update_self]
      exact iff_of_true rfl ⟨_, c, (unhandled _).mpr (Or.inr rfl), s.hist.publish_new p c, rfl⟩
    · rw [Function.update_of_ne hb, r.flag]
      constructor
      · rintro ⟨n, c', hn, hc', rfl⟩
        exact ⟨n, c', (unhandled n).mpr (Or.inl hn), (History.publish_old hn.1).trans hc', rfl⟩
      · rintro ⟨n, c', hn, hc', rfl⟩
        rcases (unhandled n).mp hn with hn | rfl
        · exact ⟨n, c', hn, (History.publish_old hn.1).symm.trans hc', rfl⟩
        · rw [History.publish_new, Option.some.injEq] at hc'
          exact absurd (congrArg (·.b) hc'.symm) hb
  · intro n m c' c'' hn hm hc' hc'' same
    rcases (unhandled n).mp hn with hn | rfl <;> rcases (unhandled m).mp hm with hm | rfl
    · exact r.once n m c' c'' hn hm ((History.publish_old hn.1).symm.trans hc')
        ((History.publish_old hm.1).symm.trans hc'') same
    · rw [History.publish_new, Option.some.injEq] at hc''
      rw [← hc''] at same
      exact absurd same (apart hn ((History.publish_old hn.1).symm.trans hc'))
    · rw [History.publish_new, Option.some.injEq] at hc'
      rw [← hc'] at same
      exact absurd same.symm (apart hm ((History.publish_old hm.1).symm.trans hc''))
    · rfl

theorem Good.publish (g : Good s) (hp : s.stage p = some (.publish, c)) (hb : ¬ (s.loc p).body)
    (clear : s.disk.flag c.b = false) :
    Good (s.moved p (.wait c) (s.disk.publish c) (s.hist.publish p c)) where
  slots := by
    have same : (Loc.wait c).stage.map Prod.snd = s.held p := (held_of_stage hp).symm
    rw [moved_held_same same]
    refine ⟨g.slots.distinct, g.slots.apart, g.slots.free_iff, fun i hi => ?_⟩
    have notMine := (g.slots.free_iff i).mp hi p c (held_of_stage hp)
    simp only [Chain.descs, List.mem_cons, List.not_mem_nil, or_false, not_or] at notMine
    obtain ⟨ne0, ne1, ne2⟩ := notMine
    change Function.update (Function.update (Function.update _ _ _) _ _) _ _ i = _
    rw [Function.update_of_ne ne2, Function.update_of_ne ne1, Function.update_of_ne ne0]
    exact g.slots.zero i hi
  linked := by
    obtain ⟨ne01, ne02, ne12⟩ : c.idx0 ≠ c.idx1 ∧ c.idx0 ≠ c.idx2 ∧ c.idx1 ≠ c.idx2 := by
      simpa [Chain.descs, and_assoc] using g.slots.distinct p c (held_of_stage hp)
    rw [moved_stage]
    intro q st c' hq ne
    by_cases same : q = p
    · rw [same, Function.update_self] at hq
      cases hq
      exact ⟨(Function.update_of_ne ne02 _ _).trans ((Function.update_of_ne ne01 _ _).trans
        (Function.update_self ..)), (Function.update_of_ne ne12 _ _).trans
          (Function.update_self ..), Function.update_self ..⟩
    · rw [Function.update_of_ne same] at hq
      refine (g.linked q st c' hq ne).congr fun i hi => ?_
      have notMine := g.slots.apart q p c' c same (held_of_stage hq) (held_of_stage hp) i hi
      simp only [Chain.descs, List.mem_cons, List.not_mem_nil, or_false, not_or] at notMine
      obtain ⟨ne0, ne1, ne2⟩ := notMine
      change Function.update (Function.update (Function.update _ _ _) _ _) _ _ i = _
      rw [Function.update_of_ne ne2, Function.update_of_ne ne1, Function.update_of_ne ne0]
  requests := by
    rw [moved_stage]
    exact .publish g hp clear
  taken := by
    have le := g.fetched_le
    have notTaken : ∀ n ∈ List.range' s.fetched (s.hist.published.length - s.fetched),
        Unhandled s.hist n := by
      intro n hn
      rw [List.mem_range'_1] at hn
      exact g.unhandled_published hn.1 (by omega)
    have few := g.few_publish List.nodup_range' notTaken hp
    rw [List.length_range'] at few
    refine ⟨?_, ?_, g.taken.seen, g.taken.nums, ?_⟩
    · have cell : s.disk.availIdx % NUM = (s.hist.published.map (·.idx0)).length % NUM := by
        rw [g.taken.idx, List.length_map]
        exact counter_cell (by decide) _
      have pushed := g.taken.ring.push (by rw [List.length_map]; omega) c.idx0
      change InRing NUM (Function.update _ (s.disk.availIdx % NUM) c.idx0)
        ((s.hist.published ++ [c]).map _) _
      rw [cell, List.map_append]
      exact pushed
    · change (s.disk.availIdx + 1) % 2 ^ 16 = (s.hist.published ++ [c]).length % 2 ^ 16
      rw [g.taken.idx, List.length_append, List.length_singleton]
      exact counter_succ _ _
    · intro r hr
      obtain ⟨c', hc', head⟩ := g.taken.heads r hr
      exact ⟨c', (History.publish_old (List.getElem?_eq_some_iff.mp hc').1).trans hc', head⟩
  returned := by
    refine ⟨g.returned.ring, g.returned.idx, ?_⟩
    have due : s.hist.completed.map (s.hist.publish p c).due = s.hist.completed.map s.hist.due := by
      refine List.map_congr_left fun r hr => ?_
      have lt := Nat.lt_of_lt_of_le (g.num_lt (List.mem_append_right _ hr)) g.fetched_le
      rw [History.due, History.due, History.publish_old lt]
    change s.hist.handled <+: s.hist.completed.map (s.hist.publish p c).due
    rw [due]
    exact g.returned.due
  alone := g.alone.outside hb id

theorem Good.clear (g : Good s) {k : Caller β} {id : Fin NUM}
    (hp : s.loc p = .used k (.clear id)) :
    ∃ n c, s.hist.completed[s.hist.handled.length]? = some (n, id) ∧
      s.hist.published[n]? = some c ∧ (s.disk.info id).b = some c.b ∧
      Good (s.moved p (.used k .advance) { s.disk with
        flag := Function.update s.disk.flag c.b false } (s.hist.handle (id, some c.b))) := by
  obtain ⟨others, idx, n, hr⟩ := g.alone.handling hp (by rw [hp]; trivial)
  obtain ⟨q, c, hq, -, head, hc⟩ := g.nextWaits hr
  have info := g.requests.buffer q c hq
  rw [head] at info
  refine ⟨n, c, hr, hc, info, ?_⟩
  have same : (Loc.used k .advance).stage = s.stage p := by
    rw [Virtio.stage, hp]
    cases k <;> rfl
  have length : (s.hist.handle (id, some c.b)).handled.length = s.hist.handled.length + 1 := by
    rw [History.handle, List.length_append, List.length_singleton]
  refine ⟨?_, ?_, ?_, ⟨g.taken.ring, g.taken.idx, g.taken.seen, g.taken.nums, g.taken.heads⟩,
    ⟨?_, g.returned.idx, ?_⟩, ?_⟩
  · rw [moved_held_same (by rw [same]; rfl)]
    exact g.slots
  · rw [moved_stage_same same]
    exact g.linked
  · rw [moved_stage_same same]
    exact .handle g hr hc
  · have cell : (s.hist.completed.map Prod.snd)[s.hist.handled.length]? = some id := by
      rw [List.getElem?_map, hr]
      rfl
    have popped := (g.returned.ring.pop cell).2
    rw [← length] at popped
    exact popped
  · have due : (s.hist.completed.map s.hist.due)[s.hist.handled.length]? = some (id, some c.b) := by
      rw [List.getElem?_map, hr, Option.map_some, History.due, hc, Option.map_some]
    change s.hist.handled ++ [(id, some c.b)] <+: s.hist.completed.map s.hist.due
    rw [List.prefix_iff_eq_take, List.length_append, List.length_singleton, List.take_add_one, due,
      ← List.prefix_iff_eq_take.mp g.returned.due]
    rfl
  · exact .inside others ⟨_, length, idx⟩

end Steps

section Safety

variable {s s' : Virtio P β} {l : Label P} {p : P}

/-- No request has been made. -/
structure Start (s : Virtio P β) : Prop where
  idle : ∀ p, s.loc p = .idle
  free : ∀ i, s.disk.free i = true
  zero : ∀ i, s.disk.desc i = .zero
  flag : ∀ b, s.disk.flag b = false
  indices : s.disk.availIdx = 0 ∧ s.disk.usedRingIdx = 0 ∧ s.disk.usedIdx = 0 ∧ s.seen = 0
  taken : s.fetched = 0 ∧ s.pending = []
  hist : s.hist.published = [] ∧ s.hist.completed = [] ∧ s.hist.handled = []

theorem Start.good (h : Start s) : Good s := by
  obtain ⟨avail, used, mine, seen⟩ := h.indices
  obtain ⟨fetched, pending⟩ := h.taken
  obtain ⟨published, completed, handled⟩ := h.hist
  have stage : ∀ p, s.stage p = none := fun p => by
    rw [Virtio.stage, h.idle]
    rfl
  have held : ∀ p, s.held p = none := fun p => by
    rw [Virtio.held, stage]
    rfl
  have none : ∀ {q st c}, s.stage q ≠ some (st, c) := fun {q st c} hq => by
    cases (stage q).symm.trans hq
  have unhandled : ∀ n, ¬ Unhandled s.hist n := fun n hn => by
    have := hn.1
    rw [published] at this
    exact Nat.not_lt_zero n this
  refine ⟨⟨?_, ?_, ?_, fun i _ => h.zero i⟩, fun q st c hq => absurd hq none,
    ⟨fun q st c hq => absurd hq none, fun q x st st' c c' hq => absurd hq none,
      fun n hn => absurd hn (unhandled n), fun q st c hq => absurd hq none,
      fun q c hq => absurd hq none, fun q c hq => absurd hq none, ?_,
      fun n m c c' hn => absurd hn (unhandled n)⟩, ⟨?_, ?_, ?_, ?_, ?_⟩, ⟨?_, ?_, ?_⟩, Or.inl ⟨?_, ?_⟩⟩
  · exact fun p c hp => absurd ((held p).symm.trans hp) (by rintro ⟨⟩)
  · exact fun p q c c' _ hp => absurd ((held p).symm.trans hp) (by rintro ⟨⟩)
  · exact fun i => iff_of_true (h.free i) fun p c hp => absurd ((held p).symm.trans hp) (by rintro ⟨⟩)
  · intro b
    rw [h.flag]
    exact iff_of_false Bool.false_ne_true (by rintro ⟨n, -, hn, -⟩; exact unhandled n hn)
  · rw [published, fetched]
    exact .empty _ _
  · rw [avail, published]
    rfl
  · rw [seen, fetched, Nat.zero_mod]
  · rw [pending, completed, fetched]
    exact .nil
  · rw [pending, completed]
    intro c hc
    cases hc
  · rw [completed, handled]
    exact .empty _ _
  · rw [used, completed]
    rfl
  · rw [handled]
    exact List.nil_prefix
  · intro p
    rw [h.idle]
    exact id
  · rw [mine, handled]
    rfl

theorem Handling.body {h : History P β} {usedIdx : ℕ} {k : Caller β} {u : Used}
    (hu : Handling h usedIdx u) : (Loc.used k u).body := by
  cases u <;> first | exact trivial | cases hu

/-- The completions in the used ring are few. -/
theorem Good.window (g : Good s) : s.hist.handled.length ≤ s.hist.completed.length ∧
    s.hist.completed.length ≤ s.hist.handled.length + 8 := by
  have le := g.returned.ring.lo_le
  have room := g.returned.ring.room
  rw [List.length_map] at le room
  exact ⟨le, room⟩

/-- When the indices differ a completion is to be handled. -/
theorem Good.behind (g : Good s) (none : ∀ p, ¬ (s.loc p).body)
    (more : s.disk.usedIdx ≠ s.disk.usedRingIdx) : Handling s.hist s.disk.usedIdx .read := by
  rcases g.alone with ⟨-, idx⟩ | ⟨p, k, u, hp, -, handling⟩
  · obtain ⟨le, room⟩ := g.window
    rw [idx, g.returned.idx, Ne, counter_eq_iff le (by omega)] at more
    exact ⟨idx, Nat.lt_of_le_of_ne le more⟩
  · refine absurd ?_ (none p)
    rw [hp]
    exact handling.body

theorem Good.caughtUp (g : Good s) (same : s.disk.usedIdx = s.disk.usedRingIdx) :
    s.hist.handled = s.hist.completed.map s.hist.due := by
  obtain ⟨le, room⟩ := g.window
  rw [g.returned.idx] at same
  have all : s.hist.handled.length = s.hist.completed.length := by
    rcases g.alone with ⟨-, idx⟩ | ⟨p, k, u, -, -, handling⟩
    · rw [idx, counter_eq_iff le (by omega)] at same
      exact same
    · exfalso
      have lt : ∀ {r}, s.hist.completed[s.hist.handled.length]? = some r →
          s.hist.handled.length < s.hist.completed.length :=
        fun hr => (List.getElem?_eq_some_iff.mp hr).1
      cases u with
      | test => exact handling
      | read =>
        rw [handling.1, counter_eq_iff le (by omega)] at same
        exact absurd handling.2 (by omega)
      | check id =>
        obtain ⟨idx, n, hr⟩ := handling
        rw [idx, counter_eq_iff le (by omega)] at same
        exact absurd (lt hr) (by omega)
      | clear id =>
        obtain ⟨idx, n, hr⟩ := handling
        rw [idx, counter_eq_iff le (by omega)] at same
        exact absurd (lt hr) (by omega)
      | advance =>
        obtain ⟨m, length, idx⟩ := handling
        rw [idx, counter_eq_iff (by omega) (by omega)] at same
        omega
  refine g.returned.due.eq_of_length ?_
  rw [all, List.length_map]

variable [DecidableEq P] [DecidableEq β]

/-- The descriptors of the calls are disjoint and `free` marks the others; the completions are
    handled in their order, each once, with the buffer that was submitted. -/
structure Safe (s : Virtio P β) : Prop where
  distinct : ∀ p c, s.held p = some c → c.descs.Nodup
  apart : ∀ p q c c', p ≠ q → s.held p = some c → s.held q = some c' →
    ∀ i ∈ c.descs, i ∉ c'.descs
  free : ∀ i, s.disk.free i = true ↔ ∀ p c, s.held p = some c → i ∉ c.descs
  once : (s.hist.completed.map Prod.fst).Nodup
  handled : s.hist.handled <+: s.hist.completed.map s.hist.due
  caughtUp : s.disk.usedIdx = s.disk.usedRingIdx →
    s.hist.handled = s.hist.completed.map s.hist.due
  noPanic : ∀ p w d, (s.loc p).comp.run s.disk ≠ .halt w d

/-- A call returns after its request has completed, with its descriptors free again. A `disk` flag is
    cleared only when a completion is handled, and then it is that of the buffer submitted. -/
structure StepSafe (s : Virtio P β) (l : Label P) (s' : Virtio P β) : Prop where
  returns : ∀ p c, l = .proc p → s.loc p = .release c →
    s.hist.serial p ∈ s.hist.completed.map Prod.fst ∧ ∀ i ∈ c.descs, s'.disk.free i = true
  clear : ∀ p k id, l = .proc p → s.loc p = .used k (.clear id) →
    ∃ n c, s.hist.completed[s.hist.handled.length]? = some (n, id) ∧
      s.hist.published[n]? = some c ∧ s'.disk.flag = Function.update s.disk.flag c.b false
  kept : (∀ p k id, l = .proc p → s.loc p ≠ .used k (.clear id)) →
    ∀ b, s.disk.flag b = true → s'.disk.flag b = true

/-- No request is published on a buffer whose `disk` flag is set, and no one enters the loop over the
    used ring while another one is in it. -/
def Undisturbed (s : Virtio P β) : Label P → Prop
  | .proc p => (∀ c, s.loc p = .publish c → s.disk.flag c.b = false) ∧
      ∀ k, s.loc p = .used k .test → s.disk.usedIdx ≠ s.disk.usedRingIdx →
        ∀ q, ¬ (s.loc q).body
  | _ => True

/-- What the next step of a process does. -/
structure Proceeds (s : Virtio P β) (p : P) (next : Loc β) (d : Disk β) : Prop where
  run : (s.loc p).comp.run s.disk = .ok next d
  good : Undisturbed s (.proc p) → Good (s.moved p next d (s.hist.after p s.disk (s.loc p)))
  returns : ∀ c, s.loc p = .release c →
    s.hist.serial p ∈ s.hist.completed.map Prod.fst ∧ ∀ i ∈ c.descs, d.free i = true
  clear : ∀ k id, s.loc p = .used k (.clear id) →
    ∃ n c, s.hist.completed[s.hist.handled.length]? = some (n, id) ∧
      s.hist.published[n]? = some c ∧ d.flag = Function.update s.disk.flag c.b false
  kept : (∀ k id, s.loc p ≠ .used k (.clear id)) → ∀ b, s.disk.flag b = true → d.flag b = true

/-- A step that neither returns nor clears a flag. -/
theorem Proceeds.plain {here next : Loc β} {d : Disk β} (hp : s.loc p = here)
    (run : here.comp.run s.disk = .ok next d)
    (good : Undisturbed s (.proc p) → Good (s.moved p next d (s.hist.after p s.disk here)))
    (release : ∀ c, here ≠ .release c) (clear : ∀ k id, here ≠ .used k (.clear id))
    (kept : ∀ b, s.disk.flag b = true → d.flag b = true) : Proceeds s p next d := by
  subst hp
  exact ⟨run, good, fun c hc => absurd hc (release c), fun k id hk => absurd hk (clear k id),
    fun _ => kept⟩

theorem Good.proceeds (g : Good s) (p : P) : ∃ next d, Proceeds s p next d := by
  cases hl : s.loc p with
  | idle =>
    refine ⟨.idle, s.disk, .plain hl rfl (fun _ => ?_) nofun nofun fun _ => id⟩
    have outside : ¬ (s.loc p).body := by rw [hl]; exact id
    exact g.quiet (by rw [Virtio.stage, hl]) (g.alone.outside outside id)
  | alloc r =>
    have outside : ¬ (s.loc p).body := by rw [hl]; exact id
    have none : s.stage p = none := by rw [Virtio.stage, hl]; rfl
    rcases alloc3Desc_run g.slots.zero with run | ⟨i, j, k, free, run, nodup, wasFree, nowFree⟩
    · refine ⟨.used (.alloc r) .test, s.disk, .plain hl ?_ (fun _ => ?_) nofun nofun fun _ => id⟩
      · rw [Loc.comp, Comp.run_bind_of_ok run]
        rfl
      · exact g.quiet none.symm (g.alone.outside outside id)
    · refine ⟨.publish ⟨r, i, j, k⟩, s.disk.setFree free, .plain hl ?_ (fun _ => ?_) nofun nofun
        fun _ => id⟩
      · rw [Loc.comp, Comp.run_bind_of_ok run]
        rfl
      · exact g.alloc none outside nodup wasFree nowFree
  | publish c =>
    have outside : ¬ (s.loc p).body := by rw [hl]; exact id
    have stage : s.stage p = some (.publish, c) := by rw [Virtio.stage, hl]; rfl
    refine ⟨.wait c, s.disk.publish c, .plain hl rfl (fun calm => ?_) nofun nofun ?_⟩
    · exact g.publish stage outside (calm.1 c hl)
    · intro b hb
      by_cases same : b = c.b
      · rw [same]
        exact Function.update_self ..
      · exact (Function.update_of_ne same _ _).trans hb
  | wait c =>
    have outside : ¬ (s.loc p).body := by rw [hl]; exact id
    have stage : s.stage p = some (.wait, c) := by rw [Virtio.stage, hl]; rfl
    cases flag : s.disk.flag c.b with
    | true =>
      refine ⟨.used (.wait c) .test, s.disk, .plain hl ?_ (fun _ => ?_) nofun nofun fun _ => id⟩
      · rw [Loc.comp, Comp.bind_get_run, if_pos flag]
        rfl
      · exact g.quiet stage.symm (g.alone.outside outside id)
    | false =>
      refine ⟨.unlink c, s.disk, .plain hl ?_ (fun _ => ?_) nofun nofun fun _ => id⟩
      · rw [Loc.comp, Comp.bind_get_run, if_neg (by rw [flag]; exact Bool.false_ne_true)]
        rfl
      · exact g.exit stage outside flag
  | unlink c =>
    have outside : ¬ (s.loc p).body := by rw [hl]; exact id
    have stage : s.stage p = some (.unlink, c) := by rw [Virtio.stage, hl]; rfl
    exact ⟨.release c, _, .plain hl rfl (fun _ => g.unlink stage outside) nofun nofun fun _ => id⟩
  | release c =>
    have outside : ¬ (s.loc p).body := by rw [hl]; exact id
    have stage : s.stage p = some (.release, c) := by rw [Virtio.stage, hl]; rfl
    have held := held_of_stage stage
    have run := freeChain_run (g.linked p _ c stage (by decide)) (g.slots.distinct p c held)
      fun i hi => Bool.eq_false_iff.mpr fun free => (g.slots.free_iff i).mp free p c held hi
    refine ⟨.idle, s.disk.give c, ?_, fun _ => ?_, fun c' hc => ?_, fun k id hk => ?_,
      fun _ _ => id⟩
    · rw [hl, Loc.comp, Comp.run_bind_of_ok run]
      rfl
    · rw [hl]
      exact g.release stage outside
    · cases hl.symm.trans hc
      exact ⟨History.done_subset (g.requests.finished p _ c stage (Or.inr rfl)),
        fun i hi => if_pos hi⟩
    · cases hl.symm.trans hk
  | used k u =>
    have stage : ∀ u', (Loc.used k u').stage = s.stage p := fun u' => by
      rw [Virtio.stage, hl]
      cases k <;> rfl
    cases u with
    | test =>
      have outside : ¬ (s.loc p).body := by rw [hl]; exact id
      by_cases more : s.disk.usedIdx ≠ s.disk.usedRingIdx
      · refine ⟨.used k .read, s.disk, .plain hl ?_ (fun calm => ?_) nofun nofun fun _ => id⟩
        · rw [Loc.comp, Used.comp, Comp.bind_get_run, if_pos more]
          rfl
        · have none := calm.2 k hl more
          exact g.quiet (stage _) (.inside (fun q _ => none q) (g.behind none more))
      · refine ⟨k.loc, s.disk, .plain hl ?_ (fun _ => ?_) nofun nofun fun _ => id⟩
        · rw [Loc.comp, Used.comp, Comp.bind_get_run, if_neg more]
          rfl
        · refine g.quiet ?_ (g.alone.outside outside ?_)
          · rw [← stage .test]
            cases k <;> rfl
          · cases k <;> exact id
    | read =>
      obtain ⟨others, idx, more⟩ := g.alone.handling hl (by rw [hl]; trivial)
      refine ⟨.used k (.check (s.disk.usedRing (s.disk.usedIdx % NUM))), s.disk, .plain hl rfl
        (fun _ => ?_) nofun nofun fun _ => id⟩
      refine g.quiet (stage _) (.inside others ⟨idx, ?_⟩)
      obtain ⟨r, hr⟩ : ∃ r, s.hist.completed[s.hist.handled.length]? = some r :=
        ⟨_, List.getElem?_eq_getElem more⟩
      have cell : s.disk.usedIdx % NUM = s.hist.handled.length % NUM := by
        rw [idx]
        exact counter_cell (by decide) _
      have entry := (g.returned.ring.pop (x := r.2) (by rw [List.getElem?_map, hr]; rfl)).1
      rw [cell, entry]
      exact ⟨r.1, hr⟩
    | check id =>
      obtain ⟨others, idx, n, hr⟩ := g.alone.handling hl (by rw [hl]; trivial)
      obtain ⟨q, c, hq, serial, head, -⟩ := g.nextWaits hr
      have status := g.requests.status q c hq (by
        rw [serial]
        exact List.mem_map_of_mem (List.mem_of_getElem? hr))
      rw [head] at status
      refine ⟨.used k (.clear id), s.disk, .plain hl ?_ (fun _ => ?_) nofun nofun fun _ h => h⟩
      · rw [Loc.comp, Used.comp, Comp.bind_get_run, if_neg (not_not.mpr status)]
        rfl
      · exact g.quiet (stage _) (.inside others ⟨idx, n, hr⟩)
    | clear id =>
      obtain ⟨n, c, hr, hc, info, good⟩ := g.clear hl
      refine ⟨.used k .advance, { s.disk with flag := Function.update s.disk.flag c.b false },
        ?_, fun _ => ?_, fun c' hc => ?_, fun k' id' hk => ?_, fun no => absurd hl (no k id)⟩
      · rw [hl, Loc.comp, Used.comp, Comp.bind_modify_run, info]
        rfl
      · rw [hl, History.after, info]
        exact good
      · cases hl.symm.trans hc
      · cases hl.symm.trans hk
        exact ⟨n, c, hr, hc, rfl⟩
    | advance =>
      obtain ⟨others, m, length, idx⟩ := g.alone.handling hl (by rw [hl]; trivial)
      refine ⟨.used k .test, { s.disk with usedIdx := (s.disk.usedIdx + 1) % 2 ^ 16 },
        .plain hl rfl (fun _ => ?_) nofun nofun fun _ => id⟩
      refine g.quiet (stage _) (Or.inl ⟨fun q => ?_, ?_⟩)
      · by_cases same : q = p
        · rw [same, Function.update_self]
          exact id
        · rw [Function.update_of_ne same]
          exact others q same
      · rw [idx, length]
        exact counter_succ _ _

theorem Good.safe (g : Good s) : Safe s where
  distinct := g.slots.distinct
  apart := g.slots.apart
  free := g.slots.free_iff
  once := g.completed_nodup
  handled := g.returned.due
  caughtUp := g.caughtUp
  noPanic := by
    intro p w d halt
    obtain ⟨next, d', go⟩ := g.proceeds p
    rw [go.run] at halt
    cases halt

theorem Good.step (g : Good s) (hs : Step s l s') (calm : Undisturbed s l) :
    Good s' ∧ StepSafe s l s' := by
  have still : ∀ {t : Virtio P β}, (∀ p, l ≠ .proc p) → t.disk.flag = s.disk.flag →
      StepSafe s l t := by
    intro t other flag
    refine ⟨fun p c hl => absurd hl (other p), fun p k id hl => absurd hl (other p), fun _ b hb => ?_⟩
    rw [flag]
    exact hb
  cases hs with
  | @call p r h =>
    refine ⟨g.quiet ?_ (g.alone.outside ?_ id), still nofun rfl⟩
    · rw [Virtio.stage, h]
      rfl
    · rw [h]
      exact id
  | @intr p h =>
    refine ⟨g.quiet ?_ (g.alone.outside ?_ id), still nofun rfl⟩
    · rw [Virtio.stage, h]
      rfl
    · rw [h]
      exact id
  | fetch h => exact ⟨g.fetch h, still nofun rfl⟩
  | complete h => exact ⟨g.complete h, still nofun rfl⟩
  | @proc p next d h hr =>
    obtain ⟨next', d', go⟩ := g.proceeds p
    cases go.run.symm.trans hr
    refine ⟨go.good calm, ⟨?_, ?_, ?_⟩⟩
    · rintro q c ⟨⟩ hc
      exact go.returns c hc
    · rintro q k id ⟨⟩ hk
      exact go.clear k id hk
    · exact fun other => go.kept fun k id => other p k id rfl

end Safety

section Example

/-- Two processes, two buffers, and a disk after `virtio_disk_init`. -/
def exampleVirtio : Virtio (Fin 2) (Fin 2) where
  disk := ⟨fun _ => .zero, 0, fun _ => ⟨0, NUM_pos⟩, 0, fun _ => ⟨0, NUM_pos⟩, fun _ => true, 0, fun _ => ⟨none, 0⟩,
    fun _ => ⟨false, 0⟩, fun _ => false⟩
  loc := fun _ => .idle
  seen := 0
  fetched := 0
  pending := []
  hist := ⟨[], fun _ => 0, [], []⟩

/-- A process is in the loop while another one handles the completion, returns and makes its next
    request: the driver's own test panics. -/
theorem status_panics : ∃ tr, Along Step exampleVirtio tr ∧
    ∃ d, ((final exampleVirtio tr).loc 1).comp.run (final exampleVirtio tr).disk =
      .halt "virtio_disk status" d := by
  refine ⟨[(.call 0, _), (.call 1, _), (.proc 0, _), (.proc 0, _), (.proc 1, _), (.proc 1, _),
    (.fetch, _), (.complete (0, 0), _), (.proc 1, _), (.proc 1, _), (.proc 1, _), (.proc 0, _),
    (.proc 0, _), (.proc 0, _), (.proc 0, _), (.proc 0, _), (.proc 0, _), (.proc 0, _),
    (.proc 0, _), (.proc 0, _), (.proc 0, _), (.call 0, _), (.proc 0, _), (.proc 0, _)],
    ⟨.call ⟨0, 5, false⟩ rfl, .call ⟨1, 6, false⟩ rfl, .proc nofun rfl, .proc nofun rfl,
      .proc nofun rfl, .proc nofun rfl, .fetch (by decide), .complete (by decide),
      .proc nofun rfl, .proc nofun rfl, .proc nofun rfl, .proc nofun rfl, .proc nofun rfl,
      .proc nofun rfl, .proc nofun rfl, .proc nofun rfl, .proc nofun rfl, .proc nofun rfl,
      .proc nofun rfl, .proc nofun rfl, .proc nofun rfl, .call ⟨0, 7, false⟩ rfl,
      .proc nofun rfl, .proc nofun rfl, trivial⟩, ?_⟩
  exact ⟨_, rfl⟩

/-- Two calls for one buffer: the second one returns while its request is under way. -/
theorem returns_early : ∃ tr, Along Step exampleVirtio tr ∧
    (final exampleVirtio tr).hist.serial 1 = 1 ∧ (final exampleVirtio tr).pending = [(1, 3)] ∧
      (final exampleVirtio tr).loc 1 = .idle := by
  refine ⟨[(.call 0, _), (.call 1, _), (.proc 0, _), (.proc 0, _), (.proc 1, _), (.proc 1, _),
    (.fetch, _), (.fetch, _), (.complete (0, 0), _), (.proc 0, _), (.proc 0, _), (.proc 0, _),
    (.proc 0, _), (.proc 0, _), (.proc 1, _), (.proc 1, _), (.proc 1, _)],
    ⟨.call ⟨0, 5, false⟩ rfl, .call ⟨0, 5, false⟩ rfl, .proc nofun rfl, .proc nofun rfl,
      .proc nofun rfl, .proc nofun rfl, .fetch (by decide), .fetch (by decide),
      .complete (by decide), .proc nofun rfl, .proc nofun rfl, .proc nofun rfl, .proc nofun rfl,
      .proc nofun rfl, .proc nofun rfl, .proc nofun rfl, .proc nofun rfl, trivial⟩, rfl, rfl, rfl⟩

end Example

end EasyXv6.Dev
