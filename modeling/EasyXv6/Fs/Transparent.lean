import EasyXv6.Fs.Bcache

set_option autoImplicit false

/-!
# The buffer cache is transparent

What a sequence of calls on the cache and of stores to the contents of its buffers keeps. The driver
ignores the device, so the contents are those of one device.
-/
namespace EasyXv6.Fs.Bcache
open Lib

section Calls

variable {c c' : Bcache} {l : List (Fin NBUF)} {i j : Fin NBUF} {dev b : ℕ} {strict : Prop}

/-- The buffer is one of the block. -/
def Caches (c : Bcache) (i : Fin NBUF) (dev b : ℕ) : Prop :=
  (c.buf i).dev = dev ∧ (c.buf i).blockno = b

instance (c : Bcache) (i : Fin NBUF) (dev b : ℕ) : Decidable (c.Caches i dev b) := by
  unfold Caches
  infer_instance

/-- A buffer that has never been used has device and block 0, and the search for the block of one
    that has been used finds it. This holds of the device 0 as well if the calls are `strict`: none is
    on a buffer that has never been used. -/
structure Ordered (strict : Prop) (c : Bcache) (l : List (Fin NBUF)) : Prop extends c.Lru l where
  found : ∀ i, (c.buf i).valid = true → strict ∨ (c.buf i).dev ≠ 0 →
    l.find? (fun j => c.Caches j (c.buf i).dev (c.buf i).blockno) = some i
  fresh : ∀ i, (c.buf i).valid = false → c.Caches i 0 0 ∧ (strict → (c.buf i).refcnt = 0)

@[simp] theorem modBuf_buf_self (c : Bcache) (i : Fin NBUF) (f : Buf → Buf) :
    (c.modBuf i f).buf i = f (c.buf i) :=
  Function.update_self ..

theorem modBuf_buf_of_ne (c : Bcache) (f : Buf → Buf) (h : j ≠ i) :
    (c.modBuf i f).buf j = c.buf j :=
  Function.update_of_ne h ..

theorem modBuf_modBuf (c : Bcache) (i : Fin NBUF) (f g : Buf → Buf) :
    (c.modBuf i f).modBuf i g = c.modBuf i fun x => g (f x) := by
  simp [modBuf]

/-- What `bread` does: the block is found, or an unreferenced buffer is reassigned. In both cases the
    contents are read from the disk if they are not there. -/
inductive Breads (c : Bcache) (l : List (Fin NBUF)) (dev b : ℕ) (i : Fin NBUF) : Buf → Prop
  | hit (h : l.find? (fun j => c.Caches j dev b) = some i) : Breads c l dev b i
      { c.buf i with
        refcnt := ((c.buf i).refcnt + 1) % 2 ^ 64
        valid := true
        data := if (c.buf i).valid then (c.buf i).data else c.disk b }
  | miss (none : ∀ j, ¬ c.Caches j dev b) (free : (c.buf i).refcnt = 0) : Breads c l dev b i
      { valid := true, dev := dev, blockno := b, refcnt := 1, data := c.disk b }

theorem bget_run (h : c.Lru l) (hb : b < FSSIZE) : (bget dev b).run c =
    match l.find? (fun j => c.Caches j dev b) with
    | some i => .ok i (c.modBuf i fun x => { x with refcnt := (x.refcnt + 1) % 2 ^ 64 })
    | none => match l.reverse.find? (fun j => (c.buf j).refcnt = 0) with
      | some i => .ok i (c.modBuf i fun x =>
          { x with dev := dev, blockno := b, valid := false, refcnt := 1 })
      | none => .halt "bget: no buffers" c := by
  unfold bget
  rw [if_neg (Nat.not_le.mpr hb), Comp.bind_get_run, (h.search _).1]
  change _ = match l.find? (fun j => decide ((c.buf j).dev = dev ∧ (c.buf j).blockno = b)) with
    | some i => _ | none => _
  cases l.find? (fun j => decide ((c.buf j).dev = dev ∧ (c.buf j).blockno = b)) with
  | some i => rfl
  | none =>
    dsimp only
    rw [(h.search _).2]
    cases l.reverse.find? (fun j => decide ((c.buf j).refcnt = 0)) <;> rfl

/-- The contents are read from the disk if they are not there. -/
def load (c : Bcache) (i : Fin NBUF) : Bcache :=
  if (c.buf i).valid then c
  else c.modBuf i fun x => { x with data := c.disk x.blockno, valid := true }

theorem bread_of_bget (hr : (bget dev b).run c = .ok i c') :
    (bread dev b).run c = .ok i (c'.load i) := by
  unfold bread load
  rw [Comp.run_bind_of_ok hr, Comp.bind_get_run]
  split
  · rfl
  · rw [Comp.bind_modify_run, Comp.bind_modify_run, Comp.run_pure]
    simp [modBuf]

theorem find_prop {p : Fin NBUF → Prop} [DecidablePred p]
    (found : l.find? (fun k => p k) = some i) : p i := by
  have := List.find?_some found
  rwa [decide_eq_true_eq] at this

theorem find_cases {p : Fin NBUF → Prop} [DecidablePred p] (all : ∀ i, i ∈ l) :
    (∃ i, l.find? (fun j => p j) = some i ∧ p i) ∨ l.find? (fun j => p j) = none ∧ ∀ j, ¬ p j := by
  cases found : l.find? (fun j => p j) with
  | some i => exact Or.inl ⟨i, rfl, find_prop found⟩
  | none =>
    right
    refine ⟨rfl, fun j hj => ?_⟩
    have := List.find?_eq_none.mp found j (all j)
    rw [decide_eq_true_eq] at this
    exact this hj

theorem bread_cases (h : c.Lru l) (hr : (bread dev b).run c = .ok i c') :
    b < FSSIZE ∧ ∃ x, Breads c l dev b i x ∧ c' = c.modBuf i fun _ => x := by
  have hb : b < FSSIZE := by
    by_contra large
    unfold bread bget at hr
    rw [if_pos (Nat.not_lt.mp large)] at hr
    cases hr
  refine ⟨hb, ?_⟩
  have get := @bget_run _ _ dev _ h hb
  rcases find_cases (p := fun j => c.Caches j dev b) h.mem with
    ⟨j, found, caches⟩ | ⟨found, none⟩ <;> rw [found] at get
  · rw [bread_of_bget get] at hr
    cases hr
    refine ⟨_, .hit found, ?_⟩
    unfold load
    rw [modBuf_buf_self]
    dsimp only
    cases valid : (c.buf i).valid with
    | true =>
      rw [if_pos rfl, if_pos rfl, modBuf, modBuf, ← valid]
    | false =>
      rw [if_neg Bool.false_ne_true, if_neg Bool.false_ne_true, modBuf_modBuf, ← caches.2]
      rfl
  · dsimp only at get
    rcases find_cases (p := fun j => (c.buf j).refcnt = 0) fun j => List.mem_reverse.mpr (h.mem j)
      with ⟨j, found', free⟩ | ⟨found', -⟩ <;> rw [found'] at get
    · rw [bread_of_bget get] at hr
      cases hr
      refine ⟨_, .miss none free, ?_⟩
      unfold load
      rw [modBuf_buf_self, if_neg Bool.false_ne_true, modBuf_modBuf]
      rfl
    · unfold bread at hr
      rw [Comp.run_bind_of_halt get] at hr
      cases hr

theorem bread_returns (h : c.Lru l) (hb : b < FSSIZE)
    (room : (∃ j, c.Caches j dev b) ∨ ∃ j, (c.buf j).refcnt = 0) :
    ∃ i c', (bread dev b).run c = .ok i c' := by
  have get := @bget_run _ _ dev _ h hb
  rcases find_cases (p := fun j => c.Caches j dev b) h.mem with ⟨j, found, -⟩ | ⟨found, none⟩ <;>
    rw [found] at get
  · exact ⟨_, _, bread_of_bget get⟩
  · obtain ⟨j, free⟩ := room.resolve_left fun ⟨j, hj⟩ => none j hj
    dsimp only at get
    rcases find_cases (p := fun j => (c.buf j).refcnt = 0) fun j => List.mem_reverse.mpr (h.mem j)
      with ⟨k, found', -⟩ | ⟨-, no⟩
    · rw [found'] at get
      exact ⟨_, _, bread_of_bget get⟩
    · exact absurd free (no j)

theorem brelse_cases (hr : (brelse i).run c = .ok () c') : 0 < (c.buf i).refcnt ∧
    c' = if (c.buf i).refcnt - 1 = 0 then
        ((c.modBuf i fun x => { x with refcnt := x.refcnt - 1 }).unlink i).toFront i
      else c.modBuf i fun x => { x with refcnt := x.refcnt - 1 } := by
  unfold brelse at hr
  by_cases unused : (c.buf i).refcnt < 1
  · rw [Comp.bind_get_run, if_pos unused] at hr
    cases hr
  rw [Comp.bind_get_run, if_neg unused, Comp.bind_modify_run, Comp.bind_get_run, modBuf_buf_self]
    at hr
  refine ⟨Nat.pos_of_ne_zero fun zero => unused (by omega), ?_⟩
  dsimp only at hr
  split at hr
  next last =>
    cases hr
    exact (if_pos last).symm
  next more =>
    cases hr
    exact (if_neg more).symm

theorem bwrite_cases (hr : (bwrite i).run c = .ok () c') : 0 < (c.buf i).refcnt ∧
    c' = { c with disk := Function.update c.disk (c.buf i).blockno (c.buf i).data } := by
  unfold bwrite at hr
  by_cases unused : (c.buf i).refcnt < 1
  · rw [Comp.bind_get_run, if_pos unused] at hr
    cases hr
  rw [Comp.bind_get_run, if_neg unused] at hr
  cases hr
  exact ⟨Nat.pos_of_ne_zero fun zero => unused (by omega), rfl⟩

theorem bpin_cases (hr : (bpin i).run c = .ok () c') :
    c' = c.modBuf i fun x => { x with refcnt := (x.refcnt + 1) % 2 ^ 64 } := by
  simp only [bpin, Comp.run_modify, Outcome.ok.injEq, true_and] at hr
  exact hr.symm

theorem bunpin_cases (hr : (bunpin i).run c = .ok () c') :
    c' = c.modBuf i fun x => { x with refcnt := if x.refcnt = 0 then 2 ^ 64 - 1 else x.refcnt - 1 } := by
  simp only [bunpin, Comp.run_modify, Outcome.ok.injEq, true_and] at hr
  exact hr.symm

/-- What a call does to one buffer leaves what it caches and whether its contents are there. -/
def SameBlock (x y : Buf) : Prop := y.valid = x.valid ∧ y.dev = x.dev ∧ y.blockno = x.blockno

/-- Only counts of references differ. -/
def SameButCounts (c c' : Bcache) : Prop :=
  c'.disk = c.disk ∧ ∀ j, ∃ n, c'.buf j = { c.buf j with refcnt := n }

theorem modBuf_counts (c : Bcache) (i : Fin NBUF) (f : ℕ → ℕ) :
    SameButCounts c (c.modBuf i fun x => { x with refcnt := f x.refcnt }) := by
  refine ⟨rfl, fun j => ?_⟩
  by_cases same : j = i
  · rw [same, modBuf_buf_self]
    exact ⟨_, rfl⟩
  · rw [modBuf_buf_of_ne _ _ same]
    exact ⟨_, rfl⟩

theorem brelse_counts (hr : (brelse i).run c = .ok () c') : SameButCounts c c' := by
  obtain ⟨-, rfl⟩ := brelse_cases hr
  split <;> exact modBuf_counts c i fun n => n - 1

theorem bpin_counts (hr : (bpin i).run c = .ok () c') : SameButCounts c c' := by
  rw [bpin_cases hr]
  exact modBuf_counts c i fun n => (n + 1) % 2 ^ 64

theorem bunpin_counts (hr : (bunpin i).run c = .ok () c') : SameButCounts c c' := by
  rw [bunpin_cases hr]
  exact modBuf_counts c i fun n => if n = 0 then 2 ^ 64 - 1 else n - 1

theorem SameButCounts.sameBlock (h : SameButCounts c c') (j : Fin NBUF) :
    SameBlock (c.buf j) (c'.buf j) := by
  obtain ⟨n, same⟩ := h.2 j
  rw [same]
  exact ⟨rfl, rfl, rfl⟩

theorem Ordered.of_same (h : c.Ordered strict l) (lru : c'.Lru l)
    (same : ∀ j, SameBlock (c.buf j) (c'.buf j))
    (refs : strict → ∀ j, (c.buf j).valid = false → (c'.buf j).refcnt = (c.buf j).refcnt) :
    c'.Ordered strict l := by
  have caches : ∀ j dev b, c'.Caches j dev b ↔ c.Caches j dev b := by
    intro j dev b
    rw [Caches, Caches, (same j).2.1, (same j).2.2]
  refine ⟨lru, fun i hi hdev => ?_, fun i hi => ?_⟩
  · rw [(same i).1] at hi
    rw [(same i).2.1] at hdev ⊢
    rw [(same i).2.2]
    simpa only [caches] using h.found i hi hdev
  · rw [(same i).1] at hi
    refine ⟨(caches i 0 0).mpr (h.fresh i hi).1, fun hstrict => ?_⟩
    rw [refs hstrict i hi]
    exact (h.fresh i hi).2 hstrict

/-- A buffer is put in front. -/
theorem Ordered.release (h : c.Ordered strict l) (hi : strict → (c.buf i).valid = true) :
    ((c.unlink i).toFront i).Ordered strict (i :: l.erase i) := by
  refine ⟨h.toLru.release i, fun j hj hdev => ?_, h.fresh⟩
  change strict ∨ (c.buf j).dev ≠ 0 at hdev
  change (i :: l.erase i).find? (fun k => c.Caches k (c.buf j).dev (c.buf j).blockno) = some j
  have found := h.found j hj hdev
  by_cases same : c.Caches i (c.buf j).dev (c.buf j).blockno
  · rw [List.find?_cons_of_pos (by simpa using same)]
    have valid : (c.buf i).valid = true := by
      by_contra never
      have zero := (h.fresh i (Bool.eq_false_iff.mpr never)).1
      rcases hdev with hstrict | hdev
      · exact never (hi hstrict)
      · exact hdev (same.1.symm.trans zero.1)
    have foundi := h.found i valid (by rw [same.1]; exact hdev)
    rw [same.1, same.2, found] at foundi
    exact foundi.symm
  · rw [List.find?_cons_of_neg (by simpa using same)]
    obtain ⟨front, back, rfl⟩ := List.append_of_mem (h.mem i)
    have outside : i ∉ front := fun mem =>
      (List.nodup_append.mp h.nodup).2.2 i mem i List.mem_cons_self rfl
    rw [List.find?_append, List.find?_cons_of_neg (by simpa using same)] at found
    rw [List.erase_append_right _ outside, List.erase_cons_head, List.find?_append]
    exact found

/-- What a search finds is found by a search for less. -/
theorem find_weaken {p q : Fin NBUF → Prop} [DecidablePred p] [DecidablePred q]
    (found : l.find? (fun k => p k) = some i) (hi : q i) (weaker : ∀ k, q k → p k) :
    l.find? (fun k => q k) = some i := by
  rw [List.find?_eq_some_iff_append] at found ⊢
  obtain ⟨-, front, back, rfl, before⟩ := found
  refine ⟨decide_eq_true hi, front, back, rfl, fun k hk => ?_⟩
  have no := before k hk
  rw [Bool.not_eq_true', decide_eq_false_iff_not] at no ⊢
  exact fun hq => no (weaker k hq)

theorem Breads.valid {x : Buf} (h : Breads c l dev b i x) : x.valid = true := by
  cases h <;> rfl

theorem Ordered.bread {x : Buf} (h : c.Ordered strict l) (hx : Breads c l dev b i x) :
    (c.modBuf i fun _ => x).Ordered strict l ∧ (c.modBuf i fun _ => x).Caches i dev b := by
  have lru : (c.modBuf i fun _ => x).Lru l := ⟨h.perm, h.cycle⟩
  have other : ∀ {j}, j ≠ i → (c.modBuf i fun _ => x).buf j = c.buf j := modBuf_buf_of_ne c _
  have caches : ∀ {j} dev b, j ≠ i → ((c.modBuf i fun _ => x).Caches j dev b ↔ c.Caches j dev b) :=
    fun dev b hj => by rw [Caches, Caches, other hj]
  have mine : (c.modBuf i fun _ => x).Caches i dev b := by
    rw [Caches, modBuf_buf_self]
    cases hx with
    | hit found => exact find_prop (p := fun k => c.Caches k dev b) found
    | miss none free => exact ⟨rfl, rfl⟩
  have here : x.dev = dev ∧ x.blockno = b := by
    rw [Caches, modBuf_buf_self] at mine
    exact mine
  -- the searches for the blocks of the used buffers
  have weaker : ∀ j, j ≠ i → (c.buf j).valid = true → ∀ k,
      (c.modBuf i fun _ => x).Caches k (c.buf j).dev (c.buf j).blockno →
        c.Caches k (c.buf j).dev (c.buf j).blockno := by
    intro j hj valid k hk
    by_cases same : k = i
    · subst same
      rw [Caches, modBuf_buf_self] at hk
      cases hx with
      | hit found => exact hk
      | miss none free => exact absurd ⟨hk.1.symm, hk.2.symm⟩ (none j)
    · exact (caches _ _ same).mp hk
  refine ⟨⟨lru, fun j hj hdev => ?_, fun j hj => ?_⟩, mine⟩
  · by_cases same : j = i
    · subst same
      rw [modBuf_buf_self, here.1, here.2]
      cases hx with
      | hit found =>
        refine find_weaken found mine fun k hk => ?_
        by_cases same : k = j
        · rw [same]
          exact find_prop (p := fun k => c.Caches k dev b) found
        · exact (caches _ _ same).mp hk
      | miss none free =>
        rcases find_cases (p := fun k => (c.modBuf j fun _ => ⟨true, dev, b, 1, c.disk b⟩).Caches k dev
          b) h.mem with ⟨k, found, hk⟩ | ⟨-, no⟩
        · by_cases same : k = j
          · rw [found, same]
          · exact absurd ((caches _ _ same).mp hk) (none k)
        · exact absurd mine (no j)
    · rw [other same] at hj hdev ⊢
      exact find_weaken (h.found j hj hdev) ((caches _ _ same).mpr ⟨rfl, rfl⟩) (weaker j same hj)
  · by_cases same : j = i
    · subst same
      rw [modBuf_buf_self, hx.valid] at hj
      cases hj
    · rw [other same] at hj ⊢
      exact ⟨(caches _ _ same).mpr (h.fresh j hj).1, (h.fresh j hj).2⟩

end Calls

section Runs

/-- The cache, the bytes stored last for each block, and the buffers changed since their last
    `bwrite`. -/
structure Cached where
  cache : Bcache
  stored : ℕ → Block
  changed : Fin NBUF → Bool

inductive Op
  | bread (dev b : ℕ) (i : Fin NBUF)
  | bwrite (i : Fin NBUF)
  | brelse (i : Fin NBUF)
  | bpin (i : Fin NBUF)
  | bunpin (i : Fin NBUF)
  | store (i : Fin NBUF) (data : Block)

inductive Step : Cached → Op → Cached → Prop
  | bread {s : Cached} {dev b : ℕ} {i : Fin NBUF} {c : Bcache}
      (hr : (bread dev b).run s.cache = .ok i c) : Step s (.bread dev b i) { s with cache := c }
  | bwrite {s : Cached} {i : Fin NBUF} {c : Bcache} (hr : (bwrite i).run s.cache = .ok () c) :
      Step s (.bwrite i) { s with cache := c, changed := Function.update s.changed i false }
  | brelse {s : Cached} {i : Fin NBUF} {c : Bcache} (hr : (brelse i).run s.cache = .ok () c) :
      Step s (.brelse i) { s with cache := c }
  | bpin {s : Cached} {i : Fin NBUF} {c : Bcache} (hr : (bpin i).run s.cache = .ok () c) :
      Step s (.bpin i) { s with cache := c }
  | bunpin {s : Cached} {i : Fin NBUF} {c : Bcache} (hr : (bunpin i).run s.cache = .ok () c) :
      Step s (.bunpin i) { s with cache := c }
  | store {s : Cached} {i : Fin NBUF} {data : Block} : Step s (.store i data) {
      cache := s.cache.modBuf i fun x => { x with data := data }
      stored := Function.update s.stored (s.cache.buf i).blockno data
      changed := Function.update s.changed i true }

/-- After `bio_init` on a disk. -/
def Cached.init (disk : ℕ → Block) : Cached := ⟨bioInit disk, disk, fun _ => false⟩

/-- The list is in order, no two buffers hold one block, and a block is served if it is cached or some
    buffer is unreferenced. -/
structure Sound (c : Bcache) : Prop where
  lru : ∃ l, c.Lru l
  unique : ∀ i j dev b, dev ≠ 0 → c.Caches i dev b → c.Caches j dev b → i = j
  served : ∀ dev b, b < FSSIZE → (∃ j, c.Caches j dev b) ∨ (∃ j, (c.buf j).refcnt = 0) →
    ∃ i c', (bread dev b).run c = .ok i c'

/-- No referenced buffer is reassigned. -/
def Keeps (s : Cached) (_ : Op) (s' : Cached) : Prop :=
  ∀ i dev b, 0 < (s.cache.buf i).refcnt → s.cache.Caches i dev b → s'.cache.Caches i dev b

/-- The buffer that a call is about is referenced. -/
def OnReferenced (s : Cached) : Op → Prop
  | .bread _ _ _ => True
  | .bwrite i | .brelse i | .bpin i | .bunpin i | .store i _ => 0 < (s.cache.buf i).refcnt

/-- The calls are on blocks of the device `D` and on referenced buffers, and a changed buffer stays
    referenced. -/
structure Disciplined (D : ℕ) (s : Cached) (op : Op) (s' : Cached) : Prop where
  device : ∀ dev b i, op = .bread dev b i → dev = D
  referenced : OnReferenced s op
  held : ∀ i, s'.changed i = true → 0 < (s'.cache.buf i).refcnt

/-- A `bread` returns a buffer of its block with the bytes stored last. -/
def Reads (s : Cached) : Op → Cached → Prop
  | .bread dev b i, s' => s'.cache.Caches i dev b ∧ (s'.cache.buf i).data = s.stored b
  | _, _ => True

variable {s s' : Cached} {l : List (Fin NBUF)} {op : Op} {D : ℕ} {i : Fin NBUF}

theorem Ordered.sound {c : Bcache} {strict : Prop} (h : c.Ordered strict l) : c.Sound where
  lru := ⟨l, h.toLru⟩
  unique := by
    intro i j dev b hdev hi hj
    have valid : ∀ k, c.Caches k dev b → (c.buf k).valid = true := by
      intro k hk
      by_contra never
      exact hdev (hk.1.symm.trans (h.fresh k (Bool.eq_false_iff.mpr never)).1.1)
    have fi := h.found i (valid i hi) (Or.inr (hi.1 ▸ hdev))
    have fj := h.found j (valid j hj) (Or.inr (hj.1 ▸ hdev))
    rw [hi.1, hi.2] at fi
    rw [hj.1, hj.2, fi] at fj
    exact Option.some.inj fj
  served := fun dev b hb room => bread_returns h.toLru hb room

theorem sameBlock_modBuf {c : Bcache} {f : Buf → Buf} (hf : ∀ x, SameBlock x (f x)) (j : Fin NBUF) :
    SameBlock (c.buf j) ((c.modBuf i f).buf j) := by
  by_cases same : j = i
  · rw [same, modBuf_buf_self]
    exact hf _
  · rw [modBuf_buf_of_ne _ _ same]
    exact ⟨rfl, rfl, rfl⟩

/-- What a call other than `bread` does to the buffers. -/
theorem step_same (hs : Step s op s') (other : ∀ dev b i, op ≠ .bread dev b i) (j : Fin NBUF) :
    SameBlock (s.cache.buf j) (s'.cache.buf j) := by
  cases hs with
  | bread hr => exact absurd rfl (other _ _ _)
  | bwrite hr =>
    obtain ⟨-, rfl⟩ := bwrite_cases hr
    exact ⟨rfl, rfl, rfl⟩
  | brelse hr => exact (brelse_counts hr).sameBlock j
  | bpin hr => exact (bpin_counts hr).sameBlock j
  | bunpin hr => exact (bunpin_counts hr).sameBlock j
  | @store i data =>
    exact sameBlock_modBuf (f := fun x => { x with data := data }) (fun _ => ⟨rfl, rfl, rfl⟩) j

theorem Ordered.step {strict : Prop} (h : s.cache.Ordered strict l) (hs : Step s op s')
    (hop : strict → OnReferenced s op) : ∃ l', s'.cache.Ordered strict l' := by
  -- a buffer that is referenced has been used
  have used : ∀ {j}, (strict → 0 < (s.cache.buf j).refcnt) → strict → (s.cache.buf j).valid = true := by
    intro j pos hstrict
    by_contra never
    have zero := (h.fresh j (Bool.eq_false_iff.mpr never)).2 hstrict
    exact absurd (pos hstrict) (by omega)
  have modified : ∀ {j} {f : Buf → Buf}, (strict → 0 < (s.cache.buf j).refcnt) →
      (∀ x, SameBlock x (f x)) → (s.cache.modBuf j f).Ordered strict l := by
    intro j f pos same
    refine h.of_same ⟨h.perm, h.cycle⟩ (sameBlock_modBuf same) fun hstrict k hk => ?_
    have ne : k ≠ j := by
      rintro rfl
      rw [used pos hstrict] at hk
      cases hk
    rw [modBuf_buf_of_ne _ _ ne]
  cases hs with
  | bread hr =>
    obtain ⟨-, x, hx, rfl⟩ := bread_cases h.toLru hr
    exact ⟨l, (h.bread hx).1⟩
  | bwrite hr =>
    obtain ⟨-, rfl⟩ := bwrite_cases hr
    exact ⟨l, h.of_same ⟨h.perm, h.cycle⟩ (fun _ => ⟨rfl, rfl, rfl⟩) fun _ _ _ => rfl⟩
  | @brelse i c hr =>
    obtain ⟨-, rfl⟩ := brelse_cases hr
    have less := modified (j := i) (f := fun x => { x with refcnt := x.refcnt - 1 }) hop
      fun _ => ⟨rfl, rfl, rfl⟩
    dsimp only
    split
    · refine ⟨_, less.release fun hstrict => ?_⟩
      rw [modBuf_buf_self]
      exact used hop hstrict
    · exact ⟨l, less⟩
  | bpin hr =>
    rw [bpin_cases hr]
    exact ⟨l, modified (f := fun x => { x with refcnt := (x.refcnt + 1) % 2 ^ 64 }) hop fun _ => ⟨rfl, rfl, rfl⟩⟩
  | bunpin hr =>
    rw [bunpin_cases hr]
    exact ⟨l, modified
      (f := fun x => { x with refcnt := if x.refcnt = 0 then 2 ^ 64 - 1 else x.refcnt - 1 }) hop
      fun _ => ⟨rfl, rfl, rfl⟩⟩
  | @store i data =>
    exact ⟨l, modified (f := fun x => { x with data := data }) hop fun _ => ⟨rfl, rfl, rfl⟩⟩

/-- A referenced buffer stays with its block. -/
theorem Ordered.keeps {strict : Prop} (h : s.cache.Ordered strict l) (hs : Step s op s') :
    Keeps s op s' := by
  intro j dev b pos hj
  by_cases other : ∀ dev b i, op ≠ .bread dev b i
  · have same := step_same hs other j
    exact ⟨same.2.1.trans hj.1, same.2.2.trans hj.2⟩
  · simp only [not_forall, not_not] at other
    obtain ⟨dev', b', i, rfl⟩ := other
    cases hs with
    | bread hr =>
      obtain ⟨-, x, hx, rfl⟩ := bread_cases h.toLru hr
      dsimp only
      by_cases same : j = i
      · subst same
        rw [Caches, modBuf_buf_self]
        cases hx with
        | hit found => exact hj
        | miss none free => exact absurd pos (by omega)
      · rw [Caches, modBuf_buf_of_ne _ _ same]
        exact hj

theorem foldl_toFront (is : List (Fin NBUF)) (c : Bcache) :
    (is.foldl toFront c).buf = c.buf ∧ (is.foldl toFront c).disk = c.disk := by
  induction is generalizing c with
  | nil => exact ⟨rfl, rfl⟩
  | cons i is ih => exact ih (c.toFront i)

theorem init_ordered (strict : Prop) (disk : ℕ → Block) :
    (bioInit disk).Ordered strict (List.finRange NBUF).reverse := by
  have unused : ∀ i, (bioInit disk).buf i = ⟨false, 0, 0, 0, Block.zero⟩ := fun i =>
    congrFun (foldl_toFront (List.finRange NBUF) _).1 i
  refine ⟨bioInit_lru disk, fun i valid => ?_, fun i _ => ?_⟩
  · rw [unused] at valid
    cases valid
  · rw [Caches, unused]
    exact ⟨⟨rfl, rfl⟩, fun _ => rfl⟩

/-- What is on the disk or in a changed buffer is what was stored last. -/
structure Transparent (D : ℕ) (s : Cached) : Prop where
  data : ∀ i, (s.cache.buf i).valid = true → (s.cache.buf i).data = s.stored (s.cache.buf i).blockno
  disk : ∀ b, s.cache.disk b = s.stored b ∨
    ∃ i, (s.cache.buf i).valid = true ∧ s.changed i = true ∧ (s.cache.buf i).blockno = b
  held : ∀ i, s.changed i = true → (s.cache.buf i).valid = true ∧ 0 < (s.cache.buf i).refcnt
  dev : ∀ i, (s.cache.buf i).valid = true → (s.cache.buf i).dev = D

theorem init_transparent (D : ℕ) (disk : ℕ → Block) : Transparent D (Cached.init disk) := by
  have unused : ∀ i, (bioInit disk).buf i = ⟨false, 0, 0, 0, Block.zero⟩ := fun i =>
    congrFun (foldl_toFront (List.finRange NBUF) _).1 i
  refine ⟨fun i valid => ?_, fun b => Or.inl ?_, fun i changed => ?_, fun i valid => ?_⟩
  · change ((bioInit disk).buf i).valid = true at valid
    rw [unused] at valid
    cases valid
  · exact congrFun (foldl_toFront (List.finRange NBUF) _).2 b
  · cases changed
  · change ((bioInit disk).buf i).valid = true at valid
    rw [unused] at valid
    cases valid

section Discipline

variable (h : s.cache.Ordered True l) (t : Transparent D s)

include h t in
theorem Transparent.unique {j : Fin NBUF} (hi : (s.cache.buf i).valid = true)
    (hj : (s.cache.buf j).valid = true) (same : (s.cache.buf i).blockno = (s.cache.buf j).blockno) :
    i = j := by
  have fi := h.found i hi (Or.inl trivial)
  have fj := h.found j hj (Or.inl trivial)
  rw [t.dev i hi, same] at fi
  rw [t.dev j hj, fi] at fj
  exact Option.some.inj fj

include h in
theorem Ordered.valid (pos : 0 < (s.cache.buf i).refcnt) : (s.cache.buf i).valid = true := by
  by_contra never
  have zero := (h.fresh i (Bool.eq_false_iff.mpr never)).2 trivial
  omega

include h t in
theorem Transparent.breads {b : ℕ} {x : Buf} (hx : Breads s.cache l D b i x) :
    x.data = s.stored b := by
  -- no buffer holds other bytes than the disk
  have fromDisk : (∀ j, (s.cache.buf j).valid = true → ¬ s.cache.Caches j D b) →
      s.cache.disk b = s.stored b := by
    intro none
    refine (t.disk b).resolve_right ?_
    rintro ⟨j, valid, -, hb⟩
    exact none j valid ⟨t.dev j valid, hb⟩
  cases hx with
  | hit found =>
    have mine := find_prop (p := fun k => s.cache.Caches k D b) found
    dsimp only
    by_cases valid : (s.cache.buf i).valid = true
    · rw [if_pos valid, t.data i valid, mine.2]
    · rw [if_neg valid]
      refine fromDisk fun j hj caches => ?_
      have foundj := h.found j hj (Or.inl trivial)
      rw [caches.1, caches.2, found] at foundj
      cases foundj
      exact valid hj
  | miss none free => exact fromDisk fun j _ => none j

include t in
theorem Transparent.counts {c : Bcache} (same : SameButCounts s.cache c)
    (held : ∀ i, s.changed i = true → 0 < (c.buf i).refcnt) :
    Transparent D { s with cache := c } := by
  have buf : ∀ j, (c.buf j).valid = (s.cache.buf j).valid ∧ (c.buf j).dev = (s.cache.buf j).dev ∧
      (c.buf j).blockno = (s.cache.buf j).blockno ∧ (c.buf j).data = (s.cache.buf j).data := by
    intro j
    obtain ⟨n, hn⟩ := same.2 j
    rw [hn]
    exact ⟨rfl, rfl, rfl, rfl⟩
  refine ⟨fun i valid => ?_, fun b => ?_, fun i changed => ?_, fun i valid => ?_⟩
  · change (c.buf i).valid = true at valid
    rw [(buf i).1] at valid
    change (c.buf i).data = s.stored (c.buf i).blockno
    rw [(buf i).2.2.1, (buf i).2.2.2]
    exact t.data i valid
  · refine (t.disk b).imp (fun hb => ?_) ?_
    · exact (congrFun same.1 b).trans hb
    · rintro ⟨i, valid, changed, hb⟩
      exact ⟨i, (buf i).1.trans valid, changed, (buf i).2.2.1.trans hb⟩
  · exact ⟨(buf i).1.trans (t.held i changed).1, held i changed⟩
  · change (c.buf i).valid = true at valid
    rw [(buf i).1] at valid
    exact (buf i).2.1.trans (t.dev i valid)

include h t in
theorem Transparent.step (hs : Step s op s') (ok : Disciplined D s op s') : Transparent D s' := by
  cases hs with
  | @bread dev b i c hr =>
    cases ok.device _ _ _ rfl
    obtain ⟨-, x, hx, rfl⟩ := bread_cases h.toLru hr
    have data := t.breads h hx
    have here := (h.bread hx).2
    rw [Caches, modBuf_buf_self] at here
    -- a changed buffer is not reassigned
    have stays : s.changed i = true → (s.cache.buf i).blockno = b := by
      intro changed
      cases hx with
      | hit found => exact here.2
      | miss none free => exact absurd (t.held i changed).2 (by omega)
    refine ⟨fun j valid => ?_, fun b' => ?_, fun j changed => ⟨?_, ok.held j changed⟩,
      fun j valid => ?_⟩
    · by_cases same : j = i
      · subst same
        dsimp only
        rw [modBuf_buf_self, data, here.2]
      · dsimp only at valid ⊢
        rw [modBuf_buf_of_ne _ _ same] at valid ⊢
        exact t.data j valid
    · refine (t.disk b').imp id ?_
      rintro ⟨j, valid, changed, hb⟩
      refine ⟨j, ?_, changed, ?_⟩ <;> dsimp only <;> by_cases same : j = i
      · rw [same, modBuf_buf_self]
        exact hx.valid
      · rw [modBuf_buf_of_ne _ _ same]
        exact valid
      · subst same
        rw [modBuf_buf_self, here.2, ← hb, stays changed]
      · rw [modBuf_buf_of_ne _ _ same]
        exact hb
    · dsimp only
      by_cases same : j = i
      · rw [same, modBuf_buf_self]
        exact hx.valid
      · rw [modBuf_buf_of_ne _ _ same]
        exact (t.held j changed).1
    · dsimp only at valid ⊢
      by_cases same : j = i
      · subst same
        rw [modBuf_buf_self]
        exact here.1
      · rw [modBuf_buf_of_ne _ _ same] at valid ⊢
        exact t.dev j valid
  | @bwrite i c hr =>
    obtain ⟨pos, rfl⟩ := bwrite_cases hr
    have valid := h.valid pos
    refine ⟨t.data, fun b => ?_, fun j changed => ?_, t.dev⟩
    · dsimp only
      by_cases same : b = (s.cache.buf i).blockno
      · left
        rw [same, Function.update_self]
        exact t.data i valid
      · rw [Function.update_of_ne same]
        refine (t.disk b).imp id ?_
        rintro ⟨j, validj, changed, hb⟩
        have ne : j ≠ i := fun ji => same (ji ▸ hb.symm)
        exact ⟨j, validj, (Function.update_of_ne ne ..).trans changed, hb⟩
    · dsimp only at changed
      have ne : j ≠ i := by
        rintro rfl
        rw [Function.update_self] at changed
        cases changed
      rw [Function.update_of_ne ne] at changed
      exact t.held j changed
  | brelse hr => exact t.counts (brelse_counts hr) ok.held
  | bpin hr => exact t.counts (bpin_counts hr) ok.held
  | bunpin hr => exact t.counts (bunpin_counts hr) ok.held
  | @store i data =>
    have valid := h.valid ok.referenced
    have same : ∀ j, SameBlock (s.cache.buf j)
        ((s.cache.modBuf i fun x => { x with data := data }).buf j) :=
      sameBlock_modBuf (f := fun x => { x with data := data }) fun _ => ⟨rfl, rfl, rfl⟩
    refine ⟨fun j validj => ?_, fun b => ?_, fun j changed => ⟨?_, ok.held j changed⟩,
      fun j validj => ?_⟩
    · dsimp only at validj ⊢
      rw [(same j).2.2]
      rw [(same j).1] at validj
      by_cases ji : j = i
      · rw [ji, modBuf_buf_self, Function.update_self]
      · rw [modBuf_buf_of_ne _ _ ji, Function.update_of_ne fun hb => ji (t.unique h validj valid hb)]
        exact t.data j validj
    · dsimp only
      simp only [(same _).1, (same _).2.2]
      by_cases hb : b = (s.cache.buf i).blockno
      · exact Or.inr ⟨i, valid, Function.update_self .., hb.symm⟩
      · rw [Function.update_of_ne hb]
        refine (t.disk b).imp id ?_
        rintro ⟨j, validj, changed, hj⟩
        refine ⟨j, validj, ?_, hj⟩
        by_cases ji : j = i
        · rw [ji]
          exact Function.update_self ..
        · exact (Function.update_of_ne ji ..).trans changed
    · dsimp only at changed ⊢
      rw [(same j).1]
      by_cases ji : j = i
      · exact ji ▸ valid
      · rw [Function.update_of_ne ji] at changed
        exact (t.held j changed).1
    · dsimp only at validj ⊢
      rw [(same j).1] at validj
      rw [(same j).2.1]
      exact t.dev j validj

end Discipline

/-- After any calls, the list is in order, no two buffers hold one block and a block is served if it
    is cached or a buffer is unreferenced; and no referenced buffer was reassigned. Every `bread`
    returned the bytes stored last if the calls are `Disciplined` on one device. -/
theorem cache_transparent (disk : ℕ → Block) (tr : List (Op × Cached))
    (run : Along Step (Cached.init disk) tr) :
    (final (Cached.init disk) tr).cache.Sound ∧ Along Keeps (Cached.init disk) tr ∧
      ∀ D, Along (Disciplined D) (Cached.init disk) tr → Along Reads (Cached.init disk) tr := by
  have start : ∀ strict, ∃ l, (Cached.init disk).cache.Ordered strict l := fun strict =>
    ⟨_, init_ordered strict disk⟩
  have keep : ∀ s op s', (∃ l, s.cache.Ordered False l) → Step s op s' →
      ∃ l, s'.cache.Ordered False l := fun s op s' ⟨l, h⟩ hs => h.step hs False.elim
  refine ⟨?_, ?_, fun D disciplined => ?_⟩
  · obtain ⟨l, h⟩ := run.invariant keep (start False)
    exact h.sound
  · exact run.imp keep (fun s op s' ⟨l, h⟩ hs => h.keeps hs) (start False)
  · refine (run.and disciplined).imp (I := fun s => (∃ l, s.cache.Ordered True l) ∧ Transparent D s)
      ?_ ?_ ⟨start True, init_transparent D disk⟩
    · rintro s op s' ⟨⟨l, h⟩, t⟩ ⟨hs, ok⟩
      exact ⟨h.step hs fun _ => ok.referenced, t.step h hs ok⟩
    · rintro s op s' ⟨⟨l, h⟩, t⟩ ⟨hs, ok⟩
      cases hs with
      | bread hr =>
        cases ok.device _ _ _ rfl
        obtain ⟨-, x, hx, rfl⟩ := bread_cases h.toLru hr
        refine ⟨(h.bread hx).2, ?_⟩
        dsimp only
        rw [modBuf_buf_self]
        exact t.breads h hx
      | _ => trivial

/-- A block is changed, written and read again. -/
theorem cache_transparent_rewritten : ∃ tr : List (Op × Cached),
    Along Step (Cached.init fun _ => Block.zero) tr ∧
    tr.map Prod.fst = [.bread 1 5 0, .store 0 (fun _ => 1), .bwrite 0, .brelse 0, .bread 1 5 0] ∧
    (final (Cached.init fun _ => Block.zero) tr).cache.Sound ∧
    Along Keeps (Cached.init fun _ => Block.zero) tr ∧
    ∀ D, Along (Disciplined D) (Cached.init fun _ => Block.zero) tr →
      Along Reads (Cached.init fun _ => Block.zero) tr := by
  have run : ∃ tr : List (Op × Cached), Along Step (Cached.init fun _ => Block.zero) tr ∧
      tr.map Prod.fst = [.bread 1 5 0, .store 0 (fun _ => 1), .bwrite 0, .brelse 0, .bread 1 5 0] :=
    ⟨[(.bread 1 5 0, _), (.store 0 fun _ => 1, _), (.bwrite 0, _), (.brelse 0, _),
      (.bread 1 5 0, _)], ⟨.bread rfl, .store, .bwrite rfl, .brelse rfl, .bread rfl, trivial⟩, rfl⟩
  obtain ⟨tr, run, ops⟩ := run
  exact ⟨tr, run, ops, cache_transparent _ tr run⟩

/-- A buffer that loses its last reference in `brelse` has been written. -/
def Written (s : Cached) : Op → Cached → Prop
  | .brelse i, s' => (s'.cache.buf i).refcnt = 0 → s.changed i = false
  | _, _ => True

/-- Bytes are lost when two devices are used, and when a changed buffer is unpinned. -/
theorem stale_reads :
    (∃ tr : List (Op × Cached), Along Step (Cached.init fun _ => Block.zero) tr ∧
      Along Written (Cached.init fun _ => Block.zero) tr ∧
      (∀ dev b i, (.bread dev b i) ∈ tr.map Prod.fst → dev ∈ [1, 2]) ∧
      ¬ Along Reads (Cached.init fun _ => Block.zero) tr) ∧
    ∃ tr : List (Op × Cached), Along Step (Cached.init fun _ => Block.zero) tr ∧
      Along Written (Cached.init fun _ => Block.zero) tr ∧
      (∀ dev b i, (.bread dev b i) ∈ tr.map Prod.fst → dev = 1) ∧
      ¬ Along Reads (Cached.init fun _ => Block.zero) tr := by
  constructor
  · refine ⟨[(.bread 1 5 0, _), (.bread 2 5 1, _), (.store 0 fun _ => 1, _), (.bwrite 0, _),
      (.bread 2 5 1, _)], ⟨.bread rfl, .bread rfl, .store, .bwrite rfl, .bread rfl, trivial⟩,
      ⟨trivial, trivial, trivial, trivial, trivial, trivial⟩, by simp; omega, ?_⟩
    rintro ⟨-, -, -, -, ⟨-, old⟩, -⟩
    exact absurd (congrFun old 0) (by decide)
  · refine ⟨[(.bread 1 5 0, _), (.store 0 fun _ => 1, _), (.bpin 0, _), (.brelse 0, _),
      (.bunpin 0, _), (.bread 1 6 0, _), (.bread 1 5 1, _)],
      ⟨.bread rfl, .store, .bpin rfl, .brelse rfl, .bunpin rfl, .bread rfl, .bread rfl, trivial⟩,
      ⟨trivial, trivial, trivial, ?_, trivial, trivial, trivial, trivial⟩, by simp; omega, ?_⟩
    · intro last
      cases last
    · rintro ⟨-, -, -, -, -, -, ⟨-, old⟩, -⟩
      exact absurd (congrFun old 0) (by decide)

end Runs

end EasyXv6.Fs.Bcache
