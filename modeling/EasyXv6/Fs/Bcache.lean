import EasyXv6.Fs.Bio
import EasyXv6.Lib.Dll
import EasyXv6.Lib.Trace

set_option autoImplicit false

/-!
# The buffer cache with its pointers (bio.c)

The buffers are linked by `next` and `prev`; a node is a buffer, or `none` for `bcache.head`. The
driver ignores the device of a buffer, and the counts of references are 64-bit words.
-/
namespace EasyXv6.Fs
open Lib

structure Bcache where
  disk : ℕ → Block
  buf : Fin NBUF → Buf
  next : Option (Fin NBUF) → Option (Fin NBUF)
  prev : Option (Fin NBUF) → Option (Fin NBUF)

namespace Bcache

def modBuf (c : Bcache) (i : Fin NBUF) (f : Buf → Buf) : Bcache :=
  { c with buf := Function.update c.buf i (f (c.buf i)) }

/-- The last four statements of `brelse`, and those of the loop of `bio_init`. -/
def toFront (c : Bcache) (i : Fin NBUF) : Bcache :=
  { c with
    next := Function.update (Function.update c.next (some i) (c.next none)) none (some i)
    prev := Function.update (Function.update c.prev (some i) none) (c.next none) (some i) }

/-- `b->next->prev = b->prev; b->prev->next = b->next` -/
def unlink (c : Bcache) (i : Fin NBUF) : Bcache :=
  { c with
    next := Function.update c.next (c.prev (some i)) (c.next (some i))
    prev := Function.update c.prev (c.next (some i)) (c.prev (some i)) }

def bioInit (disk : ℕ → Block) : Bcache :=
  (List.finRange NBUF).foldl toFront
    ⟨disk, fun _ => ⟨false, 0, 0, 0, Block.zero⟩, fun _ => none, fun _ => none⟩

def bget (dev blockno : ℕ) : Comp Bcache (Fin NBUF) := do
  if FSSIZE ≤ blockno then
    .halt "bget: blockno out of range"
  else
    let c ← .get
    match searchFrom c.next (fun i => (c.buf i).dev = dev ∧ (c.buf i).blockno = blockno) NBUF
        (c.next none) with
    | none => .halt "undefined: endless loop"
    | some (some i) =>
      .modify (·.modBuf i fun b => { b with refcnt := (b.refcnt + 1) % 2 ^ 64 })
      return i
    | some none =>
      match searchFrom c.prev (fun i => (c.buf i).refcnt = 0) NBUF (c.prev none) with
      | none => .halt "undefined: endless loop"
      | some (some i) =>
        .modify (·.modBuf i fun b =>
          { b with dev := dev, blockno := blockno, valid := false, refcnt := 1 })
        return i
      | some none => .halt "bget: no buffers"

def bread (dev blockno : ℕ) : Comp Bcache (Fin NBUF) := do
  let i ← bget dev blockno
  let c ← .get
  if (c.buf i).valid then
    return i
  else
    -- `virtio_disk_rw(b, 0)`
    .modify fun c => c.modBuf i fun b => { b with data := c.disk b.blockno }
    .modify (·.modBuf i fun b => { b with valid := true })
    return i

def bwrite (i : Fin NBUF) : Comp Bcache Unit := do
  let c ← .get
  if (c.buf i).refcnt < 1 then
    .halt "bwrite"
  else
    -- `virtio_disk_rw(b, 1)`
    .modify fun c => { c with disk := Function.update c.disk (c.buf i).blockno (c.buf i).data }

def brelse (i : Fin NBUF) : Comp Bcache Unit := do
  let c ← .get
  if (c.buf i).refcnt < 1 then
    .halt "brelse"
  else
    .modify (·.modBuf i fun b => { b with refcnt := b.refcnt - 1 })
    let c ← .get
    if (c.buf i).refcnt = 0 then
      .modify fun c => (c.unlink i).toFront i
    else
      return ()

def bpin (i : Fin NBUF) : Comp Bcache Unit :=
  .modify (·.modBuf i fun b => { b with refcnt := (b.refcnt + 1) % 2 ^ 64 })

def bunpin (i : Fin NBUF) : Comp Bcache Unit :=
  .modify (·.modBuf i fun b => { b with refcnt := if b.refcnt = 0 then 2 ^ 64 - 1 else b.refcnt - 1 })

/-- The order of the buffers, the most recently used one first. -/
structure Lru (c : Bcache) (l : List (Fin NBUF)) : Prop where
  perm : l.Perm (List.finRange NBUF)
  cycle : Cycle c.next c.prev none (l.map some)

section Order

variable {c : Bcache} {l : List (Fin NBUF)} {i : Fin NBUF}

theorem Lru.nodup (h : c.Lru l) : l.Nodup := h.perm.nodup_iff.mpr (List.nodup_finRange NBUF)

theorem Lru.mem (h : c.Lru l) (i : Fin NBUF) : i ∈ l := h.perm.mem_iff.mpr (List.mem_finRange i)

theorem Lru.length (h : c.Lru l) : l.length = NBUF := by
  rw [h.perm.length_eq, List.length_finRange]

theorem Lru.search (h : c.Lru l) (p : Fin NBUF → Bool) :
    searchFrom c.next p NBUF (c.next none) = some (l.find? p) ∧
      searchFrom c.prev p NBUF (c.prev none) = some (l.reverse.find? p) :=
  h.cycle.search p (Nat.le_of_eq h.length)

theorem nodes_nodup (h : l.Nodup) : (none :: l.map some).Nodup := by
  rw [List.nodup_cons]
  refine ⟨fun mem => ?_, h.map fun _ _ same => Option.some.inj same⟩
  obtain ⟨_, -, hx⟩ := List.mem_map.mp mem
  cases hx

/-- A buffer is put in front of the others. -/
theorem cycle_toFront (nodup : l.Nodup) (h : Cycle c.next c.prev none (l.map some)) (hi : i ∉ l) :
    Cycle (c.toFront i).next (c.toFront i).prev none ((i :: l).map some) := by
  refine h.insert (nodes_nodup nodup) fun mem => ?_
  rcases List.mem_cons.mp mem with same | mem
  · cases same
  · obtain ⟨j, hj, same⟩ := List.mem_map.mp mem
    exact hi (Option.some.inj same ▸ hj)

theorem cycle_unlink (nodup : l.Nodup) (h : Cycle c.next c.prev none (l.map some)) (hi : i ∈ l) :
    Cycle (c.unlink i).next (c.unlink i).prev none ((l.erase i).map some) := by
  obtain ⟨front, back, rfl⟩ := List.append_of_mem hi
  have outside : i ∉ front ∧ i ∉ back := by
    obtain ⟨-, -, apart⟩ := List.nodup_append.mp nodup
    have own := (List.nodup_cons.mp (List.nodup_append.mp nodup).2.1).1
    exact ⟨fun mem => apart i mem i List.mem_cons_self rfl, own⟩
  rw [List.erase_append_right _ outside.1, List.erase_cons_head]
  rw [List.map_append, List.map_cons] at h
  -- from the buffer on, all the way round to it
  have turned := Cycle.rotate.mp h
  have fresh : some i ∉ back.map some ++ none :: front.map some := by
    simpa using outside.symm
  cases back with
  | nil =>
    rw [List.append_nil]
    exact turned.remove fresh
  | cons b back =>
    rw [List.map_append]
    exact Cycle.rotate.mp (turned.remove fresh)

theorem Lru.release (h : c.Lru l) (i : Fin NBUF) : ((c.unlink i).toFront i).Lru (i :: l.erase i) where
  perm := (List.perm_cons_erase (h.mem i)).symm.trans h.perm
  cycle := cycle_toFront (h.nodup.erase i) (cycle_unlink h.nodup h.cycle (h.mem i))
    (h.nodup.not_mem_erase)

theorem bioInit_lru (disk : ℕ → Block) : (bioInit disk).Lru (List.finRange NBUF).reverse := by
  have build : ∀ (l done : List (Fin NBUF)) (c : Bcache), (done ++ l).Nodup →
      Cycle c.next c.prev none (done.reverse.map some) →
        Cycle (l.foldl toFront c).next (l.foldl toFront c).prev none
          ((done ++ l).reverse.map some) := by
    intro l
    induction l with
    | nil =>
      intro done c _ h
      rw [List.append_nil]
      exact h
    | cons i l ih =>
      intro done c nodup h
      have split : done ++ i :: l = (done ++ [i]) ++ l := by simp
      rw [split] at nodup ⊢
      have nodup' := (List.nodup_append.mp nodup).1
      refine ih (done ++ [i]) _ nodup ?_
      rw [List.reverse_append, List.reverse_singleton]
      refine cycle_toFront ?_ h ?_
      · exact List.nodup_reverse.mpr (List.nodup_append.mp nodup').1
      · intro mem
        exact (List.nodup_append.mp nodup').2.2 i (List.mem_reverse.mp mem) i (List.mem_singleton_self i) rfl
  refine ⟨List.reverse_perm _, build (List.finRange NBUF) [] _ (List.nodup_finRange NBUF) ?_⟩
  exact List.isChain_cons_cons.mpr ⟨⟨rfl, rfl⟩, List.isChain_singleton _⟩

end Order

end Bcache

end EasyXv6.Fs
