import EasyXv6.Lib.Comp
import EasyXv6.Lib.Trace

set_option autoImplicit false

/-!
# The driver of the virtio disk (virtio_disk.c)

Processes that are in `virtio_disk_rw` take turns, also inside `virtio_disk_process_used`, and the
interrupt handler comes in between. `alloc3_desc`, the publication of a request and `free_chain` are
one step each. The type of the buffers is `β`.
-/
namespace EasyXv6.Dev
open Lib

abbrev NUM : ℕ := 8

theorem NUM_pos : 0 < NUM := by decide

/-- What a descriptor can point to. -/
inductive Addr (β : Type)
  | null
  | ops (i : Fin NUM)
  | data (b : β)
  | status (i : Fin NUM)

/-- `struct virtq_desc` with the flags apart. -/
structure Desc (β : Type) where
  addr : Addr β
  len : ℕ
  flagNext : Bool
  flagWrite : Bool
  next : Fin NUM

/-- A descriptor that `free_desc` has cleared. -/
def Desc.zero {β : Type} : Desc β := ⟨.null, 0, false, false, 0⟩

/-- `struct virtio_blk_req`; its type is whether it is VIRTIO_BLK_T_OUT. -/
structure BlkReq where
  out : Bool
  sector : ℕ

structure Info (β : Type) where
  b : Option β
  status : ℕ

/-- `struct disk` with the two rings and the `disk` flags of the buffers. -/
structure Disk (β : Type) where
  desc : Fin NUM → Desc β
  availIdx : ℕ
  availRing : ℕ → Fin NUM
  usedRingIdx : ℕ
  usedRing : ℕ → Fin NUM
  free : Fin NUM → Bool
  usedIdx : ℕ
  info : Fin NUM → Info β
  ops : Fin NUM → BlkReq
  flag : β → Bool

/-- A call of `virtio_disk_rw`. -/
structure Request (β : Type) where
  b : β
  blockno : ℕ
  write : Bool

/-- A call that has its three descriptors. -/
structure Chain (β : Type) extends Request β where
  idx0 : Fin NUM
  idx1 : Fin NUM
  idx2 : Fin NUM

def Chain.descs {β : Type} (c : Chain β) : List (Fin NUM) := [c.idx0, c.idx1, c.idx2]

variable {β : Type}

section Descriptors

def allocDesc : Comp (Disk β) (Option (Fin NUM)) := do
  let d ← .get
  match (List.finRange NUM).find? d.free with
  | some i =>
    .modify fun d => { d with free := Function.update d.free i false }
    return some i
  | none => return none

def freeDesc (i : Fin NUM) : Comp (Disk β) Unit := do
  let d ← .get
  if d.free i then
    .halt "free_desc 2"
  else
    .modify fun d => { d with
      desc := Function.update d.desc i .zero
      free := Function.update d.free i true }

/-- The loop of `free_chain`. It ends within NUM rounds: each frees a descriptor, or panics. -/
def freeChainLoop : ℕ → Fin NUM → Comp (Disk β) Unit
  | 0, _ => .halt "free_desc 2"
  | fuel + 1, i => do
    let d ← .get
    let flag := (d.desc i).flagNext
    let nxt := (d.desc i).next
    freeDesc i
    if flag then freeChainLoop fuel nxt else return ()

def freeChain (i : Fin NUM) : Comp (Disk β) Unit := freeChainLoop (NUM + 1) i

def alloc3Desc : Comp (Disk β) (Option (Fin NUM × Fin NUM × Fin NUM)) := do
  match ← allocDesc with
  | none => return none
  | some i =>
    match ← allocDesc with
    | none =>
      freeDesc i
      return none
    | some j =>
      match ← allocDesc with
      | none =>
        freeDesc i
        freeDesc j
        return none
      | some k => return some (i, j, k)

end Descriptors

section Statements

variable [DecidableEq β]

/-- What `virtio_disk_rw` writes before it notifies the device. -/
def Disk.publish (d : Disk β) (c : Chain β) : Disk β :=
  { d with
    ops := Function.update d.ops c.idx0 ⟨c.write, c.blockno * 2 % 2 ^ 64⟩
    desc := Function.update (Function.update (Function.update d.desc
      c.idx0 ⟨.ops c.idx0, 16, true, false, c.idx1⟩)
      c.idx1 ⟨.data c.b, 1024, true, !c.write, c.idx2⟩)
      c.idx2 ⟨.status c.idx0, 1, false, true, 0⟩
    info := Function.update d.info c.idx0 ⟨some c.b, 0xff⟩
    flag := Function.update d.flag c.b true
    availRing := Function.update d.availRing (d.availIdx % NUM) c.idx0
    availIdx := (d.availIdx + 1) % 2 ^ 16 }

/-- The loop of `virtio_disk_process_used`, one statement at a time. -/
inductive Used
  | test
  | read
  | check (id : Fin NUM)
  | clear (id : Fin NUM)
  | advance

/-- Where `virtio_disk_process_used` is called. -/
inductive Caller (β : Type)
  | alloc (r : Request β)
  | wait (c : Chain β)
  | intr

inductive Loc (β : Type)
  | idle
  | alloc (r : Request β)
  | publish (c : Chain β)
  | wait (c : Chain β)
  | unlink (c : Chain β)
  | release (c : Chain β)
  | used (k : Caller β) (u : Used)

/-- Where `virtio_disk_process_used` returns to. -/
def Caller.loc : Caller β → Loc β
  | .alloc r => .alloc r
  | .wait c => .wait c
  | .intr => .idle

def Used.comp (k : Caller β) : Used → Comp (Disk β) (Loc β)
  | .test => do
    let d ← .get
    return if d.usedIdx ≠ d.usedRingIdx then .used k .read else k.loc
  | .read => do
    let d ← .get
    return .used k (.check (d.usedRing (d.usedIdx % NUM)))
  | .check id => do
    let d ← .get
    if (d.info id).status ≠ 0 then
      .halt "virtio_disk status"
    else
      return .used k (.clear id)
  | .clear id => do
    .modify fun d => match (d.info id).b with
      | some b => { d with flag := Function.update d.flag b false }
      | none => d
    return .used k .advance
  | .advance => do
    .modify fun d => { d with usedIdx := (d.usedIdx + 1) % 2 ^ 16 }
    return .used k .test

/-- The next step of a process, and where it leaves the process. -/
def Loc.comp : Loc β → Comp (Disk β) (Loc β)
  | .idle => return .idle
  | .alloc r => do
    match ← alloc3Desc with
    | some (i, j, k) => return .publish ⟨r, i, j, k⟩
    | none => return .used (.alloc r) .test
  | .publish c => do
    .modify fun d => d.publish c
    return .wait c
  | .wait c => do
    let d ← .get
    return if d.flag c.b then .used (.wait c) .test else .unlink c
  | .unlink c => do
    .modify fun d => { d with
      info := Function.update d.info c.idx0 { d.info c.idx0 with b := none } }
    return .release c
  | .release c => do
    freeChain c.idx0
    return .idle
  | .used k u => u.comp k

end Statements

section Runs

/-- What happened so far. A request is known by its place in the order of publication. -/
structure History (P β : Type) where
  published : List (Chain β)
  serial : P → ℕ
  completed : List (ℕ × Fin NUM)
  handled : List (Fin NUM × Option β)

/-- The driver, the processes and the device, which has taken `fetched` entries from the available
    ring (its own index is `seen`) and works on those in `pending`. -/
structure Virtio (P β : Type) where
  disk : Disk β
  loc : P → Loc β
  seen : ℕ
  fetched : ℕ
  pending : List (ℕ × Fin NUM)
  hist : History P β

variable {P : Type} [DecidableEq P] [DecidableEq β]

/-- The history after a step of the process `p` from a place. -/
def History.after (h : History P β) (p : P) (d : Disk β) : Loc β → History P β
  | .publish c => { h with
      published := h.published ++ [c]
      serial := Function.update h.serial p h.published.length }
  | .used _ (.clear id) => { h with handled := h.handled ++ [(id, (d.info id).b)] }
  | _ => h

inductive Label (P : Type)
  | call (p : P)
  | intr (p : P)
  | proc (p : P)
  | fetch
  | complete (r : ℕ × Fin NUM)

inductive Step : Virtio P β → Label P → Virtio P β → Prop
  | call {s : Virtio P β} {p : P} (r : Request β) (h : s.loc p = .idle) :
      Step s (.call p) { s with loc := Function.update s.loc p (.alloc r) }
  | intr {s : Virtio P β} {p : P} (h : s.loc p = .idle) :
      Step s (.intr p) { s with loc := Function.update s.loc p (.used .intr .test) }
  | proc {s : Virtio P β} {p : P} {next : Loc β} {d : Disk β} (h : s.loc p ≠ .idle)
      (hr : (s.loc p).comp.run s.disk = .ok next d) :
      Step s (.proc p) { s with
        disk := d
        loc := Function.update s.loc p next
        hist := s.hist.after p s.disk (s.loc p) }
  | fetch {s : Virtio P β} (h : s.seen ≠ s.disk.availIdx) :
      Step s .fetch { s with
        seen := (s.seen + 1) % 2 ^ 16
        fetched := s.fetched + 1
        pending := (s.fetched, s.disk.availRing (s.seen % NUM)) :: s.pending }
  | complete {s : Virtio P β} {r : ℕ × Fin NUM} (h : r ∈ s.pending) :
      Step s (.complete r) { s with
        disk := { s.disk with
          info := Function.update s.disk.info r.2 { s.disk.info r.2 with status := 0 }
          usedRing := Function.update s.disk.usedRing (s.disk.usedRingIdx % NUM) r.2
          usedRingIdx := (s.disk.usedRingIdx + 1) % 2 ^ 16 }
        pending := s.pending.erase r
        hist := { s.hist with completed := s.hist.completed ++ [r] } }

end Runs

end EasyXv6.Dev
