import EasyXv6.Fs.CacheView

set_option autoImplicit false

/-!
# The write-ahead log (log.c)
-/
namespace EasyXv6.Fs
open Lib

structure Superblock where
  magic : ℕ
  size : ℕ
  nblocks : ℕ
  ninodes : ℕ
  nlog : ℕ
  logstart : ℕ
  inodestart : ℕ
  bmapstart : ℕ
  deriving DecidableEq

/-- `struct logheader` -/
structure LogHeader where
  n : ℤ
  block : ℕ → ℤ

/-- `struct log` -/
structure LogCtx where
  dev : ℕ
  start : ℤ
  size : ℤ
  outstanding : ℤ
  committing : Bool
  lh : LogHeader

def LogCtx.setLh (c : LogCtx) (lh : LogHeader) : LogCtx := { c with lh := lh }

@[simp] theorem LogCtx.setLh_lh (c : LogCtx) (lh : LogHeader) : (c.setLh lh).lh = lh := rfl
@[simp] theorem LogCtx.setLh_dev (c : LogCtx) (lh : LogHeader) : (c.setLh lh).dev = c.dev := rfl
@[simp] theorem LogCtx.setLh_start (c : LogCtx) (lh : LogHeader) :
    (c.setLh lh).start = c.start := rfl
@[simp] theorem LogCtx.setLh_size (c : LogCtx) (lh : LogHeader) : (c.setLh lh).size = c.size := rfl
@[simp] theorem LogCtx.setLh_outstanding (c : LogCtx) (lh : LogHeader) :
    (c.setLh lh).outstanding = c.outstanding := rfl
@[simp] theorem LogCtx.setLh_committing (c : LogCtx) (lh : LogHeader) :
    (c.setLh lh).committing = c.committing := rfl

/-- The buffer cache and the log together. -/
structure Blk where
  bio : Bio
  ctx : LogCtx

namespace Blk

def liftBio {α : Type} (m : Comp Bio α) : Comp Blk α :=
  .zoom Blk.bio (fun b s => { s with bio := b }) m

def bread (dev blockno : ℕ) : Comp Blk (Fin NBUF) := liftBio (Bio.bread dev blockno)
def bwrite (i : Fin NBUF) : Comp Blk Unit := liftBio (Bio.bwrite i)
def brelse (i : Fin NBUF) : Comp Blk Unit := liftBio (Bio.brelse i)
def bpin (i : Fin NBUF) : Comp Blk Unit := liftBio (Bio.bpin i)
def bunpin (i : Fin NBUF) : Comp Blk Unit := liftBio (Bio.bunpin i)
def data (i : Fin NBUF) : Comp Blk Block := liftBio (Bio.data i)
def setData (i : Fin NBUF) (f : Block → Block) : Comp Blk Unit := liftBio (Bio.setData i f)

def modCtx (f : LogCtx → LogCtx) : Comp Blk Unit := .modify fun s => { s with ctx := f s.ctx }

end Blk

namespace Block

/-- `((struct logheader *)b)->n` -/
def headerN (b : Block) : ℤ := i32 (b.num 0 4)

/-- `((struct logheader *)b)->block[i]` -/
def headerBlock (b : Block) (i : ℕ) : ℤ := i32 (b.num (4 + 4 * i) 4)

/-- Store `n` and the first `n` entries of a log header into a block. -/
def putHeader (b : Block) (lh : LogHeader) : Block :=
  (List.range lh.n.toNat).foldl (fun d i => d.putNum (4 + 4 * i) 4 (i32Bits (lh.block i)))
    (b.putNum 0 4 (i32Bits lh.n))

end Block

namespace Log
open Blk

/-- `lh` after `read_head` has copied a header with count `n` and entries `block`. -/
def readHeader (n : ℤ) (block : ℕ → ℤ) (lh : LogHeader) : LogHeader where
  n := n
  block := fun i => if i < n then block i else lh.block i

@[simp] theorem readHeader_n (n : ℤ) (block : ℕ → ℤ) (lh : LogHeader) :
    (readHeader n block lh).n = n := rfl

theorem readHeader_block {n : ℤ} {i : ℕ} (h : i < n) (block : ℕ → ℤ) (lh : LogHeader) :
    (readHeader n block lh).block i = block i := if_pos h

def readHead : Comp Blk Unit := do
  let s ← .get
  let buf ← bread s.ctx.dev (u64 s.ctx.start)
  let lh ← data buf
  -- a longer header is copied past the end of `lh.block`
  if LOGSIZE < lh.headerN then
    .halt "undefined: overrun of lh.block"
  else
    modCtx fun c => c.setLh (readHeader lh.headerN lh.headerBlock c.lh)
    brelse buf

def writeHead : Comp Blk Unit := do
  let s ← .get
  let buf ← bread s.ctx.dev (u64 s.ctx.start)
  setData buf fun hb => hb.putHeader s.ctx.lh
  bwrite buf
  brelse buf

def writeLogBlock (tail : ℕ) : Comp Blk Unit := do
  let s ← .get
  let dst ← bread s.ctx.dev (u64 (s.ctx.start + tail + 1))
  let src ← bread s.ctx.dev (u64 (s.ctx.lh.block tail))
  let d ← data src
  setData dst fun _ => d
  bwrite dst
  brelse src
  brelse dst

def writeLog : Comp Blk Unit := do
  let s ← .get
  .forUpTo s.ctx.lh.n.toNat writeLogBlock

def installTransBlock (recovering : Bool) (tail : ℕ) : Comp Blk Unit := do
  let s ← .get
  let lbuf ← bread s.ctx.dev (u64 (s.ctx.start + tail + 1))
  let dbuf ← bread s.ctx.dev (u64 (s.ctx.lh.block tail))
  let d ← data lbuf
  setData dbuf fun _ => d
  bwrite dbuf
  if recovering then
    brelse lbuf
    brelse dbuf
  else
    bunpin dbuf
    brelse lbuf
    brelse dbuf

def installTrans (recovering : Bool) : Comp Blk Unit := do
  let s ← .get
  .forUpTo s.ctx.lh.n.toNat (installTransBlock recovering)

def clearHead : Comp Blk Unit := modCtx fun c => c.setLh { c.lh with n := 0 }

def recoverFromLog : Comp Blk Unit := do
  readHead
  installTrans true
  clearHead
  writeHead

/-- `log_init`; its size check is on constants and never fails. -/
def logInit (dev : ℕ) (sb : Superblock) : Comp Blk Unit := do
  modCtx fun c => { c with dev := dev, start := i32 sb.logstart, size := i32 sb.nlog }
  recoverFromLog

/-- `begin_op`: its busy wait ends only if another process can run. -/
def beginOp : Comp Blk Unit := do
  let s ← .get
  if s.ctx.committing then
    .halt "begin_op: waits for the commit"
  else if s.ctx.lh.n + (s.ctx.outstanding + 1) * LOGSIZE > LOGSIZE then
    .halt "begin_op: waits for log space"
  else
    modCtx fun c => { c with outstanding := c.outstanding + 1 }

def commit : Comp Blk Unit := do
  let s ← .get
  if s.ctx.lh.n > 0 then
    writeLog
    writeHead
    installTrans false
    clearHead
    writeHead
  else
    return ()

def endOp : Comp Blk Unit := do
  modCtx fun c => { c with outstanding := c.outstanding - 1 }
  let s ← .get
  if s.ctx.committing then
    .halt "log_ctx.committing"
  else if s.ctx.outstanding = 0 then
    modCtx fun c => { c with committing := true }
    commit
    modCtx fun c => { c with committing := false }
  else
    return ()

/-- The loop of `log_write` over the recorded blocks. -/
def slotOf (lh : LogHeader) (blockno : ℕ) : ℕ :=
  match (List.range lh.n.toNat).find? (fun i => u64 (lh.block i) = blockno) with
  | some i => i
  | none => lh.n.toNat

def logWrite (b : Fin NBUF) : Comp Blk Unit := do
  let s ← .get
  if LOGSIZE ≤ s.ctx.lh.n ∨ s.ctx.size - 1 ≤ s.ctx.lh.n then
    .halt "too big a transaction"
  else if s.ctx.outstanding < 1 then
    .halt "log_write outside of trans"
  else
    let blockno := (s.bio.buf b).blockno
    let i := slotOf s.ctx.lh blockno
    modCtx fun c => c.setLh { c.lh with block := Function.update c.lh.block i (i32 blockno) }
    if i = s.ctx.lh.n then
      bpin b
      modCtx fun c => c.setLh { c.lh with n := c.lh.n + 1 }
    else
      return ()

end Log

end EasyXv6.Fs
