import EasyXv6.Lib.Sat
import EasyXv6.Fs.Dinode
import EasyXv6.Mem.UserMem

set_option autoImplicit false

/-!
# Blocks and inodes (fs.c)
-/
namespace EasyXv6.Fs
open Lib Mem

abbrev NINODE : ℕ := 100

/-- `struct inode` -/
structure Inode where
  dev : ℕ
  inum : ℕ
  ref : ℤ
  valid : Bool
  d : Dinode

/-- The block layer with the superblock, the inode cache, the memory of the process on the CPU and
    the `struct dirent` of the function that runs, which holds any bytes at first. -/
structure Vol where
  blk : Blk
  sb : Superblock
  inode : Fin NINODE → Inode
  user : UserMem
  de : Bytes DIRENT_SIZE

namespace Vol

def onBlk {α : Type} (m : Comp Blk α) : Comp Vol α :=
  .zoom (·.blk) (fun b s => { s with blk := b }) m

def bread (dev blockno : ℕ) : Comp Vol (Fin NBUF) := onBlk (Blk.bread dev blockno)
def brelse (bp : Fin NBUF) : Comp Vol Unit := onBlk (Blk.brelse bp)
def data (bp : Fin NBUF) : Comp Vol Block := onBlk (Blk.data bp)
def setData (bp : Fin NBUF) (f : Block → Block) : Comp Vol Unit := onBlk (Blk.setData bp f)
def logWrite (bp : Fin NBUF) : Comp Vol Unit := onBlk (Log.logWrite bp)
def beginOp : Comp Vol Unit := onBlk Log.beginOp
def endOp : Comp Vol Unit := onBlk Log.endOp

def setInode (s : Vol) (ip : Fin NINODE) (i : Inode) : Vol :=
  { s with inode := Function.update s.inode ip i }

@[simp] theorem setInode_self (s : Vol) (ip : Fin NINODE) (i : Inode) :
    (s.setInode ip i).inode ip = i := Function.update_self ..
theorem setInode_of_ne (s : Vol) {ip jp : Fin NINODE} (h : jp ≠ ip) (i : Inode) :
    (s.setInode ip i).inode jp = s.inode jp := Function.update_of_ne h ..
@[simp] theorem setInode_blk (s : Vol) (ip : Fin NINODE) (i : Inode) :
    (s.setInode ip i).blk = s.blk := rfl
@[simp] theorem setInode_sb (s : Vol) (ip : Fin NINODE) (i : Inode) :
    (s.setInode ip i).sb = s.sb := rfl
@[simp] theorem setInode_user (s : Vol) (ip : Fin NINODE) (i : Inode) :
    (s.setInode ip i).user = s.user := rfl
@[simp] theorem setInode_de (s : Vol) (ip : Fin NINODE) (i : Inode) :
    (s.setInode ip i).de = s.de := rfl

def modInode (ip : Fin NINODE) (f : Inode → Inode) : Comp Vol Unit :=
  .modify fun s => s.setInode ip (f (s.inode ip))

/-- The inner loop of `fs_alloc`, over the bits of the bitmap block of `b`. -/
def fsAllocIn (dev b : ℕ) : Comp Vol (Option ℕ) := do
  let s ← .get
  let bp ← bread dev (BBLOCK b s.sb)
  let d ← data bp
  match (List.range (min BPB (s.sb.size - b))).find? fun bi => d.bit bi = false with
  | some bi =>
    setData bp (·.setBit bi)
    logWrite bp
    brelse bp
    let zbp ← bread dev (b + bi)
    setData zbp fun _ => Block.zero
    logWrite zbp
    brelse zbp
    return some (b + bi)
  | none =>
    brelse bp
    return none

def fsAlloc (dev : ℕ) : Comp Vol ℕ := do
  let s ← .get
  let bs := (List.range ((s.sb.size + BPB - 1) / BPB)).map (· * BPB)
  match ← Comp.firstSome (fsAllocIn dev) bs with
  | some b => return b
  | none => .halt "fs_alloc: out of blocks"

def fsFree (dev b : ℕ) : Comp Vol Unit := do
  let s ← .get
  let bp ← bread dev (BBLOCK b s.sb)
  let d ← data bp
  if d.bit (b % BPB) = false then
    .halt "fs_free: block not in use"
  else
    setData bp (·.clearBit (b % BPB))
    logWrite bp
    brelse bp

def iget (dev inum : ℕ) : Comp Vol (Fin NINODE) := do
  let s ← .get
  match (List.finRange NINODE).find? fun ip =>
      0 < (s.inode ip).ref ∧ (s.inode ip).dev = dev ∧ (s.inode ip).inum = inum with
  | some ip =>
    modInode ip fun i => { i with ref := i.ref + 1 }
    return ip
  | none =>
    match (List.finRange NINODE).find? fun ip => (s.inode ip).ref = 0 with
    | some ip =>
      modInode ip fun i => { i with dev := dev, inum := inum, ref := 1, valid := false }
      return ip
    | none => .halt "iget: no inodes"

def idup (ip : Fin NINODE) : Comp Vol (Fin NINODE) := do
  modInode ip fun i => { i with ref := i.ref + 1 }
  return ip

/-- A round of the loop of `ialloc`. -/
def iallocAt (dev : ℕ) (type : BitVec 16) (inum : ℕ) : Comp Vol (Option (Fin NINODE)) := do
  let s ← .get
  let bp ← bread dev (IBLOCK inum s.sb)
  let d ← data bp
  if (d.dinode (inum % IPB)).type = 0 then
    setData bp (·.initDinode (inum % IPB) type)
    logWrite bp
    brelse bp
    let ip ← iget dev inum
    modInode ip fun i => { i with d := .fresh type, valid := true }
    return some ip
  else
    brelse bp
    return none

def ialloc (dev : ℕ) (type : BitVec 16) : Comp Vol (Fin NINODE) := do
  let s ← .get
  match ← Comp.firstSome (iallocAt dev type) (List.range' 1 (s.sb.ninodes - 1)) with
  | some ip => return ip
  | none => .halt "ialloc: no inodes"

def ilock (ip : Fin NINODE) : Comp Vol Unit := do
  let s ← .get
  let i := s.inode ip
  if i.ref < 1 then
    .halt "ilock"
  else if i.valid then
    return ()
  else
    let bp ← bread i.dev (IBLOCK i.inum s.sb)
    let d ← data bp
    let dip := d.dinode (i.inum % IPB)
    brelse bp
    modInode ip fun i => { i with d := dip, valid := true }
    if dip.type = 0 then .halt "ilock: no type" else return ()

def iunlock (ip : Fin NINODE) : Comp Vol Unit := do
  let s ← .get
  if (s.inode ip).ref < 1 then .halt "iunlock" else return ()

def iupdate (ip : Fin NINODE) : Comp Vol Unit := do
  let s ← .get
  let i := s.inode ip
  let bp ← bread i.dev (IBLOCK i.inum s.sb)
  setData bp (·.putDinode (i.inum % IPB) i.d)
  logWrite bp
  brelse bp

/-- Free the block that a pointer of the inode names, and clear the pointer. -/
def itruncDirect (ip : Fin NINODE) (k : ℕ) : Comp Vol Unit := do
  let i ← .gets (·.inode ip)
  if i.d.addr k ≠ 0 then
    fsFree i.dev (i.d.addr k)
    modInode ip fun i => { i with d := i.d.setAddr k 0 }
  else
    return ()

/-- Free the block that entry `j` of the indirect block names. -/
def itruncEntry (dev : ℕ) (bp : Fin NBUF) (j : ℕ) : Comp Vol Unit := do
  let a ← data bp
  if a.entry j ≠ 0 then fsFree dev (a.entry j) else return ()

/-- Free the blocks that the indirect block names, and the indirect block. -/
def itruncIndirect (ip : Fin NINODE) : Comp Vol Unit := do
  let i ← .gets (·.inode ip)
  if i.d.addr NDIRECT ≠ 0 then
    let bp ← bread i.dev (i.d.addr NDIRECT)
    .forUpTo NINDIRECT (itruncEntry i.dev bp)
    brelse bp
    fsFree i.dev (i.d.addr NDIRECT)
    modInode ip fun i => { i with d := i.d.setAddr NDIRECT 0 }
  else
    return ()

def itrunc (ip : Fin NINODE) : Comp Vol Unit := do
  .forUpTo NDIRECT (itruncDirect ip)
  itruncIndirect ip
  modInode ip fun i => { i with d := { i.d with size := 0 } }
  iupdate ip

/-- The part of `iput` that frees an inode without links. -/
def iputFree (ip : Fin NINODE) : Comp Vol Unit := do
  let i ← .gets (·.inode ip)
  if i.ref = 1 ∧ i.valid ∧ i.d.nlink = 0 then
    itrunc ip
    modInode ip fun i => { i with d := { i.d with type := 0 } }
    iupdate ip
    modInode ip fun i => { i with valid := false }
  else
    return ()

def iput (ip : Fin NINODE) : Comp Vol Unit := do
  let i ← .gets (·.inode ip)
  if i.inum = ROOTINO ∧ i.ref = 1 then
    modInode ip fun i => { i with ref := i.ref - 1 }
  else
    iputFree ip
    modInode ip fun i => { i with ref := i.ref - 1 }

def iunlockput (ip : Fin NINODE) : Comp Vol Unit := do
  iunlock ip
  iput ip

/-- The block that `addrs[k]` names, allocated if there is none. -/
def bmapAddr (ip : Fin NINODE) (k : ℕ) : Comp Vol ℕ := do
  let i ← .gets (·.inode ip)
  if i.d.addr k = 0 then
    let addr ← fsAlloc i.dev
    modInode ip fun i => { i with d := i.d.setAddr k addr }
    return addr
  else
    return i.d.addr k

def bmap (ip : Fin NINODE) (bn : ℕ) : Comp Vol ℕ := do
  if bn < NDIRECT then
    bmapAddr ip bn
  else if bn - NDIRECT < NINDIRECT then
    let ind ← bmapAddr ip NDIRECT
    let i ← .gets (·.inode ip)
    let bp ← bread i.dev ind
    let a ← data bp
    if a.entry (bn - NDIRECT) = 0 then
      let addr ← fsAlloc i.dev
      setData bp (·.setEntry (bn - NDIRECT) addr)
      logWrite bp
      brelse bp
      return addr
    else
      brelse bp
      return a.entry (bn - NDIRECT)
  else
    .halt "bmap: out of range"

/-- The copy of a round of `readi`: to user memory, or to byte `dst` of the directory entry. -/
def copyOut (userDst : Bool) (dst : ℕ) (src : ℕ → UInt8) (m : ℕ) : Comp Vol Bool := do
  let s ← .get
  if userDst then
    let r := s.user.copyout dst src m
    .modify fun s => { s with user := r.2 }
    return r.1
  else
    .modify fun s => { s with de := s.de.put dst m src }
    return true

/-- The loop of `readi`; every round copies at least one byte. `false` if a copy fails. -/
def readiLoop (ip : Fin NINODE) (userDst : Bool) (n : ℕ) : (fuel tot off dst : ℕ) → Comp Vol Bool
  | 0, _, _, _ => return true
  | fuel + 1, tot, off, dst => do
    if tot < n then
      let i ← .gets (·.inode ip)
      let addr ← bmap ip (off / BSIZE)
      let bp ← bread i.dev addr
      let m := min (BSIZE - off % BSIZE) (n - tot)
      let d ← data bp
      let ok ← copyOut userDst dst (fun j => d.byte (off % BSIZE + j)) m
      brelse bp
      if ok then
        readiLoop ip userDst n fuel (tot + m) (off + m) (dst + m)
      else
        return false
    else
      return true

def readi (ip : Fin NINODE) (userDst : Bool) (dst off n : ℕ) : Comp Vol ℤ := do
  let i ← .gets (·.inode ip)
  let size := i.d.size.toNat
  if size < off ∨ (off + n) % 2 ^ 64 < off then
    return 0
  else
    let n := if size < off + n then size - off else n
    if ← readiLoop ip userDst n n 0 off dst then
      return i32 n
    else
      return -1

/-- The bytes that a round of `writei` copies, with `false` if the copy fails after them. -/
def copyIn (userSrc : Bool) (src m : ℕ) : Comp Vol (Bool × List UInt8) := do
  let s ← .get
  if userSrc then
    return s.user.copyin src m
  else
    return (true, (List.range m).map fun j => s.de.byte (src + j))

/-- The loop of `writei`; every round copies at least one byte. `false` if a copy fails. -/
def writeiLoop (ip : Fin NINODE) (userSrc : Bool) (n : ℕ) : (fuel tot off src : ℕ) → Comp Vol Bool
  | 0, _, _, _ => return true
  | fuel + 1, tot, off, src => do
    if tot < n then
      let i ← .gets (·.inode ip)
      let addr ← bmap ip (off / BSIZE)
      let bp ← bread i.dev addr
      let m := min (BSIZE - off % BSIZE) (n - tot)
      let c ← copyIn userSrc src m
      setData bp (·.put (off % BSIZE) c.2.length fun j => c.2.getD j 0)
      if c.1 then
        logWrite bp
        brelse bp
        writeiLoop ip userSrc n fuel (tot + m) (off + m) (src + m)
      else
        brelse bp
        return false
    else
      return true

def writei (ip : Fin NINODE) (userSrc : Bool) (src off n : ℕ) : Comp Vol ℤ := do
  let i ← .gets (·.inode ip)
  if i.d.size.toNat < off ∨ (off + n) % 2 ^ 64 < off then
    return -1
  else if MAXFILE * BSIZE < off + n then
    return -1
  else if ← writeiLoop ip userSrc n n 0 off src then
    modInode ip fun i =>
      if i.d.size.toNat < off + n then { i with d := { i.d with size := BitVec.ofNat 32 (off + n) } }
      else i
    iupdate ip
    return i32 n
  else
    return -1

end Vol

end EasyXv6.Fs
