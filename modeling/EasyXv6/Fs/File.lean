import EasyXv6.Fs.Dir
import EasyXv6.Proc.Table

set_option autoImplicit false

/-!
# The open-file table (file.c)
-/
namespace EasyXv6.Fs
open Lib Mem Proc

inductive FileType
  | none
  | pipe
  | inode
  | device
  deriving DecidableEq

/-- `struct File` -/
structure File where
  type : FileType
  ref : ℤ
  readable : Bool
  writable : Bool
  append : Bool
  ip : Option (Fin NINODE)
  off : ℕ
  major : BitVec 16

/-- An entry that `alloc_file` has taken. -/
def File.taken : File := ⟨.none, 1, false, false, false, none, 0, 0⟩

structure Files where
  vol : Vol
  file : Fin NFILE → File

namespace Files

def onVol {α : Type} (m : Comp Vol α) : Comp Files α :=
  .zoom (·.vol) (fun v s => { s with vol := v }) m

def setFile (s : Files) (f : Fin NFILE) (x : File) : Files :=
  { s with file := Function.update s.file f x }

@[simp] theorem setFile_self (s : Files) (f : Fin NFILE) (x : File) :
    (s.setFile f x).file f = x := Function.update_self ..
theorem setFile_of_ne (s : Files) {f g : Fin NFILE} (h : g ≠ f) (x : File) :
    (s.setFile f x).file g = s.file g := Function.update_of_ne h ..
@[simp] theorem setFile_vol (s : Files) (f : Fin NFILE) (x : File) :
    (s.setFile f x).vol = s.vol := rfl

def modFile (f : Fin NFILE) (g : File → File) : Comp Files Unit :=
  .modify fun s => s.setFile f (g (s.file f))

def allocFile : Comp Files (Option (Fin NFILE)) := do
  let s ← .get
  match (List.finRange NFILE).find? fun f => (s.file f).ref = 0 with
  | some f =>
    modFile f fun _ => .taken
    return some f
  | none => return none

def fileDup (f : Fin NFILE) : Comp Files Unit := do
  let s ← .get
  if (s.file f).ref < 1 then
    .halt "file_dup"
  else
    modFile f fun x => { x with ref := x.ref + 1 }

/-- The inode of an open file. A null pointer is a fault of the kernel. -/
def inodeOf (f : Fin NFILE) : Comp Files (Fin NINODE) := do
  let s ← .get
  match (s.file f).ip with
  | some ip => return ip
  | none => .halt "scause"

def fileClose (f : Fin NFILE) : Comp Files Unit := do
  let s ← .get
  if (s.file f).ref < 1 then
    .halt "file_close"
  else
    modFile f fun x => { x with ref := x.ref - 1 }
    if 0 < (s.file f).ref - 1 then
      return ()
    else
      let ip ← .gets fun s => (s.file f).ip
      modFile f fun x => { x with ref := 0, type := .none }
      if (s.file f).type = .inode then
        match ip with
        | some ip =>
          onVol do
            Vol.beginOp
            Vol.iput ip
            Vol.endOp
        | none => .halt "scause"
      else
        return ()

/-- `if(r > 0) f->off += r` -/
def advance (f : Fin NFILE) (r : ℤ) : Comp Files Unit :=
  if 0 < r then modFile f fun x => { x with off := x.off + r.toNat } else pure ()

/-- `file_read` of an `int` count. -/
def fileRead (f : Fin NFILE) (addr : ℕ) (n : ℤ) : Comp Files ℤ := do
  let s ← .get
  if (s.file f).readable = false then
    return -1
  else if (s.file f).type = .inode then
    let ip ← inodeOf f
    onVol (Vol.ilock ip)
    let r ← onVol (Vol.readi ip true addr (s.file f).off (u64 n))
    advance f r
    onVol (Vol.iunlock ip)
    return r
  else
    .halt "file_read"

/-- The bytes of a chunk: `max` in `file_write`. -/
abbrev WRITE_MAX : ℤ := ((LOGSIZE - 1 - 1 - 2) / 2 : ℕ) * BSIZE

/-- The transaction that writes one chunk. -/
def writeChunk (f : Fin NFILE) (ip : Fin NINODE) (addr : ℕ) (n1 : ℤ) : Comp Files ℤ := do
  onVol (Vol.ilock ip)
  let size ← .gets fun s => (s.vol.inode ip).d.size.toNat
  modFile f fun x => if x.append then { x with off := size } else x
  let s ← .get
  let r ← onVol (Vol.writei ip true addr (s.file f).off (u64 n1))
  advance f r
  onVol (Vol.iunlock ip)
  return r

/-- The loop of `file_write` from byte `i` on: the number of bytes written. -/
def fileWriteLoop (f : Fin NFILE) (ip : Fin NINODE) (addr : ℕ) (n : ℤ) : (fuel : ℕ) → (i : ℤ) →
    Comp Files ℤ
  | 0, i => return i
  | fuel + 1, i => do
    if i < n then
      let n1 := min (n - i) WRITE_MAX
      onVol Vol.beginOp
      let r ← writeChunk f ip (u64 (addr + i)) n1
      onVol Vol.endOp
      if r ≠ n1 then return i else fileWriteLoop f ip addr n fuel (i + r)
    else
      return i

/-- The first part of `file_write` to a file in append mode. -/
def seekEnd (f : Fin NFILE) (ip : Fin NINODE) : Comp Files Unit := do
  onVol (Vol.ilock ip)
  let size ← .gets fun s => (s.vol.inode ip).d.size.toNat
  modFile f fun x => { x with off := size }
  onVol (Vol.iunlock ip)

def fileWrite (f : Fin NFILE) (addr : ℕ) (n : ℤ) : Comp Files ℤ := do
  let s ← .get
  if (s.file f).writable = false then
    return -1
  else if (s.file f).type = .inode then
    let ip ← inodeOf f
    (if (s.file f).append then seekEnd f ip else pure ())
    let i ← fileWriteLoop f ip addr n n.toNat 0
    return if i = n then n else -1
  else
    .halt "file_write"

end Files

end EasyXv6.Fs
