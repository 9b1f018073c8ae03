import EasyXv6.Fs.File
import EasyXv6.Fs.Names
import EasyXv6.Proc.Lifecycle

set_option autoImplicit false

/-!
# Descriptors and the calls on files (sysfile.c, proc.c)

Each call is one computation of the process `p`; its user memory is in the volume when it starts.
-/
namespace EasyXv6.Fs.Vol

abbrev O_RDONLY : BitVec 32 := 0x000
abbrev O_WRONLY : BitVec 32 := 0x001
abbrev O_RDWR : BitVec 32 := 0x002
abbrev O_CREATE : BitVec 32 := 0x200
abbrev O_APPEND : BitVec 32 := 0x800

/-- The part of `sys_open` that finds or creates the inode, which stays locked. -/
def openInode (path : List UInt8) (omode : BitVec 32) : Lib.Comp Vol (Option (Fin NINODE)) := do
  if omode &&& O_CREATE ≠ 0 then
    create path T_FILE 0 0
  else
    match ← namei path with
    | none => return none
    | some ip =>
      ilock ip
      let i ← .gets (·.inode ip)
      if i.d.type = T_DIR ∧ omode ≠ O_RDONLY then
        iunlockput ip
        return none
      else
        return some ip

end EasyXv6.Fs.Vol

namespace EasyXv6.Sys
open Lib Mem Proc Fs

structure System where
  kernel : Kernel
  files : Files

def onKernel {α : Type} (m : Comp Kernel α) : Comp System α :=
  .zoom (·.kernel) (fun k s => { s with kernel := k }) m

def onFiles {α : Type} (m : Comp Files α) : Comp System α :=
  .zoom (·.files) (fun f s => { s with files := f }) m

def onVol {α : Type} (m : Comp Vol α) : Comp System α := onFiles (Files.onVol m)

/-- `uvm_copyin(myproc()->pgtbl, path, ptr, sizeof(path)); path[127] = 0` -/
def argPath (ptr : ℕ) : Comp System (Option (List UInt8)) := do
  let c ← .gets fun s => s.files.vol.user.copyin ptr 128
  return if c.1 then some (cstr (nameOf c.2) 127) else none

/-- A call whose path argument is at `ptr`, as one transaction. -/
def withPath (ptr : ℕ) (body : List UInt8 → Comp System ℤ) : Comp System ℤ := do
  match ← argPath ptr with
  | none => return -1
  | some path =>
    onVol Vol.beginOp
    let r ← body path
    onVol Vol.endOp
    return r

/-- `arg_fd` -/
def argFd (p : Fin NPROC) (fd : ℤ) : Comp System (Option (Fin NOFILE × Fin NFILE)) := do
  let s ← .get
  if h : 0 ≤ fd ∧ fd < NOFILE then
    let i : Fin NOFILE := ⟨fd.toNat, by omega⟩
    return ((s.kernel.proc p).ofile i).map fun f => (i, f)
  else
    return none

def setFd (p : Fin NPROC) (fd : Fin NOFILE) (f : Option (Fin NFILE)) : Comp System Unit :=
  onKernel (setProc p fun q => { q with ofile := Function.update q.ofile fd f })

def fdalloc (p : Fin NPROC) (f : Fin NFILE) : Comp System (Option (Fin NOFILE)) := do
  let s ← .get
  match (List.finRange NOFILE).find? fun fd => (s.kernel.proc p).ofile fd = none with
  | some fd =>
    setFd p fd (some f)
    return some fd
  | none => return none

/-- The fields that `sys_open` sets. -/
def opened (ip : Fin NINODE) (i : Inode) (omode : BitVec 32) (x : File) : File :=
  { (if i.d.type = T_DEVICE then { x with type := .device, major := i.d.major }
     else { x with type := .inode, off := 0 }) with
    ip := some ip
    readable := omode &&& Vol.O_WRONLY = 0
    writable := omode &&& Vol.O_WRONLY ≠ 0 ∨ omode &&& Vol.O_RDWR ≠ 0
    append := omode &&& Vol.O_APPEND ≠ 0 }

def openBody (p : Fin NPROC) (omode : BitVec 32) (path : List UInt8) : Comp System ℤ := do
  match ← onVol (Vol.openInode path omode) with
  | none => return -1
  | some ip =>
    match ← onFiles Files.allocFile with
    | none =>
      onVol (Vol.iunlockput ip)
      return -1
    | some f =>
      match ← fdalloc p f with
      | none =>
        onFiles (Files.fileClose f)
        onVol (Vol.iunlockput ip)
        return -1
      | some fd =>
        let i ← .gets fun s => s.files.vol.inode ip
        onFiles (Files.modFile f (opened ip i omode))
        onVol (Vol.iunlock ip)
        return fd.val

def sysOpen (p : Fin NPROC) (pathPtr : ℕ) (omode : BitVec 32) : Comp System ℤ :=
  withPath pathPtr (openBody p omode)

def sysMkdir (pathPtr : ℕ) : Comp System ℤ := withPath pathPtr fun path => onVol (Vol.mkdir path)

def sysUnlink (pathPtr : ℕ) : Comp System ℤ := withPath pathPtr fun path => onVol (Vol.unlink path)

def sysLink (oldpathPtr newpathPtr : ℕ) : Comp System ℤ := do
  match ← argPath oldpathPtr with
  | none => return -1
  | some oldpath => withPath newpathPtr fun newpath => onVol (Vol.link oldpath newpath)

def sysClose (p : Fin NPROC) (fd : ℤ) : Comp System ℤ := do
  match ← argFd p fd with
  | none => return -1
  | some (fd, f) =>
    setFd p fd none
    onFiles (Files.fileClose f)
    return 0

def sysRead (p : Fin NPROC) (fd : ℤ) (addr : ℕ) (n : ℤ) : Comp System ℤ := do
  match ← argFd p fd with
  | none => return -1
  | some (_, f) => onFiles (Files.fileRead f addr n)

def sysWrite (p : Fin NPROC) (fd : ℤ) (addr : ℕ) (n : ℤ) : Comp System ℤ := do
  match ← argFd p fd with
  | none => return -1
  | some (_, f) => onFiles (Files.fileWrite f addr n)

/-- `sizeof(struct stat)` -/
abbrev STAT_SIZE : ℕ := 32

/-- `stati`: the bytes of the structure. -/
def stati (i : Inode) : Bytes STAT_SIZE :=
  ((((Bytes.zero.putNum 0 4 i.dev).putNum 8 8 i.inum).putNum 16 2 i.d.type.toNat).putNum 18 2
    i.d.nlink.toNat).putNum 24 8 i.d.size.toNat

def sysFstat (p : Fin NPROC) (fd : ℤ) (addr : ℕ) : Comp System ℤ := do
  match ← argFd p fd with
  | none => return -1
  | some (_, f) =>
    let s ← .get
    if (s.files.file f).type ≠ .inode then
      return -1
    else
      let ip ← onFiles (Files.inodeOf f)
      onVol (Vol.ilock ip)
      let i ← .gets fun s => s.files.vol.inode ip
      onVol (Vol.iunlock ip)
      let ok ← onVol (Vol.copyOut true addr (stati i).byte STAT_SIZE)
      return if ok then 0 else -1

def sysDup (p : Fin NPROC) (fd : ℤ) : Comp System ℤ := do
  match ← argFd p fd with
  | none => return -1
  | some (_, f) =>
    match ← fdalloc p f with
    | none => return -1
    | some newfd =>
      onFiles (Files.fileDup f)
      return newfd.val

/-- A round of the loop of `proc_fork` over the descriptors. -/
def forkFd (p np : Fin NPROC) (fd : ℕ) : Comp System Unit := do
  let s ← .get
  if h : fd < NOFILE then
    match (s.kernel.proc p).ofile ⟨fd, h⟩ with
    | some f =>
      onFiles (Files.fileDup f)
      setFd np ⟨fd, h⟩ (some f)
    | none => return ()
  else
    return ()

/-- `proc_fork` of the process `p`. -/
def procFork (L : Layout) (p : Fin NPROC) : Comp System ℤ := do
  match ← onKernel (procAlloc L) with
  | none => return -1
  | some np =>
    let q ← .gets (·.kernel.proc p)
    let child ← .gets (·.kernel.proc np)
    onKernel do
      onMem (uvmCopyPgtbl L q.pgtbl child.pgtbl q.heapTop)
      setProc np fun r => { r with ustackPages := q.ustackPages }
      onMem (copyTrapframe child.tf q.tf)
      onMem (setReg child.tf A0 0)
    .forUpTo NOFILE (forkFd p np)
    onKernel do
      setProc np fun r => { r with
        parent := some p, priority := q.priority, priorityBoost := q.priorityBoost }
      setProc np fun r => { r with state := .runnable }
    return child.pid

/-- A round of the loop of `proc_exit` over the descriptors. -/
def exitFd (p : Fin NPROC) (fd : ℕ) : Comp System Unit := do
  let s ← .get
  if h : fd < NOFILE then
    match (s.kernel.proc p).ofile ⟨fd, h⟩ with
    | some f =>
      onFiles (Files.fileClose f)
      setFd p ⟨fd, h⟩ none
    | none => return ()
  else
    return ()

/-- `proc_exit` up to `proc_sched`. -/
def procExit (p : Fin NPROC) (exitState : ℤ) : Comp System Unit := do
  if p = proczero then
    .halt "init exiting"
  else
    .forUpTo NOFILE (exitFd p)
    onKernel (Proc.procExit p exitState)

def procWait (L : Layout) (p : Fin NPROC) (addr : ℕ) : Comp System (Option ℤ) :=
  onKernel (Proc.procWait L p addr)

end EasyXv6.Sys
