import EasyXv6.Fs.Dir

set_option autoImplicit false

/-!
# Operations on names (sysfile.c)

What `create`, `sys_mkdir`, `sys_unlink` and `sys_link` do between `begin_op` and `end_op`, which
every exit of the three calls passes. They return 0 or -1.
-/
namespace EasyXv6.Fs.Vol
open Lib

/-- A round of the loop of `isdirempty`. -/
def isdiremptyAt (dp : Fin NINODE) (m : ℕ) : Comp Vol (Option Unit) := do
  let de ← readDirent dp m "isdirempty: readi"
  if direntInum de ≠ 0 then return some () else return none

def isdirempty (dp : Fin NINODE) : Comp Vol Bool := do
  let i ← .gets (·.inode dp)
  let used ← Comp.firstSome (isdiremptyAt dp) (List.range' 2 (slots i.d.size.toNat - 2))
  return used.isNone

/-- `ip->nlink += by; iupdate(ip)` -/
def addLink (ip : Fin NINODE) (by' : BitVec 16) : Comp Vol Unit := do
  modInode ip fun i => { i with d := { i.d with nlink := i.d.nlink + by' } }
  iupdate ip

/-- `dirlink(dp, name, inum) < 0` is a panic. -/
def mustLink (dp : Fin NINODE) (name : List UInt8) (inum : ℕ) (why : String) : Comp Vol Unit := do
  let r ← dirlink dp name inum
  if r < 0 then .halt why else return ()

/-- The part of `create` that makes the directory `ip` one with the entries `.` and `..`. -/
def makeDots (dp ip : Fin NINODE) : Comp Vol Unit := do
  addLink dp 1
  let s ← .get
  mustLink ip [46] (s.inode ip).inum "create: dots"
  mustLink ip [46, 46] (s.inode dp).inum "create: dots"

/-- The part of `create` that makes a new inode in the locked directory `dp`. -/
def createNew (dp : Fin NINODE) (name : List UInt8) (type major minor : BitVec 16) :
    Comp Vol (Fin NINODE) := do
  let d ← .gets (·.inode dp)
  let ip ← ialloc d.dev type
  ilock ip
  modInode ip fun i => { i with d := { i.d with major := major, minor := minor, nlink := 1 } }
  iupdate ip
  (if type = T_DIR then makeDots dp ip else pure ())
  let i ← .gets (·.inode ip)
  mustLink dp name i.inum "create: dirlink"
  iunlockput dp
  return ip

def create (path : List UInt8) (type major minor : BitVec 16) : Comp Vol (Option (Fin NINODE)) := do
  match ← nameiparent path with
  | none => return none
  | some (dp, name) =>
    ilock dp
    match ← dirlookup dp name with
    | some (ip, _) =>
      iunlockput dp
      ilock ip
      let i ← .gets (·.inode ip)
      if type = T_FILE ∧ (i.d.type = T_FILE ∨ i.d.type = T_DEVICE) then
        return some ip
      else
        iunlockput ip
        return none
    | none => some <$> createNew dp name type major minor

def mkdir (path : List UInt8) : Comp Vol ℤ := do
  match ← create path T_DIR 0 0 with
  | none => return -1
  | some ip =>
    iunlockput ip
    return 0

/-- The part of `sys_unlink` that removes the entry at `off` of `dp`, which names `ip`. -/
def unlinkEntry (dp ip : Fin NINODE) (off : ℕ) : Comp Vol Unit := do
  .modify fun s => { s with de := Bytes.zero }
  let r ← writei dp false 0 off DIRENT_SIZE
  if r ≠ DIRENT_SIZE then
    .halt "unlink: writei"
  else
    let i ← .gets (·.inode ip)
    (if i.d.type = T_DIR then addLink dp (-1) else pure ())
    iunlockput dp
    addLink ip (-1)
    iunlockput ip

def unlink (path : List UInt8) : Comp Vol ℤ := do
  match ← nameiparent path with
  | none => return -1
  | some (dp, name) =>
    ilock dp
    if strncmp (nameOf name) (nameOf [46]) DIRSIZ = 0 ∨
        strncmp (nameOf name) (nameOf [46, 46]) DIRSIZ = 0 then
      iunlockput dp
      return -1
    else
      match ← dirlookup dp name with
      | none =>
        iunlockput dp
        return -1
      | some (ip, off) =>
        ilock ip
        let i ← .gets (·.inode ip)
        if i.d.nlink.toInt < 1 then
          .halt "unlink: nlink < 1"
        else
          let full ← (if i.d.type = T_DIR then not <$> isdirempty ip else pure false)
          if full then
            iunlockput ip
            iunlockput dp
            return -1
          else
            unlinkEntry dp ip off
            return 0

/-- `bad:` in `sys_link` -/
def unlinkBack (ip : Fin NINODE) : Comp Vol ℤ := do
  ilock ip
  addLink ip (-1)
  iunlockput ip
  return -1

def link (oldpath newpath : List UInt8) : Comp Vol ℤ := do
  match ← namei oldpath with
  | none => return -1
  | some ip =>
    ilock ip
    let i ← .gets (·.inode ip)
    if i.d.type = T_DIR then
      iunlockput ip
      return -1
    else
      addLink ip 1
      iunlock ip
      match ← nameiparent newpath with
      | none => unlinkBack ip
      | some (dp, name) =>
        ilock dp
        let d ← .gets (·.inode dp)
        let r ← (if d.dev ≠ i.dev then pure (-1) else dirlink dp name i.inum)
        if r < 0 then
          iunlockput dp
          unlinkBack ip
        else
          iunlockput dp
          iput ip
          return 0

end EasyXv6.Fs.Vol
