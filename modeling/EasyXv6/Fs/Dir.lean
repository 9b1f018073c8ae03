import EasyXv6.Lib.Cstr
import EasyXv6.Fs.Inode

set_option autoImplicit false

/-!
# Directories and paths (fs.c)
-/
namespace EasyXv6.Fs
open Lib

/-- `'/'` -/
abbrev SLASH : UInt8 := 47

/-- The rest of the path and the name of its first element, unless it has none. -/
def skipelem (path : List UInt8) : Option (List UInt8 × List UInt8) :=
  let s := path.dropWhile (· = SLASH)
  if s = [] then none
  else some ((s.dropWhile (· ≠ SLASH)).dropWhile (· = SLASH),
    (s.takeWhile (· ≠ SLASH)).take (DIRSIZ - 1))

theorem skipelem_lt {path rest name : List UInt8} (h : skipelem path = some (rest, name)) :
    rest.length < path.length := by
  unfold skipelem at h
  dsimp only at h
  split at h
  · cases h
  next hs =>
  cases h
  obtain ⟨c, cs, hc⟩ := List.exists_cons_of_ne_nil hs
  have h1 := (List.dropWhile_sublist (l := path) (· = SLASH)).length_le
  have h2 : (cs.dropWhile (· ≠ SLASH)).length ≤ cs.length := (List.dropWhile_sublist _).length_le
  have h3 := (List.dropWhile_sublist (l := cs.dropWhile (· ≠ SLASH)) (· = SLASH)).length_le
  have head : c ≠ SLASH := by
    have := List.head_dropWhile_not (p := (· = SLASH)) (l := path) (by rw [hc]; simp)
    simpa [hc] using this
  rw [hc] at h1 ⊢
  rw [List.dropWhile_cons_of_pos (by simpa using head)]
  rw [List.length_cons] at h1
  omega

/-- A name as the array of characters that `skipelem` fills. -/
def nameOf (name : List UInt8) (i : ℕ) : UInt8 := name.getD i 0

/-- `de.inum` -/
def direntInum (de : Bytes DIRENT_SIZE) : ℕ := de.num 0 8

/-- `de.name` -/
def direntName (de : Bytes DIRENT_SIZE) (i : ℕ) : UInt8 := de.byte (8 + i)

/-- The rounds of `for(off = 0; off < size; off += sizeof(de))`. -/
def slots (size : ℕ) : ℕ := (size + (DIRENT_SIZE - 1)) / DIRENT_SIZE

namespace Vol

/-- Read entry `m` of a directory into `de`. -/
def readDirent (dp : Fin NINODE) (m : ℕ) (why : String) : Comp Vol (Bytes DIRENT_SIZE) := do
  let r ← readi dp false 0 (DIRENT_SIZE * m) DIRENT_SIZE
  if r ≠ DIRENT_SIZE then .halt why else .gets (·.de)

/-- A round of the loop of `dirlookup`. -/
def dirlookupAt (dp : Fin NINODE) (name : List UInt8) (m : ℕ) :
    Comp Vol (Option (Fin NINODE × ℕ)) := do
  let de ← readDirent dp m "dirlookup: read"
  if direntInum de = 0 then
    return none
  else if strncmp (nameOf name) (direntName de) DIRSIZ = 0 then
    let i ← .gets (·.inode dp)
    let ip ← iget i.dev (direntInum de)
    return some (ip, DIRENT_SIZE * m)
  else
    return none

/-- The inode of the name and the offset of its entry. -/
def dirlookup (dp : Fin NINODE) (name : List UInt8) : Comp Vol (Option (Fin NINODE × ℕ)) := do
  let i ← .gets (·.inode dp)
  if i.d.type ≠ T_DIR then
    .halt "dirlookup: not DIR"
  else
    Comp.firstSome (dirlookupAt dp name) (List.range (slots i.d.size.toNat))

/-- A round of the loop of `dirlink` that looks for a free entry. -/
def dirlinkAt (dp : Fin NINODE) (m : ℕ) : Comp Vol (Option ℕ) := do
  let de ← readDirent dp m "dirlink: read"
  if direntInum de = 0 then return some (DIRENT_SIZE * m) else return none

def dirlink (dp : Fin NINODE) (name : List UInt8) (inum : ℕ) : Comp Vol ℤ := do
  match ← dirlookup dp name with
  | some (ip, _) =>
    iput ip
    return -1
  | none =>
    let i ← .gets (·.inode dp)
    let n := slots i.d.size.toNat
    let off := (← Comp.firstSome (dirlinkAt dp) (List.range n)).getD (DIRENT_SIZE * n)
    .modify fun s => { s with
      de := (s.de.put 8 DIRSIZ (strncpy (nameOf name) DIRSIZ)).putNum 0 8 inum }
    let r ← writei dp false 0 off DIRENT_SIZE
    if r ≠ DIRENT_SIZE then .halt "dirlink: write" else return 0

/-- The loop of `namex`: the inode that the path leads to, or with `parent` the directory of its
    last element and the name of that. -/
def namexLoop (parent : Bool) (ip : Fin NINODE) (path : List UInt8) :
    Comp Vol (Option (Fin NINODE × List UInt8)) :=
  match _h : skipelem path with
  | none =>
    if parent then do
      iput ip
      return none
    else
      return some (ip, [])
  | some (rest, name) => do
    ilock ip
    let i ← .gets (·.inode ip)
    if i.d.type ≠ T_DIR then
      iunlockput ip
      return none
    else if parent ∧ rest = [] then
      iunlock ip
      return some (ip, name)
    else
      match ← dirlookup ip name with
      | none =>
        iunlockput ip
        return none
      | some (next, _) =>
        iunlockput ip
        namexLoop parent next rest
termination_by path.length
decreasing_by exact skipelem_lt ‹_›

def namex (parent : Bool) (path : List UInt8) : Comp Vol (Option (Fin NINODE × List UInt8)) := do
  let ip ← iget ROOTDEV ROOTINO
  let ip ← (if path.head? = some SLASH then pure ip else idup ip)
  namexLoop parent ip path

def namei (path : List UInt8) : Comp Vol (Option (Fin NINODE)) := do
  let r ← namex false path
  return r.map Prod.fst

def nameiparent (path : List UInt8) : Comp Vol (Option (Fin NINODE × List UInt8)) :=
  namex true path

end Vol

end EasyXv6.Fs
