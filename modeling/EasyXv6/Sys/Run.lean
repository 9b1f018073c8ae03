import EasyXv6.Fs.Formatted
import EasyXv6.Sys.Call
import EasyXv6.Proc.Runs

set_option autoImplicit false

/-!
# Runs of the calls on files

A step is a call of a running process, or what the scheduler and the other calls do between two of
them. Each call finds any contents in the memory of its process.
-/
namespace EasyXv6.Sys
open Lib Mem Proc Fs

inductive Call
  | open (pathPtr : ℕ) (omode : BitVec 32)
  | close (fd : ℤ)
  | read (fd : ℤ) (addr : ℕ) (n : ℤ)
  | write (fd : ℤ) (addr : ℕ) (n : ℤ)
  | mkdir (pathPtr : ℕ)
  | unlink (pathPtr : ℕ)
  | link (oldpathPtr newpathPtr : ℕ)
  | fstat (fd : ℤ) (addr : ℕ)
  | dup (fd : ℤ)

def Call.comp (p : Fin NPROC) : Call → Comp System ℤ
  | .open pathPtr omode => sysOpen p pathPtr omode
  | .close fd => sysClose p fd
  | .read fd addr n => sysRead p fd addr n
  | .write fd addr n => sysWrite p fd addr n
  | .mkdir pathPtr => sysMkdir pathPtr
  | .unlink pathPtr => sysUnlink pathPtr
  | .link oldpathPtr newpathPtr => sysLink oldpathPtr newpathPtr
  | .fstat fd addr => sysFstat p fd addr
  | .dup fd => sysDup p fd

/-- The state in which a process whose user memory is `mem` makes a call. -/
def System.withUser (s : System) (mem : UserMem) : System :=
  { s with files := { s.files with vol := { s.files.vol with user := mem } } }

/-- The descriptors of the slots and which of the slots hold a process. -/
structure SameFiles (s s' : System) : Prop where
  files : s'.files = s.files
  ofile : ∀ i, (s'.kernel.proc i).ofile = (s.kernel.proc i).ofile
  gone : ∀ i, Gone (s'.kernel.proc i) ↔ Gone (s.kernel.proc i)

inductive Event
  | call (p : Fin NPROC) (mem : UserMem) (c : Call) (ret : ℤ)
  | fork (p : Fin NPROC) (ret : ℤ)
  | exit (p : Fin NPROC) (exitState : ℤ)
  | wait (p : Fin NPROC) (addr : ℕ) (ret : Option ℤ)
  | other

inductive Step (L : Layout) : System → Event → System → Prop
  | call {s s' : System} {p : Fin NPROC} {mem : UserMem} {c : Call} {ret : ℤ}
      (run : (s.kernel.proc p).state = .running)
      (h : (c.comp p).run (s.withUser mem) = .ok ret s') : Step L s (.call p mem c ret) s'
  | fork {s s' : System} {p : Fin NPROC} {ret : ℤ} (run : (s.kernel.proc p).state = .running)
      (h : (procFork L p).run s = .ok ret s') : Step L s (.fork p ret) s'
  | exit {s s' : System} {p : Fin NPROC} {st : ℤ} (run : (s.kernel.proc p).state = .running)
      (h : (procExit p st).run s = .ok () s') : Step L s (.exit p st) s'
  | wait {s s' : System} {p : Fin NPROC} {addr : ℕ} {ret : Option ℤ}
      (run : (s.kernel.proc p).state = .running)
      (h : (procWait L p addr).run s = .ok ret s') : Step L s (.wait p addr ret) s'
  | other {s s' : System} (h : SameFiles s s') : Step L s .other s'

/-- No file is open. -/
structure NoFiles (s : System) : Prop where
  file : ∀ f, (s.files.file f).ref = 0
  ofile : ∀ i fd, (s.kernel.proc i).ofile fd = none

/-- The state in which the kernel has mounted a formatted disk. -/
structure Started (s : System) : Prop where
  mounted : s.files.vol.Mounted
  noFiles : NoFiles s

section Example

/-- The memory of a process that holds a string at address 0. -/
def stringMem (text : List UInt8) : UserMem := fun _ => some fun i => text.getD i 0

/-- A system with one process, which runs, and an empty disk. -/
def exampleSystem : System where
  kernel := ⟨⟨fun _ => Bytes.zero, 0, 0⟩,
    fun i => if i = proczero then { ProcT.zero with state := .running } else .zero, 1⟩
  files := ⟨Vol.ofDisk emptyDisk, fun _ => { File.taken with ref := 0 }⟩

theorem exampleSystem_started : Started exampleSystem where
  mounted := Vol.ofDisk_mounted emptyDisk_formatted
  noFiles := ⟨fun _ => rfl, fun i fd => by unfold exampleSystem; dsimp only; split <;> rfl⟩

/-- The only process opens the root directory. -/
theorem exampleSystem_open : ((sysOpen proczero 0 Vol.O_RDONLY).run
    (exampleSystem.withUser (stringMem [SLASH]))).value = some 0 := by
  decide +kernel

end Example

end EasyXv6.Sys
