import EasyXv6.Mem.Pmem

set_option autoImplicit false

/-!
# Page tables (kvm.c)
-/
namespace EasyXv6.Mem
open Lib

abbrev MAXVA : ℕ := 2 ^ 38
abbrev TRAMPOLINE : ℕ := MAXVA - PGSIZE
abbrev TRAPFRAME : ℕ := TRAMPOLINE - PGSIZE

def KSTACK (p : ℕ) : ℕ := TRAMPOLINE - (p + 1) * 2 * PGSIZE

abbrev PTE_V : ℕ := 1
abbrev PTE_R : ℕ := 2
abbrev PTE_W : ℕ := 4
abbrev PTE_X : ℕ := 8
abbrev PTE_U : ℕ := 16

def PG_ROUND_UP (sz : ℕ) : ℕ := (sz + PGSIZE - 1) % 2 ^ 64 / PGSIZE * PGSIZE
def PG_ROUND_DOWN (a : ℕ) : ℕ := a / PGSIZE * PGSIZE
def PA2PTE (pa : ℕ) : ℕ := pa / 2 ^ 12 * 2 ^ 10
def PTE2PA (pte : ℕ) : ℕ := pte / 2 ^ 10 * 2 ^ 12 % 2 ^ 64
def PTE_FLAGS (pte : ℕ) : ℕ := pte % 2 ^ 10
def PX (va level : ℕ) : ℕ := va / 2 ^ (12 + 9 * level) % 2 ^ 9

/-- `pte & PTE_V` -/
def isValid (pte : ℕ) : Bool := pte.testBit 0

/-- `pte & PTE_U` -/
def isUser (pte : ℕ) : Bool := pte.testBit 4

/-- The number of rounds of `for(a = lo; a < hi; a += PGSIZE)`. -/
def rounds (lo hi : ℕ) : ℕ := (hi - lo + (PGSIZE - 1)) / PGSIZE

namespace Pmem

/-- Entry `i` of the page `p`. -/
def pte (s : Pmem) (p i : ℕ) : ℕ := (s.mem p).num (8 * i) 8

def setPte (s : Pmem) (p i v : ℕ) : Pmem := s.setPage p (·.putNum (8 * i) 8 v)

end Pmem

/-- A round of the loop of `vm_getpte`: the table that entry `i` points to. -/
def vmDescend (alloc : Bool) (pgtbl i : ℕ) : Comp Pmem (Option ℕ) := do
  let pte ← .gets (·.pte pgtbl i)
  if isValid pte then
    return some (PTE2PA pte)
  else if !alloc then
    return none
  else
    let page ← pmemAlloc
    if page = 0 then
      return none
    else
      memzero page
      .modify (·.setPte pgtbl i (PA2PTE page ||| PTE_V))
      return some page

/-- The table and the index of the entry of `va`. -/
def vmGetpte (pgtbl va : ℕ) (alloc : Bool) : Comp Pmem (Option (ℕ × ℕ)) := do
  match ← vmDescend alloc pgtbl (PX va 2) with
  | none => return none
  | some pgtbl =>
    match ← vmDescend alloc pgtbl (PX va 1) with
    | none => return none
    | some pgtbl => return some (pgtbl, PX va 0)

def vmGetpa (pgtbl va : ℕ) : Comp Pmem ℕ := do
  if MAXVA ≤ va then
    return 0
  else
    match ← vmGetpte pgtbl va false with
    | none => return 0
    | some (t, i) =>
      let pte ← .gets (·.pte t i)
      if !isValid pte || !isUser pte then return 0 else return PTE2PA pte

/-- The body of the loop of `vm_mappages`. -/
def vmMappage (pgtbl a pa perm : ℕ) : Comp Pmem Unit := do
  match ← vmGetpte pgtbl a true with
  | none => .halt "mappages: pte==0"
  | some (t, i) =>
    let pte ← .gets (·.pte t i)
    if isValid pte then
      .halt "mappages: remap"
    else
      .modify (·.setPte t i (PA2PTE pa ||| perm ||| PTE_V))

def vmMappages (pgtbl va pa len perm : ℕ) : Comp Pmem Unit :=
  if len = 0 then
    .halt "mappages: len"
  else
    let a := PG_ROUND_DOWN va
    let last := PG_ROUND_DOWN ((va + len - 1) % 2 ^ 64)
    .forUpTo ((last + 2 ^ 64 - a) % 2 ^ 64 / PGSIZE + 1) fun k =>
      vmMappage pgtbl ((a + k * PGSIZE) % 2 ^ 64) ((pa + k * PGSIZE) % 2 ^ 64) perm

/-- The body of the loop of `vm_unmappages`. -/
def vmUnmappage (L : Layout) (pgtbl a : ℕ) (freeit : Bool) : Comp Pmem Unit := do
  match ← vmGetpte pgtbl a false with
  | none => .halt "uvmunmap: vm_getpte"
  | some (t, i) =>
    let pte ← .gets (·.pte t i)
    if !isValid pte then
      .halt "uvmunmap: not mapped"
    else if PTE_FLAGS pte = PTE_V then
      .halt "uvmunmap: not a leaf"
    else
      (if freeit then pmemFree L (PTE2PA pte) else pure ())
      .modify (·.setPte t i 0)

/-- `len_rounded` is an `int`: it is sign-extended when it is added to `va`. -/
def vmUnmappages (L : Layout) (pgtbl va len : ℕ) (freeit : Bool) : Comp Pmem Unit :=
  if va % PGSIZE ≠ 0 then
    .halt "uvmunmap: not aligned"
  else
    let lenRounded := Int.bmod (PG_ROUND_UP len) (2 ^ 32)
    .forUpTo (rounds va ((va + lenRounded) % 2 ^ 64).toNat) fun k =>
      vmUnmappage L pgtbl (va + k * PGSIZE) freeit

section Entries

variable {pa pte perm va va' : ℕ}

theorem pa2pte_or {low : ℕ} (hlow : low < 2 ^ 10) :
    PA2PTE pa ||| low = 2 ^ 10 * (pa / 2 ^ 12) + low := by
  rw [Nat.two_pow_add_eq_or_of_lt hlow, PA2PTE, Nat.mul_comm]

theorem pte2pa_or {low : ℕ} (hlow : low < 2 ^ 10) (ha : pa % PGSIZE = 0) (hp : pa < 2 ^ 64) :
    PTE2PA (PA2PTE pa ||| low) = pa := by
  change pa % 4096 = 0 at ha
  rw [pa2pte_or hlow, PTE2PA]
  omega

theorem pte_flags_or {low : ℕ} (hlow : low < 2 ^ 10) : PTE_FLAGS (PA2PTE pa ||| low) = low := by
  rw [pa2pte_or hlow, PTE_FLAGS]
  omega

theorem pte_lt {low : ℕ} (hlow : low < 2 ^ 10) (hp : pa < 2 ^ 64) :
    PA2PTE pa ||| low < 2 ^ 64 := by
  rw [pa2pte_or hlow]
  omega

theorem isValid_iff : isValid pte = true ↔ pte % 2 = 1 := by
  simp [isValid, Nat.testBit_zero]

theorem isUser_mod {pte' : ℕ} (h : pte % 2 ^ 8 = pte' % 2 ^ 8) : isUser pte = isUser pte' := by
  have both := congrArg (·.testBit 4) h
  simp only [Nat.testBit_mod_two_pow] at both
  exact both

theorem PX_zero (va : ℕ) : PX va 0 = va / 4096 % 512 := rfl
theorem PX_one (va : ℕ) : PX va 1 = va / 2097152 % 512 := rfl
theorem PX_two (va : ℕ) : PX va 2 = va / 1073741824 % 512 := rfl

theorem PX_lt (va level : ℕ) : PX va level < 512 := Nat.mod_lt _ (by decide)

/-- The path that `vm_getpte` takes, and the index of the entry at its end. -/
def path (va : ℕ) : List ℕ := [PX va 2, PX va 1]

theorem path_length (va : ℕ) : (path va).length = 2 := rfl

theorem path_lt : ∀ i ∈ path va, i < 512 := by
  intro i hi
  simp only [path, List.mem_cons, List.not_mem_nil, or_false] at hi
  rcases hi with rfl | rfl
  · exact PX_lt va 2
  · exact PX_lt va 1

/-- Two addresses with one entry. -/
def SameEntry (va va' : ℕ) : Prop := path va = path va' ∧ PX va 0 = PX va' 0

instance (va va' : ℕ) : Decidable (SameEntry va va') := by
  unfold SameEntry
  infer_instance

theorem sameEntry_iff (h : va < 2 ^ 39) (h' : va' < 2 ^ 39) :
    SameEntry va va' ↔ va / PGSIZE = va' / PGSIZE := by
  simp only [SameEntry, path, PX_zero, PX_one, PX_two, List.cons.injEq, and_true]
  change _ ↔ va / 4096 = va' / 4096
  constructor
  · rintro ⟨⟨h2, h1⟩, h0⟩
    omega
  · intro h
    refine ⟨⟨?_, ?_⟩, ?_⟩ <;> omega

end Entries

end EasyXv6.Mem
