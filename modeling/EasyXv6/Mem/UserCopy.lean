import EasyXv6.Lib.Cstr
import EasyXv6.Mem.Copyout
import EasyXv6.Mem.FlatMap
import EasyXv6.Mem.UserMem

set_option autoImplicit false

/-!
# Copies from and to user memory (uvm.c)

`uvm_copyin` and `uvm_copyout` on a page table, and the view of user memory that the rest of the
kernel has of them.
-/
namespace EasyXv6.Mem
open Lib Radix

/-- The loop of `uvm_copyin`: whether it returns 0, and the bytes that it has stored. -/
def uvmCopyinLoop (pgtbl : ℕ) : (fuel : ℕ) → (src len : ℕ) → Comp Pmem (Bool × List UInt8)
  | 0, _, _ => pure (true, [])
  | fuel + 1, src, len =>
    if len = 0 then
      pure (true, [])
    else do
      let va0 := PG_ROUND_DOWN src
      if MAXVA ≤ va0 then
        return (false, [])
      else
        let pa0 ← vmGetpa pgtbl va0
        if pa0 = 0 then
          return (false, [])
        else
          let n := min (PGSIZE - (src - va0)) len
          let page ← .gets (·.mem pa0)
          let rest ← uvmCopyinLoop pgtbl fuel ((va0 + PGSIZE) % 2 ^ 64) (len - n)
          return (rest.1, (List.range n).map (fun j => page.byte (src - va0 + j)) ++ rest.2)

def uvmCopyin (pgtbl src len : ℕ) : Comp Pmem (Bool × List UInt8) :=
  uvmCopyinLoop pgtbl len src len

/-- The loop of `uvm_copyin_str`: the bytes that it has stored. -/
def uvmCopyinStrLoop (pgtbl : ℕ) : (fuel : ℕ) → (src maxlen : ℕ) → Comp Pmem (List UInt8)
  | 0, _, _ => pure []
  | fuel + 1, src, maxlen =>
    if maxlen = 0 then
      pure []
    else do
      let va0 := PG_ROUND_DOWN src
      let pa0 ← vmGetpa pgtbl va0
      if pa0 = 0 then
        return []
      else
        let n := min (PGSIZE - (src - va0)) maxlen
        let page ← .gets (·.mem pa0)
        let str := cstr (fun j => page.byte (src - va0 + j)) n
        -- `got_null`
        if str.length < n then
          return str ++ [0]
        else
          let rest ← uvmCopyinStrLoop pgtbl fuel ((va0 + PGSIZE) % 2 ^ 64) (maxlen - n)
          return str ++ rest

def uvmCopyinStr (pgtbl src maxlen : ℕ) : Comp Pmem (List UInt8) :=
  uvmCopyinStrLoop pgtbl maxlen src maxlen

/-- The pages of a process by their virtual addresses. -/
def userMem (L : Layout) (m : ℕ → Page) (r : ℕ) : UserMem := fun va =>
  if paOf L m r va = 0 then none else some (m (paOf L m r va))

variable {L : Layout} {s s' : Pmem} {r va src len : ℕ}

section View

theorem uvmCopyinLoop_run {fuel : ℕ} (ok : TreeOk L s.mem r) :
    (uvmCopyinLoop r fuel src len).run s =
      .ok (UserMem.copyinLoop (userMem L s.mem r) fuel src len) s := by
  induction fuel generalizing src len with
  | zero => rfl
  | succ fuel ih =>
    unfold uvmCopyinLoop UserMem.copyinLoop
    by_cases hlen : len = 0
    · rw [if_pos hlen, if_pos hlen]
      rfl
    rw [if_neg hlen, if_neg hlen]
    dsimp only
    by_cases hva : MAXVA ≤ PG_ROUND_DOWN src
    · rw [if_pos hva, if_pos hva]
      rfl
    rw [if_neg hva, if_neg hva, Comp.run_bind_of_ok (vmGetpa_run ok), userMem]
    by_cases hpa : paOf L s.mem r (PG_ROUND_DOWN src) = 0
    · rw [if_pos hpa, if_pos hpa]
      rfl
    have next : (PG_ROUND_DOWN src + PGSIZE) % 2 ^ 64 = PG_ROUND_DOWN src + PGSIZE := by
      refine Nat.mod_eq_of_lt ?_
      simp only [MAXVA, PGSIZE] at hva ⊢
      omega
    rw [if_neg hpa, if_neg hpa, Comp.bind_gets_run, next, Comp.run_bind_of_ok ih]
    rfl

/-- On a page table `uvm_copyin` does what it does on the view. -/
theorem uvmCopyin_run (ok : TreeOk L s.mem r) (src len : ℕ) :
    (uvmCopyin r src len).run s = .ok ((userMem L s.mem r).copyin src len) s :=
  uvmCopyinLoop_run ok

theorem byteAt_userMem (L : Layout) (m : ℕ → Page) (r va : ℕ) :
    (userMem L m r).byteAt va = if paOf L m r va = 0 then none else some (userByte L m r va) := by
  have base : paOf L m r (PG_ROUND_DOWN va) = paOf L m r va := by
    apply paOf_congr
    rw [PG_ROUND_DOWN, Nat.mul_div_cancel _ (by decide)]
  by_cases hva : MAXVA ≤ va
  · have none : paOf L m r va = 0 := by rw [paOf, if_pos hva]
    rw [UserMem.byteAt, if_pos hva, if_pos none]
  · rw [UserMem.byteAt, if_neg hva, userMem, base]
    by_cases hpa : paOf L m r va = 0
    · rw [if_pos hpa, if_pos hpa]
      rfl
    · rw [if_neg hpa, if_neg hpa]
      rfl

/-- The bytes of a range and how many of them there are determine what is copied. -/
theorem UserMem.CopiedIn.unique {mem mem' : UserMem} {b b' : Bool} {bytes bytes' : List UInt8}
    (h : mem.CopiedIn src len b bytes) (h' : mem'.CopiedIn src len b' bytes')
    (same : ∀ k < len, mem'.byteAt (src + k) = mem.byteAt (src + k)) :
    b' = b ∧ bytes' = bytes := by
  have hb : b' = b := by
    rw [Bool.eq_iff_iff, h.all, h'.all]
    exact forall₂_congr fun k hk => by rw [same k hk]
  have bound : bytes.length ≤ len ∧ bytes'.length ≤ len := by
    subst hb
    cases b' with
    | true => exact ⟨Nat.le_of_eq (h.whole rfl), Nat.le_of_eq (h'.whole rfl)⟩
    | false => exact ⟨Nat.le_of_lt (h.short rfl).1, Nat.le_of_lt (h'.short rfl).1⟩
  have len_eq : bytes'.length = bytes.length := by
    subst hb
    cases b' with
    | true => rw [h.whole rfl, h'.whole rfl]
    | false =>
      obtain ⟨lt, missing, -⟩ := h.short rfl
      obtain ⟨lt', missing', -⟩ := h'.short rfl
      rcases Nat.lt_trichotomy bytes'.length bytes.length with less | eq | more
      · rw [same _ lt', h.byte _ less] at missing'
        cases missing'
      · exact eq
      · rw [← same _ lt, h'.byte _ more] at missing
        cases missing
  refine ⟨hb, List.ext_getElem len_eq fun k hk hk' => ?_⟩
  have byte := h'.byte k hk
  rw [same k (Nat.lt_of_lt_of_le hk' bound.1), h.byte k hk'] at byte
  exact (Option.some.inj byte).symm

end View

section Exact

/-- The page `v` lies below MAXVA and is mapped with PTE_V and PTE_U. -/
def UserMapped (s : Pmem) (r v : ℕ) : Prop :=
  v * PGSIZE < MAXVA ∧ ∃ e, flatten s r v = some e ∧ isUser e.2

/-- A page table of a process: what is mapped for user mode are pages of memory of its own. -/
structure UserTable (L : Layout) (m : ℕ → Page) (r : ℕ) : Prop where
  tree : TreeOk L m r
  memory : ∀ va, isUser (pteAt L m r va) → PTE2PA (pteAt L m r va) ≠ 0
  apart : ∀ q, UserPage L m r q → q ∉ tableNodes L m r
  own : PagesApart L m r

theorem UserTable.mapped_iff (t : UserTable L s.mem r) (va : ℕ) :
    UserMapped s r (va / PGSIZE) ↔ paOf L s.mem r va ≠ 0 := by
  have low : va / PGSIZE * PGSIZE < MAXVA ↔ va < MAXVA := by
    simp only [MAXVA, PGSIZE]
    omega
  have getpa : (vmGetpa r va).run s = .ok (paOf L s.mem r va) s := vmGetpa_run t.tree
  rw [vmGetpa_flat t.tree, Outcome.ok.injEq] at getpa
  rw [UserMapped, low, ← getpa.1]
  by_cases hva : va < MAXVA
  swap
  · rw [if_neg hva]
    exact iff_of_false (fun h => hva h.1) fun h => h rfl
  have hv : va / PGSIZE < 2 ^ 27 := by
    simp only [MAXVA, PGSIZE] at hva ⊢
    omega
  rw [if_pos hva, FlatMap.userPage, and_iff_right hva, flatten_eq t.tree hv]
  by_cases valid : isValid (pteAt L s.mem r (va / PGSIZE * PGSIZE))
  swap
  · rw [if_neg valid]
    simp
  rw [if_pos valid]
  dsimp only
  have flags : isUser (PTE_FLAGS (pteAt L s.mem r (va / PGSIZE * PGSIZE))) =
      isUser (pteAt L s.mem r (va / PGSIZE * PGSIZE)) := by
    apply isUser_mod
    rw [PTE_FLAGS]
    omega
  have page : PTE2PA (pteAt L s.mem r (va / PGSIZE * PGSIZE)) / PGSIZE * PGSIZE =
      PTE2PA (pteAt L s.mem r (va / PGSIZE * PGSIZE)) := by
    simp only [PTE2PA, PGSIZE]
    omega
  rw [flags, page]
  constructor
  · rintro ⟨e, he, user⟩
    cases he
    rw [flags] at user
    rw [if_pos user]
    exact t.memory _ user
  · intro ne
    by_cases user : isUser (pteAt L s.mem r (va / PGSIZE * PGSIZE))
    · exact ⟨_, rfl, by rw [flags]; exact user⟩
    · rw [if_neg user] at ne
      exact absurd rfl ne

theorem UserTable.pages_iff (t : UserTable L s.mem r) (addr len : ℕ) :
    (∀ v ∈ pagesOf addr len, UserMapped s r v) ↔ ∀ k < len, paOf L s.mem r (addr + k) ≠ 0 := by
  constructor
  · intro all k hk
    rw [← t.mapped_iff]
    refine all _ (Finset.mem_image.mpr ⟨addr + k, Finset.mem_Ico.mpr ?_, rfl⟩)
    omega
  · intro all v hv
    obtain ⟨va, hva, rfl⟩ := Finset.mem_image.mp hv
    rw [Finset.mem_Ico] at hva
    have mapped := all (va - addr) (by omega)
    rw [Nat.add_sub_cancel' hva.1] at mapped
    exact (t.mapped_iff va).mpr mapped

/-- What `uvm_copyin` returns and stores. It depends on nothing but the table and the bytes of the
    range that are mapped for user mode. -/
structure Fetched (L : Layout) (s : Pmem) (r addr len : ℕ) (b : Bool) (bytes : List UInt8) :
    Prop where
  returns : b = true ↔ ∀ v ∈ pagesOf addr len, UserMapped s r v
  whole : b = true → bytes.length = len
  short : b = false → bytes.length < len ∧ ¬ UserMapped s r ((addr + bytes.length) / PGSIZE) ∧
    (bytes.length = 0 ∨ (addr + bytes.length) % PGSIZE = 0)
  byte : ∀ k (h : k < bytes.length), UserMapped s r ((addr + k) / PGSIZE) ∧
    bytes[k] = userByte L s.mem r (addr + k)
  confined : ∀ t : Pmem, (∀ q ∈ tableNodes L s.mem r, t.mem q = s.mem q) →
    (∀ k < len, UserMapped s r ((addr + k) / PGSIZE) →
      userByte L t.mem r (addr + k) = userByte L s.mem r (addr + k)) →
    (uvmCopyin r addr len).run t = .ok (b, bytes) t

/-- What `uvm_copyout` returns, and the memory after it has stored `n` bytes. -/
structure Delivered (L : Layout) (s : Pmem) (r addr len : ℕ) (src : ℕ → UInt8) (b : Bool) (n : ℕ)
    (s' : Pmem) : Prop where
  returns : b = true ↔ ∀ v ∈ pagesOf addr len, UserMapped s r v
  whole : b = true → n = len
  short : b = false → n < len ∧ ¬ UserMapped s r ((addr + n) / PGSIZE) ∧
    (n = 0 ∨ (addr + n) % PGSIZE = 0)
  byte : ∀ k < n, UserMapped s r ((addr + k) / PGSIZE) ∧
    userByte L s'.mem r (addr + k) = src k
  outside : ∀ va, va < addr ∨ addr + n ≤ va → userByte L s'.mem r va = userByte L s.mem r va
  others : ∀ q, (∀ k < n, paOf L s.mem r (addr + k) ≠ q) → s'.mem q = s.mem q
  table : flatten s' r = flatten s r
  list : s'.next = s.next ∧ s'.allocable = s.allocable

theorem UserTable.fetched (t : UserTable L s.mem r) (addr len : ℕ) :
    Fetched L s r addr len ((userMem L s.mem r).copyin addr len).1
      ((userMem L s.mem r).copyin addr len).2 := by
  have copied := UserMem.copyin_copied (userMem L s.mem r) addr len
  have some_iff : ∀ k, (userMem L s.mem r).byteAt (addr + k) ≠ none ↔
      paOf L s.mem r (addr + k) ≠ 0 := by
    intro k
    rw [byteAt_userMem]
    split
    next h => exact iff_of_false (fun ne => ne rfl) (not_not.mpr h)
    next h => exact iff_of_true (Option.some_ne_none _) h
  refine ⟨?_, copied.whole, ?_, ?_, ?_⟩
  · rw [copied.all, t.pages_iff]
    exact forall₂_congr fun k _ => some_iff k
  · intro h
    obtain ⟨lt, missing, edge⟩ := copied.short h
    refine ⟨lt, fun mapped => ?_, edge⟩
    exact (some_iff _).mpr ((t.mapped_iff _).mp mapped) missing
  · intro k hk
    have byte := copied.byte k hk
    have mapped := (some_iff k).mp (by rw [byte]; exact Option.some_ne_none _)
    rw [byteAt_userMem, if_neg mapped] at byte
    exact ⟨(t.mapped_iff _).mpr mapped, (Option.some.inj byte).symm⟩
  · intro u table bytes
    rw [uvmCopyin_run (t.tree.of_same table).1]
    obtain ⟨hb, hbytes⟩ := copied.unique (UserMem.copyin_copied (userMem L u.mem r) addr len) (by
      intro k hk
      rw [byteAt_userMem, byteAt_userMem, paOf_of_same table]
      by_cases mapped : paOf L s.mem r (addr + k) = 0
      · rw [if_pos mapped, if_pos mapped]
      · rw [if_neg mapped, if_neg mapped, bytes k hk ((t.mapped_iff _).mpr mapped)])
    rw [Outcome.ok.injEq]
    exact ⟨Prod.ext hb hbytes, rfl⟩

/-- For every page table, address and length the copies return 0 exactly when all pages of the range
    are mapped for user mode, and transfer the bytes of the range, or of the pages before the first
    one that is missing, and no others. -/
theorem user_copies_exact (t : UserTable L s.mem r) (addr len : ℕ) :
    (∃ b bytes, (uvmCopyin r addr len).run s = .ok (b, bytes) s ∧
      Fetched L s r addr len b bytes) ∧
    ∀ src : ℕ → UInt8, ∃ b n s', (uvmCopyout r addr src len).run s = .ok b s' ∧
      Delivered L s r addr len src b n s' := by
  refine ⟨⟨_, _, uvmCopyin_run t.tree addr len, t.fetched addr len⟩, ?_⟩
  intro src
  obtain ⟨b, s', hr⟩ : ∃ b s', (uvmCopyout r addr src len).run s = .ok b s' :=
    uvmCopyoutLoop_returns t.tree t.apart
  obtain ⟨n, copied⟩ := uvmCopyoutLoop_copied t.tree t.apart t.own (Nat.le_refl len) hr
  obtain ⟨next, allocable, written⟩ := uvmCopyoutLoop_ok t.tree t.apart hr
  have same : ∀ q ∈ tableNodes L s.mem r, s'.mem q = s.mem q :=
    fun q hq => written q fun user => t.apart q user hq
  refine ⟨b, n, s', hr, ?_, copied.whole, ?_,
    fun k hk => ⟨(t.mapped_iff _).mpr (copied.mapped k hk), copied.bytes k hk⟩, copied.frame,
    copied.others, ?_, next, allocable⟩
  · rw [copied.all, t.pages_iff]
  · intro h
    obtain ⟨lt, missing, edge⟩ := copied.short h
    exact ⟨lt, fun mapped => (t.mapped_iff _).mp mapped missing, edge⟩
  · exact flatten_congr t.tree (t.tree.of_same same).1 fun v _ => pteAt_of_same same

end Exact

section Strings

/-- A string with its end in memory that is mapped for user mode. -/
structure StringAt (L : Layout) (s : Pmem) (r ptr : ℕ) (str : List UInt8) : Prop where
  mapped : ∀ v ∈ pagesOf ptr (str.length + 1), UserMapped s r v
  byte : ∀ k (h : k < str.length), userByte L s.mem r (ptr + k) = str[k]
  nonzero : ∀ c ∈ str, c ≠ 0
  nul : userByte L s.mem r (ptr + str.length) = 0

/-- `uvm_copyin_str` delivers every string that fits. -/
theorem uvmCopyinStrLoop_run {fuel ptr maxlen : ℕ} {str : List UInt8} (t : UserTable L s.mem r)
    (at' : StringAt L s r ptr str) (fits : str.length < maxlen) (hfuel : maxlen ≤ fuel) :
    (uvmCopyinStrLoop r fuel ptr maxlen).run s = .ok (str ++ [0]) s := by
  induction fuel generalizing ptr maxlen str with
  | zero => omega
  | succ fuel ih =>
    have pas := (t.pages_iff ptr (str.length + 1)).mp at'.mapped
    have first : paOf L s.mem r (PG_ROUND_DOWN ptr) = paOf L s.mem r (ptr + 0) := by
      apply paOf_congr
      rw [PG_ROUND_DOWN, Nat.mul_div_cancel _ (by decide), Nat.add_zero]
    have hpa := pas 0 (Nat.succ_pos _)
    have hv := (paOf_user hpa).1
    have round : PG_ROUND_DOWN ptr ≤ ptr ∧ ptr < PG_ROUND_DOWN ptr + PGSIZE ∧
        PG_ROUND_DOWN ptr % PGSIZE = 0 := by
      simp only [PG_ROUND_DOWN, PGSIZE]
      omega
    unfold uvmCopyinStrLoop
    rw [if_neg (by omega)]
    dsimp only
    rw [Comp.run_bind_of_ok (vmGetpa_run t.tree), first, if_neg hpa, Comp.bind_gets_run]
    generalize hn : min (PGSIZE - (ptr - PG_ROUND_DOWN ptr)) maxlen = n
    have here : ∀ k < n, (s.mem (paOf L s.mem r (ptr + 0))).byte (ptr - PG_ROUND_DOWN ptr + k) =
        userByte L s.mem r (ptr + k) := by
      intro k hk
      have page : paOf L s.mem r (ptr + k) = paOf L s.mem r (ptr + 0) := by
        apply paOf_congr
        simp only [PGSIZE] at *
        omega
      rw [userByte, page]
      congr 1
      simp only [PGSIZE] at *
      omega
    by_cases last : str.length < n
    · -- the end of the string is on this page
      rw [cstr_eq last (fun k hk => (here k (by omega)).trans (at'.byte k hk)) at'.nonzero
        ((here _ last).trans at'.nul), if_pos last]
      rfl
    · have full : cstr (fun j => (s.mem (paOf L s.mem r (ptr + 0))).byte
          (ptr - PG_ROUND_DOWN ptr + j)) n = str.take n := by
        refine cstr_eq_take (Nat.not_lt.mp last) (fun k hk => ?_) at'.nonzero
        exact (here k hk).trans (at'.byte k (by omega))
      have length : (str.take n).length = n := List.length_take_of_le (Nat.not_lt.mp last)
      have next : (PG_ROUND_DOWN ptr + PGSIZE) % 2 ^ 64 = ptr + n := by
        rw [Nat.mod_eq_of_lt] <;> simp only [MAXVA, PGSIZE] at * <;> omega
      have rest : StringAt L s r (ptr + n) (str.drop n) := by
        refine ⟨?_, ?_, fun c hc => at'.nonzero c (List.mem_of_mem_drop hc), ?_⟩
        · rw [t.pages_iff]
          intro k hk
          rw [List.length_drop] at hk
          rw [Nat.add_assoc]
          exact pas (n + k) (by omega)
        · intro k hk
          rw [List.length_drop] at hk
          rw [Nat.add_assoc, at'.byte (n + k) (by omega), List.getElem_drop]
        · rw [List.length_drop, Nat.add_assoc, Nat.add_sub_cancel' (Nat.not_lt.mp last)]
          exact at'.nul
      rw [full, length, if_neg (Nat.lt_irrefl n), next,
        Comp.run_bind_of_ok (ih rest (by rw [List.length_drop]; omega) (by omega))]
      rw [Comp.run_pure, ← List.append_assoc, List.take_append_drop]

end Strings

section Example

/-- The table of a process that has the page 1 and no other. -/
theorem userTable_of_built (h : Built exampleLayout 0x87ffd000 s
    (FlatMap.empty.insert 0x1000 0x80000000 PGSIZE (PTE_R ||| PTE_U))) :
    UserTable exampleLayout s.mem 0x87ffd000 ∧ (∀ v, UserMapped s 0x87ffd000 v ↔ v = 1) ∧
      paOf exampleLayout s.mem 0x87ffd000 0x1000 = 0x80000000 := by
  obtain ⟨⟨free, sp⟩, flat⟩ := h.space
  have only : ∀ v, v ∈ pagesOf 0x1000 PGSIZE ↔ v = 1 := by
    intro v
    rw [mem_pagesOf]
    simp only [PGSIZE]
    omega
  have entry : ∀ v, flatten s 0x87ffd000 v = if v = 1 then some (0x80000, 19) else none := by
    intro v
    rw [flat, FlatMap.insert]
    by_cases hv : v = 1
    · rw [if_pos ((only v).mpr hv), if_pos hv, hv]
      rfl
    · rw [if_neg fun h => hv ((only v).mp h), if_neg hv]
      rfl
  -- what is mapped is the page 1, and its memory
  have mapped : ∀ va, isUser (pteAt exampleLayout s.mem 0x87ffd000 va) →
      va % 2 ^ 39 / PGSIZE = 1 ∧ PTE2PA (pteAt exampleLayout s.mem 0x87ffd000 va) = 0x80000000 := by
    intro va user
    have hv : va % 2 ^ 39 / PGSIZE < 2 ^ 27 := by
      simp only [PGSIZE]
      omega
    have same : SameEntry va (va % 2 ^ 39 / PGSIZE * PGSIZE) := by
      simp only [SameEntry, path, PX_zero, PX_one, PX_two, PGSIZE, List.cons.injEq, and_true]
      omega
    rw [same.pteAt_eq] at user ⊢
    have valid : isValid (pteAt exampleLayout s.mem 0x87ffd000 (va % 2 ^ 39 / PGSIZE * PGSIZE)) := by
      by_contra invalid
      rw [sp.tree.pteAt_zero (by simpa using invalid)] at user
      cases user
    have found := flatten_eq sp.tree hv
    rw [if_pos valid, entry] at found
    split at found
    next one =>
      refine ⟨one, ?_⟩
      have pa := congrArg Prod.fst (Option.some.inj found)
      simp only [PTE2PA, PGSIZE] at pa ⊢
      omega
    · cases found
  have pa : ∀ {va}, paOf exampleLayout s.mem 0x87ffd000 va ≠ 0 → va / PGSIZE = 1 := by
    intro va hva
    obtain ⟨lt, user, -⟩ := paOf_user hva
    have one := (mapped va user).1
    simp only [MAXVA, PGSIZE] at lt one ⊢
    omega
  have table : UserTable exampleLayout s.mem 0x87ffd000 := by
    refine ⟨sp.tree, ?_, ?_, ?_⟩
    · intro va user
      rw [(mapped va user).2]
      decide
    · rintro q ⟨va, user, rfl⟩ node
      rw [(mapped va user).2] at node
      rcases node_inRange node with root | range
      · exact absurd root (by decide)
      · exact absurd range (by decide)
    · intro va va' hva heq
      rw [pa hva, pa (heq ▸ hva)]
  have users : ∀ v, UserMapped s 0x87ffd000 v ↔ v = 1 := by
    intro v
    rw [UserMapped, entry]
    constructor
    · rintro ⟨-, e, he, -⟩
      split at he
      · assumption
      · cases he
    · rintro rfl
      exact ⟨by decide, (0x80000, 19), rfl, by decide⟩
  refine ⟨table, users, ?_⟩
  have here := (table.mapped_iff 0x1000).mp ((users 1).mpr rfl)
  obtain ⟨-, user, eq⟩ := paOf_user here
  rw [eq, (mapped _ user).2]

/-- The page holds any bytes. -/
theorem onePage_of (content : Page) : ∃ s, UserTable exampleLayout s.mem 0x87ffd000 ∧
    (∀ v, UserMapped s 0x87ffd000 v ↔ v = 1) ∧
      ∀ va, va / PGSIZE = 1 → userByte exampleLayout s.mem 0x87ffd000 va =
        content.byte (va % PGSIZE) := by
  obtain ⟨s, built⟩ := twoPages_mapped
  obtain ⟨⟨free, sp⟩, -⟩ := built.space
  have outside : ¬ InRange exampleLayout 0x80000000 := by decide
  have notNode : 0x80000000 ∉ tableNodes exampleLayout s.mem 0x87ffd000 := by
    intro node
    rcases node_inRange node with root | range
    · exact absurd root (by decide)
    · exact outside range
  let f : Page → Page := fun _ => content
  have written := built.other
    (fun q hq => setPage_mem_of_ne (ne_of_mem_of_not_mem hq notNode))
    (sp.list.setPage (fun h => outside (sp.list.range _ h)) f) sp.nodup
    (fun q hq node => sp.notMem node hq)
  obtain ⟨table, users, pa⟩ := userTable_of_built written
  refine ⟨_, table, users, fun va hva => ?_⟩
  have here : paOf exampleLayout (s.setPage 0x80000000 f).mem 0x87ffd000 va = 0x80000000 := by
    rw [paOf_congr (hva.trans (by decide : 1 = 0x1000 / PGSIZE)), pa]
  rw [userByte, here, setPage_mem_self]

/-- Two strings of one character are in it, at its start and at its end. -/
theorem onePage : ∃ s, UserTable exampleLayout s.mem 0x87ffd000 ∧
    (∀ v, UserMapped s 0x87ffd000 v ↔ v = 1) ∧
      ∀ va, va / PGSIZE = 1 → userByte exampleLayout s.mem 0x87ffd000 va =
        if va = 0x1000 ∨ va = 0x1ffe then 47 else 0 := by
  obtain ⟨s, table, users, byte⟩ :=
    onePage_of ((Bytes.zero.put 4094 1 fun _ => 47).put 0 1 fun _ => 47)
  refine ⟨s, table, users, fun va hva => ?_⟩
  have bound : va % PGSIZE < PGSIZE := Nat.mod_lt _ (by decide)
  rw [byte va hva, Bytes.byte_put _ _ _ _ _ bound, Bytes.byte_put _ _ _ _ _ bound, Bytes.byte_zero]
  simp only [PGSIZE] at hva ⊢
  by_cases first : va = 0x1000
  · rw [if_pos (by omega), if_pos (Or.inl first)]
  · rw [if_neg (by omega)]
    by_cases last : va = 0x1ffe
    · rw [if_pos (by omega), if_pos (Or.inr last)]
    · rw [if_neg (by omega), if_neg (by omega)]

/-- Four bytes from the last two on: two of them are copied. -/
theorem user_copies_exact_onePage : ∃ s b bytes,
    (uvmCopyin 0x87ffd000 0x1ffe 4).run s = .ok (b, bytes) s ∧ b = false ∧ bytes.length = 2 := by
  obtain ⟨s, table, users, -⟩ := onePage
  obtain ⟨⟨b, bytes, run, fetched⟩, -⟩ := user_copies_exact table 0x1ffe 4
  have fails : b = false := by
    cases b with
    | false => rfl
    | true =>
      have two := (users 2).mp (fetched.returns.mp rfl 2 (mem_pagesOf.mpr (by decide)))
      cases two
  obtain ⟨lt, missing, edge⟩ := fetched.short fails
  rw [users] at missing
  refine ⟨s, b, bytes, run, fails, ?_⟩
  simp only [PGSIZE] at *
  omega

end Example

end EasyXv6.Mem
