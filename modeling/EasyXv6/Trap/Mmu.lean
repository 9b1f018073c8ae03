import EasyXv6.Lib.Rv64
import EasyXv6.Proc.Apart

set_option autoImplicit false

/-!
# Loads and stores through a page table

What the hardware makes of the tables that kvm.c builds. The entries of the two upper levels are
pointers: the kernel sets none of R, W and X there.
-/
namespace EasyXv6.Trap
open Lib Rv64 Mem Proc Radix

abbrev SATP_SV39 : ℕ := 8 * 2 ^ 60

def MAKE_SATP (pagetable : ℕ) : Word := BitVec.ofNat 64 (SATP_SV39 ||| pagetable / 2 ^ 12)

/-- The entry that a walk of the three levels ends at. -/
def sv39 (m : ℕ → Page) (root va : ℕ) : Option ℕ :=
  let e₂ := entry m root (PX va 2)
  if !isValid e₂ then
    none
  else
    let e₁ := entry m (PTE2PA e₂) (PX va 1)
    if !isValid e₁ then
      none
    else
      let e₀ := entry m (PTE2PA e₁) (PX va 0)
      if isValid e₀ then some e₀ else none

/-- The bits above bit 38 are copies of it. -/
def Canonical (va : ℕ) : Prop := va < 2 ^ 38 ∨ 2 ^ 64 - 2 ^ 38 ≤ va

instance (va : ℕ) : Decidable (Canonical va) := by
  unfold Canonical
  infer_instance

/-- Whether an entry allows a load or a store. SUM is never set. -/
def allows (mode : Mode) (store : Bool) (pte : ℕ) : Bool :=
  (isUser pte == decide (mode = .user)) && if store then pte.testBit 2 else pte.testBit 1

/-- The physical address of `va`. -/
def translate (s : Pmem) (satp : Word) (mode : Mode) (store : Bool) (va : ℕ) : Option ℕ :=
  if mode = .machine ∨ satp.toNat / 2 ^ 60 ≠ 8 then
    some va
  else if Canonical va then
    match sv39 s.mem (satp.toNat % 2 ^ 44 * PGSIZE) va with
    | none => none
    | some pte => if allows mode store pte then some (PTE2PA pte + va % PGSIZE) else none
  else none

/-- The doubleword at a physical address. -/
def wordAt (s : Pmem) (pa : ℕ) : Word :=
  BitVec.ofNat 64 ((s.mem (PG_ROUND_DOWN pa)).num (pa % PGSIZE) 8)

def setWordAt (s : Pmem) (pa : ℕ) (v : Word) : Pmem :=
  s.setPage (PG_ROUND_DOWN pa) (·.putNum (pa % PGSIZE) 8 v.toNat)

/-- Aligned loads and stores; what is not allowed is a fault. -/
def mmu : Bus Pmem where
  load satp mode s va :=
    if va.toNat % 8 = 0 then (translate s satp mode false va.toNat).map (wordAt s) else none
  store satp mode s va v :=
    if va.toNat % 8 = 0 then
      (translate s satp mode true va.toNat).map fun pa => setWordAt s pa v
    else none

section Walk

variable {L : Layout} {m : ℕ → Page} {r va pte : ℕ}

theorem isValid_ne_zero {e : ℕ} (h : isValid e = true) : e ≠ 0 := by
  rintro rfl
  cases h

/-- On a table that the kernel has built the walk ends at the entry of the map. -/
theorem sv39_eq_some (ok : TreeOk L m r) :
    sv39 m r va = some pte ↔ pteAt L m r va = pte ∧ isValid pte = true := by
  have root : r ∈ tableNodes L m r := mem_nodes_self
  have next : ∀ b i is, walk (child L m) is r = some b → (∀ j ∈ is, j < 512) → is.length < 2 →
      i < 512 → isValid (entry m b i) = true → child L m b i = some (PTE2PA (entry m b i)) :=
    fun b i is hw his len hi valid => ok.inner is b his len hw i hi (isValid_ne_zero valid)
  have none : ∀ b i is, walk (child L m) is r = some b → (∀ j ∈ is, j < 512) → is.length < 3 →
      i < 512 → isValid (entry m b i) = false → entry m b i = 0 := fun b i is hw his len hi bad =>
    ok.childless (mem_nodes_of_walk his hw (by omega)) hi bad
  have h₂ := PX_lt va 2
  have h₁ := PX_lt va 1
  have h₀ := PX_lt va 0
  unfold sv39 pteAt path
  cases v₂ : isValid (entry m r (PX va 2)) with
  | false =>
    have zero := none r (PX va 2) [] rfl (by simp) (by simp) h₂ v₂
    have stop : walk (child L m) [PX va 2, PX va 1] r = Option.none := by
      change (child L m r (PX va 2)).bind _ = _
      rw [child_of_zero zero, Option.bind_none]
    rw [stop]
    simp only [v₂, Bool.not_false, if_true, reduceCtorEq, Option.elim_none, false_iff, not_and]
    rintro rfl
    simp [isValid]
  | true =>
    have c₂ := next r (PX va 2) [] rfl (by simp) (by simp) h₂ v₂
    have w₁ : walk (child L m) [PX va 2] r = some (PTE2PA (entry m r (PX va 2))) := by
      change (child L m r (PX va 2)).bind _ = _
      rw [c₂]
      rfl
    have low : ∀ j ∈ [PX va 2], j < 512 := by simpa using h₂
    simp only [v₂, Bool.not_true, Bool.false_eq_true, if_false]
    cases v₁ : isValid (entry m (PTE2PA (entry m r (PX va 2))) (PX va 1)) with
    | false =>
      have zero := none _ (PX va 1) _ w₁ low (by simp) h₁ v₁
      have stop : walk (child L m) [PX va 2, PX va 1] r = Option.none := by
        change (child L m r (PX va 2)).bind (walk (child L m) [PX va 1]) = _
        rw [c₂, Option.bind_some]
        change (child L m _ (PX va 1)).bind _ = _
        rw [child_of_zero zero, Option.bind_none]
      rw [stop]
      simp only [Bool.not_false, if_true, reduceCtorEq, Option.elim_none, false_iff, not_and]
      rintro rfl
      simp [isValid]
    | true =>
      have c₁ := next _ (PX va 1) _ w₁ low (by simp) h₁ v₁
      have w₀ : walk (child L m) [PX va 2, PX va 1] r =
          some (PTE2PA (entry m (PTE2PA (entry m r (PX va 2))) (PX va 1))) := by
        change (child L m r (PX va 2)).bind (walk (child L m) [PX va 1]) = _
        rw [c₂, Option.bind_some]
        change (child L m _ (PX va 1)).bind _ = _
        rw [c₁]
        rfl
      rw [w₀, Option.elim_some]
      simp only [Bool.not_true, Bool.false_eq_true, if_false]
      split
      next valid =>
        simp only [Option.some.injEq]
        constructor
        · rintro rfl
          exact ⟨rfl, valid⟩
        · exact fun h => h.1
      next invalid =>
        simp only [reduceCtorEq, false_iff, not_and]
        rintro rfl
        exact invalid

end Walk

section Satp

variable {r : ℕ}

theorem make_satp (aligned : r % PGSIZE = 0) (lt : r < PHYSTOP) :
    (MAKE_SATP r).toNat / 2 ^ 60 = 8 ∧ (MAKE_SATP r).toNat % 2 ^ 44 * PGSIZE = r := by
  have low : r / 2 ^ 12 < 2 ^ 60 := by
    simp only [PHYSTOP] at lt
    omega
  have sum : SATP_SV39 ||| r / 2 ^ 12 = 2 ^ 60 * 8 + r / 2 ^ 12 := by
    rw [Nat.two_pow_add_eq_or_of_lt low, SATP_SV39, Nat.mul_comm]
  have value : (MAKE_SATP r).toNat = 2 ^ 60 * 8 + r / 2 ^ 12 := by
    rw [MAKE_SATP, sum, BitVec.toNat_ofNat]
    simp only [PHYSTOP] at lt
    omega
  rw [value]
  simp only [PGSIZE, PHYSTOP] at *
  constructor <;> omega

end Satp

section Frame

variable {L : Layout} {r tf : ℕ} {s : Pmem} {off : ℕ}

theorem wordAt_page (aligned : tf % PGSIZE = 0) (h : off + 8 ≤ PGSIZE) :
    wordAt s (tf + off) = BitVec.ofNat 64 ((s.mem tf).num off 8) := by
  have down : PG_ROUND_DOWN (tf + off) = tf := by
    simp only [PG_ROUND_DOWN, PGSIZE] at *
    omega
  have rest : (tf + off) % PGSIZE = off := by
    simp only [PGSIZE] at *
    omega
  rw [wordAt, down, rest]

theorem setWordAt_page (aligned : tf % PGSIZE = 0) (h : off + 8 ≤ PGSIZE) (v : Word) :
    setWordAt s (tf + off) v = s.setPage tf (·.putNum off 8 v.toNat) := by
  have down : PG_ROUND_DOWN (tf + off) = tf := by
    simp only [PG_ROUND_DOWN, PGSIZE] at *
    omega
  have rest : (tf + off) % PGSIZE = off := by
    simp only [PGSIZE] at *
    omega
  rw [setWordAt, down, rest]

theorem testBit_leafPte {pa perm k : ℕ} (hperm : perm < 2 ^ 10) (hk : k < 10) :
    (leafPte pa perm).testBit k = (perm ||| PTE_V).testBit k := by
  have flags : PTE_FLAGS (leafPte pa perm) = perm ||| PTE_V := pte_flags_leafPte hperm
  rw [← flags, PTE_FLAGS, Nat.testBit_mod_two_pow]
  simp [hk]

/-- The table `r` maps the trapframe `tf`, and no table lies in it. -/
structure MapsFrame (L : Layout) (r tf : ℕ) (s : Pmem) : Prop where
  tree : TreeOk L s.mem r
  entry : pteAt L s.mem r TRAPFRAME = leafPte tf (PTE_R ||| PTE_W)
  out : tf ∉ tableNodes L s.mem r

theorem MapsFrame.setPage (h : MapsFrame L r tf s) (f : Page → Page) :
    MapsFrame L r tf (s.setPage tf f) := by
  have same : ∀ b ∈ tableNodes L s.mem r, (s.setPage tf f).mem b = s.mem b :=
    fun b hb => setPage_mem_of_ne (ne_of_mem_of_not_mem hb h.out)
  obtain ⟨tree, nodes, -⟩ := h.tree.of_same same
  refine ⟨tree, ?_, ?_⟩
  · rw [pteAt_of_same same, h.entry]
  · rw [nodes]
    exact h.out

/-- Where the kernel finds the trapframe while the table of its process is in `satp`. -/
theorem MapsFrame.translate (h : MapsFrame L r tf s) (hr : InRange L r) (htf : InRange L tf)
    (hoff : off + 8 ≤ PGSIZE) (store : Bool) :
    translate s (MAKE_SATP r) .supervisor store (BitVec.ofNat 64 TRAPFRAME + BitVec.ofNat 64 off).toNat =
      some (tf + off) := by
  have va : (BitVec.ofNat 64 TRAPFRAME + BitVec.ofNat 64 off).toNat = TRAPFRAME + off := by
    rw [BitVec.toNat_add, BitVec.toNat_ofNat, BitVec.toNat_ofNat]
    simp only [TRAPFRAME, TRAMPOLINE, MAXVA, PGSIZE] at *
    omega
  obtain ⟨mode, root⟩ := make_satp hr.1 hr.2.2
  have page : SameEntry TRAPFRAME (TRAPFRAME + off) := by
    rw [sameEntry_iff (by decide)]
    · simp only [TRAPFRAME, TRAMPOLINE, MAXVA, PGSIZE] at *
      omega
    · simp only [TRAPFRAME, TRAMPOLINE, MAXVA, PGSIZE] at *
      omega
  have entry : sv39 s.mem r (TRAPFRAME + off) = some (leafPte tf (PTE_R ||| PTE_W)) := by
    rw [sv39_eq_some h.tree, ← page.pteAt_eq, h.entry]
    exact ⟨rfl, isValid_leafPte _ _⟩
  have canonical : Canonical (TRAPFRAME + off) := by
    left
    simp only [TRAPFRAME, TRAMPOLINE, MAXVA, PGSIZE] at *
    omega
  have allowed : allows .supervisor store (leafPte tf (PTE_R ||| PTE_W)) = true := by
    have read : (leafPte tf (PTE_R ||| PTE_W)).testBit 1 = _ :=
      testBit_leafPte (by decide) (by decide)
    have write : (leafPte tf (PTE_R ||| PTE_W)).testBit 2 = _ :=
      testBit_leafPte (by decide) (by decide)
    rw [allows, isUser_leafPte (by decide), read, write]
    cases store <;> rfl
  have sv : ¬ (Mode.supervisor = .machine ∨ (MAKE_SATP r).toNat / 2 ^ 60 ≠ 8) := by
    rw [mode]
    simp
  rw [va, Trap.translate, if_neg sv, if_pos canonical, root, entry]
  dsimp only
  rw [if_pos allowed, pte2pa_leafPte (by decide) htf.1 htf.lt_pa]
  simp only [TRAPFRAME, TRAMPOLINE, MAXVA, PGSIZE, Option.some.injEq] at *
  omega

/-- Nothing but the page `q` has been written. -/
structure OnlyPage (q : ℕ) (s s' : Pmem) : Prop where
  next : s'.next = s.next
  allocable : s'.allocable = s.allocable
  mem : ∀ b, b ≠ q → s'.mem b = s.mem b

theorem OnlyPage.refl (q : ℕ) (s : Pmem) : OnlyPage q s s := ⟨rfl, rfl, fun _ _ => rfl⟩

theorem OnlyPage.setPage {q : ℕ} {s' : Pmem} (h : OnlyPage q s s') (f : Page → Page) :
    OnlyPage q s (s'.setPage q f) :=
  ⟨h.next, h.allocable, fun b hb => (setPage_mem_of_ne hb).trans (h.mem b hb)⟩

/-- The trapframe as the trampoline reaches it, from the memory `s₀` on. -/
def frameWindow (L : Layout) (r tf : ℕ) (hr : InRange L r) (htf : InRange L tf) (s₀ : Pmem) :
    Window mmu (MAKE_SATP r) .supervisor (BitVec.ofNat 64 TRAPFRAME) where
  good s := MapsFrame L r tf s ∧ OnlyPage tf s₀ s
  inside off := off % 8 = 0 ∧ off + 8 ≤ PGSIZE
  get s off := BitVec.ofNat 64 ((s.mem tf).num off 8)
  put s off v := s.setPage tf (·.putNum off 8 v.toNat)
  load s off h ho := by
    have va : (BitVec.ofNat 64 TRAPFRAME + BitVec.ofNat 64 off).toNat % 8 = 0 := by
      rw [BitVec.toNat_add, BitVec.toNat_ofNat, BitVec.toNat_ofNat]
      simp only [TRAPFRAME, TRAMPOLINE, MAXVA, PGSIZE] at *
      omega
    change (if (BitVec.ofNat 64 TRAPFRAME + BitVec.ofNat 64 off).toNat % 8 = 0 then _ else _) = _
    rw [if_pos va, h.1.translate hr htf ho.2, Option.map_some, wordAt_page htf.1 ho.2]
  store s off v h ho := by
    have va : (BitVec.ofNat 64 TRAPFRAME + BitVec.ofNat 64 off).toNat % 8 = 0 := by
      rw [BitVec.toNat_add, BitVec.toNat_ofNat, BitVec.toNat_ofNat]
      simp only [TRAPFRAME, TRAMPOLINE, MAXVA, PGSIZE] at *
      omega
    change (if (BitVec.ofNat 64 TRAPFRAME + BitVec.ofNat 64 off).toNat % 8 = 0 then _ else _) = _
    rw [if_pos va, h.1.translate hr htf ho.2, Option.map_some, setWordAt_page htf.1 ho.2]
  good_put s off v h _ := ⟨h.1.setPage _, h.2.setPage _⟩
  get_put_self s off v ho := by
    have small : v.toNat % 256 ^ 8 = v.toNat := Nat.mod_eq_of_lt v.isLt
    rw [setPage_mem_self, Bytes.num_putNum_self _ _ _ _ ho.2, small, BitVec.ofNat_toNat,
      BitVec.setWidth_eq]
  get_put_of_ne s off off' v ho ho' ne := by
    rw [setPage_mem_self, Bytes.num_putNum_of_disjoint]
    omega

end Frame

section Store

variable {L : Layout} {r va : ℕ} {s s' : Pmem} {v w : Word}

theorem pte2pa_aligned (pte : ℕ) : PTE2PA pte % PGSIZE = 0 := by
  rw [PTE2PA, PGSIZE, Nat.mod_mod_of_dvd _ (by decide)]
  exact Nat.mul_mod_left ..

theorem pg_round_down_pte (pte : ℕ) : PG_ROUND_DOWN (PTE2PA pte + va % PGSIZE) = PTE2PA pte := by
  have aligned := pte2pa_aligned pte
  generalize PTE2PA pte = pa at *
  simp only [PG_ROUND_DOWN, PGSIZE] at *
  omega

theorem userPage_of_allows {store : Bool} (h : allows .user store (pteAt L s.mem r va) = true) :
    UserPage L s.mem r (PTE2PA (pteAt L s.mem r va)) := by
  simp only [allows, decide_true, Bool.and_eq_true, beq_iff_eq] at h
  exact ⟨va, h.1, rfl⟩

/-- A store in user mode writes the page of an entry that allows it. -/
theorem store_user (ok : TreeOk L s.mem r) (hr : InRange L r)
    (h : mmu.store (MAKE_SATP r) .user s w v = some s') :
    ∃ va, allows .user true (pteAt L s.mem r va) = true ∧
      OnlyPage (PTE2PA (pteAt L s.mem r va)) s s' := by
  change (if w.toNat % 8 = 0 then _ else _) = _ at h
  obtain ⟨mode, root⟩ := make_satp hr.1 hr.2.2
  have sv : ¬ (Mode.user = .machine ∨ (MAKE_SATP r).toNat / 2 ^ 60 ≠ 8) := by
    rw [mode]
    simp
  split at h
  · obtain ⟨pa, hpa, rfl⟩ := Option.map_eq_some_iff.mp h
    rw [translate, if_neg sv, root] at hpa
    split at hpa
    · cases entry : sv39 s.mem r w.toNat with
      | none => simp [entry] at hpa
      | some pte =>
        simp only [entry, Option.ite_none_right_eq_some, Option.some.injEq] at hpa
        obtain ⟨allowed, rfl⟩ := hpa
        obtain ⟨rfl, valid⟩ := (sv39_eq_some ok).mp entry
        refine ⟨w.toNat, allowed, ?_⟩
        rw [setWordAt, pg_round_down_pte]
        exact (OnlyPage.refl _ s).setPage _
    · cases hpa
  · cases h

/-- A store that its entry allows does not fault. -/
theorem mmu_store_user (ok : TreeOk L s.mem r) (hr : InRange L r) (aligned : w.toNat % 8 = 0)
    (canonical : Canonical w.toNat) (valid : isValid (pteAt L s.mem r w.toNat) = true)
    (allowed : allows .user true (pteAt L s.mem r w.toNat) = true) (v : Word) :
    mmu.store (MAKE_SATP r) .user s w v =
      some (setWordAt s (PTE2PA (pteAt L s.mem r w.toNat) + w.toNat % PGSIZE) v) := by
  obtain ⟨mode, root⟩ := make_satp hr.1 hr.2.2
  have sv : ¬ (Mode.user = .machine ∨ (MAKE_SATP r).toNat / 2 ^ 60 ≠ 8) := by
    rw [mode]
    simp
  have entry := (sv39_eq_some ok).mpr ⟨rfl, valid⟩
  change (if w.toNat % 8 = 0 then _ else _) = _
  rw [if_pos aligned, translate, if_neg sv, if_pos canonical, root, entry]
  dsimp only
  rw [if_pos allowed, Option.map_some]

end Store

end EasyXv6.Trap
