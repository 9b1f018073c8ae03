import EasyXv6.Mem.Uvm

set_option autoImplicit false

/-!
# Bytes in user memory

Where a copy to user memory finds all its pages, the bytes are there afterwards.
-/
namespace EasyXv6.Mem
open Lib Radix

/-- What `vm_getpa` returns. -/
def paOf (L : Layout) (m : ℕ → Page) (r va : ℕ) : ℕ :=
  if MAXVA ≤ va then 0
  else if isValid (pteAt L m r va) && isUser (pteAt L m r va) then PTE2PA (pteAt L m r va)
  else 0

/-- The byte that a user program reads at a mapped address. -/
def userByte (L : Layout) (m : ℕ → Page) (r va : ℕ) : UInt8 :=
  (m (paOf L m r va)).byte (va % PGSIZE)

variable {L : Layout} {s s' : Pmem} {m m' : ℕ → Page} {r va va' : ℕ}

/-- Two addresses that have one page of the allocator have one entry. -/
theorem TreeOk.leaf_inj (ok : TreeOk L s.mem r) (nodup : (tableLeaves L s.mem r).Nodup)
    (h : InRange L (PTE2PA (pteAt L s.mem r va)))
    (eq : PTE2PA (pteAt L s.mem r va') = PTE2PA (pteAt L s.mem r va)) : SameEntry va va' := by
  cases hw : walk (child L s.mem) (path va) r with
  | none =>
    unfold pteAt at h
    rw [hw, Option.elim_none] at h
    exact absurd h.pos (Nat.lt_irrefl 0)
  | some b =>
    -- without the one entry the other is still a leaf
    obtain ⟨ok', -, leaves', ptes'⟩ := ok.setLeaf hw (v := 0) (by decide) (Or.inl rfl)
    by_contra other
    have still : PTE2PA (pteAt L s.mem r va) ∈
        tableLeaves L (s.setPte b (PX va 0) 0).mem r := by
      have leaf : InRange L (PTE2PA (pteAt L (s.setPte b (PX va 0) 0).mem r va')) → _ :=
        ok'.mem_leaves
      rw [ptes', if_neg other, eq] at leaf
      exact leaf h
    rw [leafOf_zero, add_zero, leafOf, if_pos h] at leaves'
    rw [← leaves'] at nodup
    exact Multiset.disjoint_left.mp (Multiset.nodup_add.mp nodup).2.2 still
      (Multiset.mem_singleton_self _)

section PaOf

theorem paOf_user (h : paOf L m r va ≠ 0) : va < MAXVA ∧ isUser (pteAt L m r va) ∧
    paOf L m r va = PTE2PA (pteAt L m r va) := by
  unfold paOf at h ⊢
  split at h
  · exact absurd rfl h
  next hlt =>
  split at h
  next flags =>
    rw [if_neg hlt, if_pos flags]
    exact ⟨Nat.lt_of_not_le hlt, (Bool.and_eq_true_iff.mp flags).2, rfl⟩
  · exact absurd rfl h

theorem userPage_paOf (h : paOf L m r va ≠ 0) : UserPage L m r (paOf L m r va) :=
  ⟨va, (paOf_user h).2.1, (paOf_user h).2.2.symm⟩

theorem paOf_of_same (h : ∀ b ∈ tableNodes L m r, m' b = m b) : paOf L m' r va = paOf L m r va := by
  unfold paOf
  rw [pteAt_of_same h]

theorem paOf_congr (h : va / PGSIZE = va' / PGSIZE) : paOf L m r va = paOf L m r va' := by
  have lt : MAXVA ≤ va ↔ MAXVA ≤ va' := by
    simp only [MAXVA, PGSIZE] at h ⊢
    omega
  unfold paOf
  by_cases hva : MAXVA ≤ va
  · rw [if_pos hva, if_pos (lt.mp hva)]
  · have hva' : ¬ MAXVA ≤ va' := fun h => hva (lt.mpr h)
    have entry : SameEntry va va' := by
      refine (sameEntry_iff ?_ ?_).mpr h
      · exact Nat.lt_trans (Nat.lt_of_not_le hva) (by decide)
      · exact Nat.lt_trans (Nat.lt_of_not_le hva') (by decide)
    rw [if_neg hva, if_neg hva', entry.pteAt_eq]

/-- Different pages of a process are different in memory. -/
def PagesApart (L : Layout) (m : ℕ → Page) (r : ℕ) : Prop :=
  ∀ va va', paOf L m r va ≠ 0 → paOf L m r va' = paOf L m r va → va / PGSIZE = va' / PGSIZE

end PaOf

section Copyout

theorem vmGetpa_run (ok : TreeOk L s.mem r) :
    (vmGetpa r va).run s = .ok (paOf L s.mem r va) s := vmGetpa_find ok

/-- One round of the copy, byte by byte. -/
theorem stepByte {dst n : ℕ} {src : ℕ → UInt8} (hpa : paOf L s.mem r (dst + 0) ≠ 0)
    (inj : PagesApart L s.mem r) (round : PG_ROUND_DOWN dst ≤ dst ∧
      dst < PG_ROUND_DOWN dst + PGSIZE ∧ PG_ROUND_DOWN dst % PGSIZE = 0)
    (hn : n ≤ PGSIZE - (dst - PG_ROUND_DOWN dst))
    (same : ∀ va, paOf L (s.setPage (paOf L s.mem r (dst + 0))
      fun x => x.put (dst - PG_ROUND_DOWN dst) n src).mem r va = paOf L s.mem r va) (va : ℕ) :
    userByte L (s.setPage (paOf L s.mem r (dst + 0))
        fun x => x.put (dst - PG_ROUND_DOWN dst) n src).mem r va =
      if dst ≤ va ∧ va < dst + n then src (va - dst) else userByte L s.mem r va := by
  unfold userByte
  rw [same]
  by_cases hpage : va / PGSIZE = (dst + 0) / PGSIZE
  · rw [paOf_congr hpage, setPage_mem_self, Bytes.byte_put _ _ _ _ _ (Nat.mod_lt _ (by decide))]
    have here : (dst - PG_ROUND_DOWN dst ≤ va % PGSIZE ∧
        va % PGSIZE < dst - PG_ROUND_DOWN dst + n) ↔ dst ≤ va ∧ va < dst + n := by
      simp only [PGSIZE] at *
      omega
    by_cases hin : dst ≤ va ∧ va < dst + n
    · rw [if_pos hin, if_pos (here.mpr hin)]
      congr 1
      simp only [PGSIZE] at *
      omega
    · rw [if_neg hin, if_neg fun h => hin (here.mp h)]
  · have other : paOf L s.mem r va ≠ paOf L s.mem r (dst + 0) :=
      fun h => hpage (inj _ _ hpa h).symm
    rw [setPage_mem_of_ne other, if_neg]
    intro hin
    apply hpage
    simp only [PGSIZE] at *
    omega

/-- The first `n` bytes are there, and nothing else has changed. Where they are not all, the next one
    has no page: the copy has stopped before it started, or at the end of a page. -/
structure CopiedOut (L : Layout) (s : Pmem) (r dst len : ℕ) (src : ℕ → UInt8) (b : Bool) (n : ℕ)
    (s' : Pmem) : Prop where
  whole : b = true → n = len
  short : b = false → n < len ∧ paOf L s.mem r (dst + n) = 0 ∧ (n = 0 ∨ (dst + n) % PGSIZE = 0)
  mapped : ∀ k < n, paOf L s.mem r (dst + k) ≠ 0
  bytes : ∀ k < n, userByte L s'.mem r (dst + k) = src k
  frame : ∀ va, va < dst ∨ dst + n ≤ va → userByte L s'.mem r va = userByte L s.mem r va
  others : ∀ q, (∀ k < n, paOf L s.mem r (dst + k) ≠ q) → s'.mem q = s.mem q
  pas : ∀ va, paOf L s'.mem r va = paOf L s.mem r va

/-- It succeeds exactly when every byte has a page. -/
theorem CopiedOut.all {dst len n : ℕ} {src : ℕ → UInt8} {b : Bool}
    (h : CopiedOut L s r dst len src b n s') : b = true ↔ ∀ k < len, paOf L s.mem r (dst + k) ≠ 0 := by
  constructor
  · rintro rfl k hk
    exact h.mapped k (h.whole rfl ▸ hk)
  · intro all
    cases b with
    | true => rfl
    | false => exact absurd (h.short rfl).2.1 (all n (h.short rfl).1)

theorem CopiedOut.nil {dst len : ℕ} {src : ℕ → UInt8} {b : Bool} (whole : b = true → len = 0)
    (short : b = false → 0 < len ∧ paOf L s.mem r (dst + 0) = 0) :
    CopiedOut L s r dst len src b 0 s where
  whole h := (whole h).symm
  short h := ⟨(short h).1, (short h).2, Or.inl rfl⟩
  mapped _ hk := absurd hk (Nat.not_lt_zero _)
  bytes _ hk := absurd hk (Nat.not_lt_zero _)
  frame _ _ := rfl
  others _ _ := rfl
  pas _ := rfl

theorem uvmCopyoutLoop_copied {fuel dst len : ℕ} {src : ℕ → UInt8} {b : Bool}
    (ok : TreeOk L s.mem r) (apart : ∀ q, UserPage L s.mem r q → q ∉ tableNodes L s.mem r)
    (inj : PagesApart L s.mem r) (hfuel : len ≤ fuel)
    (hr : (uvmCopyoutLoop r fuel dst src len).run s = .ok b s') :
    ∃ n, CopiedOut L s r dst len src b n s' := by
  induction fuel generalizing s dst src len with
  | zero =>
    cases hr
    exact ⟨0, .nil (fun _ => Nat.le_zero.mp hfuel) (by simp)⟩
  | succ fuel ih =>
    unfold uvmCopyoutLoop at hr
    rw [Comp.run_ite] at hr
    split at hr
    next hlen =>
      cases hr
      exact ⟨0, .nil (fun _ => hlen) (by simp)⟩
    next hlen =>
    have pos := Nat.pos_of_ne_zero hlen
    have first : paOf L s.mem r (PG_ROUND_DOWN dst) = paOf L s.mem r (dst + 0) := by
      apply paOf_congr
      rw [PG_ROUND_DOWN, Nat.mul_div_cancel _ (by decide), Nat.add_zero]
    dsimp only at hr
    rw [Comp.run_ite] at hr
    split at hr
    next hva =>
      cases hr
      refine ⟨0, .nil (by simp) fun _ => ⟨pos, ?_⟩⟩
      rw [← first, paOf, if_pos hva]
    next hva =>
    rw [Comp.run_bind_of_ok (vmGetpa_run ok), Comp.run_ite] at hr
    split at hr
    next hpa =>
      cases hr
      exact ⟨0, .nil (by simp) fun _ => ⟨pos, first ▸ hpa⟩⟩
    next hpa =>
    rw [Comp.bind_modify_run] at hr
    have user := userPage_paOf hpa
    generalize hn : min (PGSIZE - (dst - PG_ROUND_DOWN dst)) len = n at hr
    have hv := (paOf_user hpa).1
    have round : PG_ROUND_DOWN dst ≤ dst ∧ dst < PG_ROUND_DOWN dst + PGSIZE ∧
        PG_ROUND_DOWN dst % PGSIZE = 0 := by
      simp only [PG_ROUND_DOWN, PGSIZE]
      omega
    rw [first] at hpa user hr
    have same : ∀ p ∈ tableNodes L s.mem r, (s.setPage (paOf L s.mem r (dst + 0))
        fun x => x.put (dst - PG_ROUND_DOWN dst) n src).mem p = s.mem p :=
      fun p hp => setPage_mem_of_ne (ne_of_mem_of_not_mem hp (apart _ user))
    have step := stepByte hpa inj round (by omega) fun va => paOf_of_same same
    have other : ∀ q, paOf L s.mem r (dst + 0) ≠ q → (s.setPage (paOf L s.mem r (dst + 0))
        fun x => x.put (dst - PG_ROUND_DOWN dst) n src).mem q = s.mem q :=
      fun q hq => setPage_mem_of_ne hq.symm
    generalize s.setPage (paOf L s.mem r (dst + 0))
      (fun x => x.put (dst - PG_ROUND_DOWN dst) n src) = t at hr step same other
    have pas : ∀ va, paOf L t.mem r va = paOf L s.mem r va := fun va => paOf_of_same same
    have inj' : PagesApart L t.mem r := by
      intro va va'
      rw [pas, pas]
      exact inj va va'
    have apart' : ∀ q, UserPage L t.mem r q → q ∉ tableNodes L t.mem r := by
      rintro q ⟨va, huser, rfl⟩
      rw [pteAt_of_same same] at huser ⊢
      rw [(ok.of_same same).2.1]
      exact apart _ ⟨va, huser, rfl⟩
    have next : (PG_ROUND_DOWN dst + PGSIZE) % 2 ^ 64 = PG_ROUND_DOWN dst + PGSIZE := by
      refine Nat.mod_eq_of_lt ?_
      simp only [MAXVA, PGSIZE] at hv ⊢
      omega
    rw [next] at hr
    obtain ⟨j, rest⟩ := ih (ok.of_same same).1 apart' inj' (by omega) hr
    have whole : n < len → PG_ROUND_DOWN dst + PGSIZE = dst + n := by omega
    have near : ∀ k < n, paOf L s.mem r (dst + k) = paOf L s.mem r (dst + 0) := by
      intro k hk
      apply paOf_congr
      simp only [PGSIZE] at hn round ⊢
      omega
    -- the bytes of the first page, and those that the other rounds have copied
    have le : j ≤ len - n := by
      cases b with
      | true => exact Nat.le_of_eq (rest.whole rfl)
      | false => exact Nat.le_of_lt (rest.short rfl).1
    have far : ∀ k < n + j, n ≤ k →
        n < len ∧ k - n < j ∧ PG_ROUND_DOWN dst + PGSIZE + (k - n) = dst + k := by
      intro k hk hkn
      have := whole (by omega)
      omega
    refine ⟨n + j, ⟨?_, ?_, ?_, ?_, ?_, ?_, fun va => (rest.pas va).trans (pas va)⟩⟩
    · intro hb
      have := rest.whole hb
      omega
    · intro hb
      obtain ⟨lt, missing, edge⟩ := rest.short hb
      have here := whole (by omega)
      rw [pas, here, Nat.add_assoc] at missing
      rw [here, Nat.add_assoc] at edge
      refine ⟨by omega, missing, Or.inr ?_⟩
      rcases edge with rfl | edge
      · rw [Nat.add_zero, ← here, Nat.add_mod_right]
        exact round.2.2
      · exact edge
    · intro k hk
      by_cases hkn : k < n
      · rw [near k hkn]
        exact hpa
      · obtain ⟨-, hj, addr⟩ := far k hk (Nat.not_lt.mp hkn)
        have mapped := rest.mapped (k - n) hj
        rwa [pas, addr] at mapped
    · intro k hk
      by_cases hkn : k < n
      · rw [rest.frame _ (Or.inl (by omega)), step, if_pos (by omega), Nat.add_sub_cancel_left]
      · obtain ⟨-, hj, addr⟩ := far k hk (Nat.not_lt.mp hkn)
        have byte := rest.bytes (k - n) hj
        rwa [addr, Nat.sub_add_cancel (Nat.not_lt.mp hkn)] at byte
    · intro va hva
      rw [rest.frame va (by omega), step, if_neg (by omega)]
    · intro q hq
      have npos : 0 < n := by omega
      rw [rest.others q, other q]
      · exact hq 0 (by omega)
      · intro k hk
        have := hq (n + k) (by omega)
        rw [pas, whole (by omega), Nat.add_assoc]
        exact this

end Copyout

end EasyXv6.Mem
