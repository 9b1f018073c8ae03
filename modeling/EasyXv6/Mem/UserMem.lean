import EasyXv6.Mem.Vmem

set_option autoImplicit false

/-!
# User memory as the kernel sees it

The pages that `vm_getpa` finds in the page table of a process, by their virtual addresses, and the
copies between them and the kernel (uvm.c).
-/
namespace EasyXv6.Mem
open Lib

abbrev UserMem := ℕ → Option Page

namespace UserMem

/-- `uvm_copyin`: whether it returns 0, and the bytes that it has copied. -/
def copyinLoop (mem : UserMem) : (fuel : ℕ) → (src len : ℕ) → Bool × List UInt8
  | 0, _, _ => (true, [])
  | fuel + 1, src, len =>
    if len = 0 then
      (true, [])
    else
      let va0 := PG_ROUND_DOWN src
      if MAXVA ≤ va0 then
        (false, [])
      else
        match mem va0 with
        | none => (false, [])
        | some page =>
          let n := min (PGSIZE - (src - va0)) len
          let rest := copyinLoop mem fuel (va0 + PGSIZE) (len - n)
          (rest.1, (List.range n).map (fun j => page.byte (src - va0 + j)) ++ rest.2)

def copyin (mem : UserMem) (src len : ℕ) : Bool × List UInt8 := copyinLoop mem len src len

/-- `uvm_copyout`: whether it returns 0, and the memory after it. -/
def copyoutLoop : (fuel : ℕ) → UserMem → (dst : ℕ) → (src : ℕ → UInt8) → (len : ℕ) →
    Bool × UserMem
  | 0, mem, _, _, _ => (true, mem)
  | fuel + 1, mem, dst, src, len =>
    if len = 0 then
      (true, mem)
    else
      let va0 := PG_ROUND_DOWN dst
      if MAXVA ≤ va0 then
        (false, mem)
      else
        match mem va0 with
        | none => (false, mem)
        | some page =>
          let n := min (PGSIZE - (dst - va0)) len
          copyoutLoop fuel (Function.update mem va0 (some (page.put (dst - va0) n src)))
            (va0 + PGSIZE) (fun i => src (i + n)) (len - n)

def copyout (mem : UserMem) (dst : ℕ) (src : ℕ → UInt8) (len : ℕ) : Bool × UserMem :=
  copyoutLoop len mem dst src len

variable {mem : UserMem} {src len fuel : ℕ}

/-- A round copies at least one byte and at most all of them. -/
theorem round_pos (hlen : len ≠ 0) (src : ℕ) :
    0 < min (PGSIZE - (src - PG_ROUND_DOWN src)) len := by
  unfold PG_ROUND_DOWN
  simp only [PGSIZE]
  omega

theorem copyinLoop_length_le : (copyinLoop mem fuel src len).2.length ≤ len := by
  induction fuel generalizing src len with
  | zero => exact Nat.zero_le _
  | succ fuel ih =>
    unfold copyinLoop
    split
    · exact Nat.zero_le _
    next hlen =>
    dsimp only
    split
    · exact Nat.zero_le _
    split
    · exact Nat.zero_le _
    next page _ =>
      have : (copyinLoop mem fuel (PG_ROUND_DOWN src + PGSIZE)
          (len - min (PGSIZE - (src - PG_ROUND_DOWN src)) len)).2.length ≤ _ := ih
      simp only [List.length_append, List.length_map, List.length_range]
      omega

theorem copyinLoop_length (hfuel : len ≤ fuel) (h : (copyinLoop mem fuel src len).1 = true) :
    (copyinLoop mem fuel src len).2.length = len := by
  induction fuel generalizing src len with
  | zero =>
    rw [Nat.le_zero.mp hfuel]
    rfl
  | succ fuel ih =>
    unfold copyinLoop at h ⊢
    split at h
    next hlen => rw [if_pos hlen, hlen, List.length_nil]
    next hlen =>
    rw [if_neg hlen]
    dsimp only at h ⊢
    split at h
    · cases h
    next hva =>
    rw [if_neg hva]
    cases hm : mem (PG_ROUND_DOWN src) with
    | none =>
      rw [hm] at h
      cases h
    | some page =>
      rw [hm] at h
      dsimp only at h ⊢
      have pos := round_pos hlen src
      have rest := ih (by omega) h
      simp only [List.length_append, List.length_map, List.length_range, rest]
      omega

/-- The byte at a mapped address. -/
def byteAt (mem : UserMem) (va : ℕ) : Option UInt8 :=
  if MAXVA ≤ va then none else (mem (PG_ROUND_DOWN va)).map fun page => page.byte (va % PGSIZE)

/-- The bytes of the longest part of the range that is mapped. Where that is not the whole range, it is
    empty or ends with a page. -/
structure CopiedIn (mem : UserMem) (src len : ℕ) (b : Bool) (bytes : List UInt8) : Prop where
  whole : b = true → bytes.length = len
  short : b = false → bytes.length < len ∧ byteAt mem (src + bytes.length) = none ∧
    (bytes.length = 0 ∨ (src + bytes.length) % PGSIZE = 0)
  byte : ∀ k (h : k < bytes.length), byteAt mem (src + k) = some bytes[k]

/-- `uvm_copyin` returns 0 exactly when every byte is mapped. -/
theorem CopiedIn.all {b : Bool} {bytes : List UInt8} (h : CopiedIn mem src len b bytes) :
    b = true ↔ ∀ k < len, byteAt mem (src + k) ≠ none := by
  constructor
  · rintro rfl k hk
    rw [h.byte k (h.whole rfl ▸ hk)]
    exact Option.some_ne_none _
  · intro all
    cases b with
    | true => rfl
    | false => exact absurd (h.short rfl).2.1 (all _ (h.short rfl).1)

theorem CopiedIn.nil {b : Bool} (whole : b = true → len = 0)
    (short : b = false → 0 < len ∧ byteAt mem (src + 0) = none) : CopiedIn mem src len b [] where
  whole h := (whole h).symm
  short h := ⟨(short h).1, (short h).2, Or.inl rfl⟩
  byte _ h := absurd h (Nat.not_lt_zero _)

theorem copyinLoop_copied (hfuel : len ≤ fuel) :
    CopiedIn mem src len (copyinLoop mem fuel src len).1 (copyinLoop mem fuel src len).2 := by
  induction fuel generalizing src len with
  | zero => exact .nil (fun _ => Nat.le_zero.mp hfuel) (by simp [copyinLoop])
  | succ fuel ih =>
    unfold copyinLoop
    split
    next hlen => exact .nil (fun _ => hlen) (by simp)
    next hlen =>
    have pos := Nat.pos_of_ne_zero hlen
    have round : PG_ROUND_DOWN src ≤ src ∧ src < PG_ROUND_DOWN src + PGSIZE ∧
        PG_ROUND_DOWN src % PGSIZE = 0 := by
      simp only [PG_ROUND_DOWN, PGSIZE]
      omega
    dsimp only
    split
    next hva =>
      refine .nil (by simp) fun _ => ⟨pos, ?_⟩
      rw [byteAt, if_pos]
      simp only [Nat.add_zero, MAXVA, PGSIZE] at *
      omega
    next hva =>
    cases hm : mem (PG_ROUND_DOWN src) with
    | none =>
      refine .nil (by simp) fun _ => ⟨pos, ?_⟩
      rw [byteAt, Nat.add_zero, hm]
      split <;> rfl
    | some page =>
    dsimp only
    generalize hn : min (PGSIZE - (src - PG_ROUND_DOWN src)) len = n
    have fuelled : len - n ≤ fuel := by omega
    have rest := @ih (PG_ROUND_DOWN src + PGSIZE) (len - n) fuelled
    generalize copyinLoop mem fuel (PG_ROUND_DOWN src + PGSIZE) (len - n) = out at rest ⊢
    have whole : n < len → PG_ROUND_DOWN src + PGSIZE = src + n := by omega
    have here : ∀ k < n, byteAt mem (src + k) = some (page.byte (src - PG_ROUND_DOWN src + k)) := by
      intro k hk
      have base : PG_ROUND_DOWN (src + k) = PG_ROUND_DOWN src := by
        simp only [PG_ROUND_DOWN, PGSIZE] at *
        omega
      have low : ¬ MAXVA ≤ src + k := by
        simp only [MAXVA, PGSIZE] at *
        omega
      have off : (src + k) % PGSIZE = src - PG_ROUND_DOWN src + k := by
        simp only [PGSIZE] at *
        omega
      rw [byteAt, if_neg low, base, hm, off]
      rfl
    refine ⟨?_, ?_, ?_⟩
    · intro hb
      have := rest.whole hb
      simp only [List.length_append, List.length_map, List.length_range]
      omega
    · intro hb
      obtain ⟨lt, missing, edge⟩ := rest.short hb
      have at' := whole (by omega)
      simp only [List.length_append, List.length_map, List.length_range]
      rw [at', Nat.add_assoc] at missing
      rw [at', Nat.add_assoc] at edge
      refine ⟨by omega, missing, Or.inr ?_⟩
      rcases edge with zero | edge
      · rw [zero, Nat.add_zero, ← at', Nat.add_mod_right]
        exact round.2.2
      · exact edge
    · intro k hk
      simp only [List.length_append, List.length_map, List.length_range] at hk
      by_cases hkn : k < n
      · rw [here k hkn, List.getElem_append_left (by simpa using hkn), List.getElem_map,
          List.getElem_range]
      · have far : k - n < out.2.length := by omega
        have bound : n < len := by
          by_contra full
          have none : len - n = 0 := by omega
          cases hb : out.1 with
          | true =>
            have := rest.whole hb
            omega
          | false =>
            have := (rest.short hb).1
            omega
        have byte := rest.byte (k - n) far
        rw [whole bound, Nat.add_assoc, Nat.add_sub_cancel' (Nat.not_lt.mp hkn)] at byte
        rw [byte, List.getElem_append_right (by simpa using hkn)]
        simp only [List.length_map, List.length_range]

theorem copyin_copied (mem : UserMem) (src len : ℕ) :
    CopiedIn mem src len (copyin mem src len).1 (copyin mem src len).2 :=
  copyinLoop_copied (Nat.le_refl len)

/-- What a copy of `len` bytes to `dst` does to the memory. A copy that fails may have stored some of
    them. -/
structure CopiedOut (mem : UserMem) (dst len : ℕ) (src : ℕ → UInt8) (b : Bool) (mem' : UserMem) :
    Prop where
  bytes : b = true → ∀ k < len, byteAt mem' (dst + k) = some (src k)
  frame : ∀ va, va < dst ∨ dst + len ≤ va → byteAt mem' va = byteAt mem va
  mapped : ∀ va, byteAt mem' va = none ↔ byteAt mem va = none
  all : (∀ k < len, byteAt mem (dst + k) ≠ none) → b = true

/-- The bytes of one page are stored. -/
theorem byteAt_put {dst n : ℕ} {src : ℕ → UInt8} {page : Page} (low : dst < MAXVA)
    (hm : mem (PG_ROUND_DOWN dst) = some page) (hn : n ≤ PGSIZE - (dst - PG_ROUND_DOWN dst)) (va : ℕ) :
    byteAt (Function.update mem (PG_ROUND_DOWN dst)
      (some (page.put (dst - PG_ROUND_DOWN dst) n src))) va =
        if dst ≤ va ∧ va < dst + n then some (src (va - dst)) else byteAt mem va := by
  have round : PG_ROUND_DOWN dst = dst / PGSIZE * PGSIZE := rfl
  have base : PG_ROUND_DOWN va = va / PGSIZE * PGSIZE := rfl
  have off : va % PGSIZE < PGSIZE := Nat.mod_lt _ (by decide)
  unfold byteAt
  by_cases high : MAXVA ≤ va
  · rw [if_pos high, if_pos high, if_neg]
    simp only [MAXVA, PGSIZE] at *
    omega
  rw [if_neg high, if_neg high]
  by_cases same : PG_ROUND_DOWN va = PG_ROUND_DOWN dst
  · rw [same, Function.update_self, hm, Option.map_some, Option.map_some,
      Bytes.byte_put _ _ _ _ _ off]
    split
    next h =>
      rw [if_pos]
      · congr 2
        simp only [PGSIZE] at *
        omega
      · simp only [PGSIZE] at *
        omega
    next h =>
      rw [if_neg]
      simp only [PGSIZE] at *
      omega
  · rw [Function.update_of_ne same, if_neg]
    simp only [PGSIZE] at *
    omega

theorem copyoutLoop_copied {dst : ℕ} {src : ℕ → UInt8} (hfuel : len ≤ fuel) :
    CopiedOut mem dst len src (copyoutLoop fuel mem dst src len).1
      (copyoutLoop fuel mem dst src len).2 := by
  induction fuel generalizing mem dst src len with
  | zero =>
    refine ⟨fun _ k hk => ?_, fun _ _ => rfl, fun _ => Iff.rfl, fun _ => rfl⟩
    omega
  | succ fuel ih =>
    unfold copyoutLoop
    split
    next hlen =>
      refine ⟨fun _ k hk => ?_, fun _ _ => rfl, fun _ => Iff.rfl, fun _ => rfl⟩
      omega
    next hlen =>
    have pos := Nat.pos_of_ne_zero hlen
    have round : PG_ROUND_DOWN dst ≤ dst ∧ dst < PG_ROUND_DOWN dst + PGSIZE ∧
        PG_ROUND_DOWN dst % PGSIZE = 0 := by
      simp only [PG_ROUND_DOWN, PGSIZE]
      omega
    -- a first byte that is not mapped ends the copy
    have refused : byteAt mem dst = none → CopiedOut mem dst len src false mem := fun h =>
      ⟨nofun, fun _ _ => rfl, fun _ => Iff.rfl, fun all => absurd h (all 0 pos)⟩
    dsimp only
    split
    next hva =>
      refine refused ?_
      rw [byteAt, if_pos (Nat.le_trans hva round.1)]
    next hva =>
    have low : dst < MAXVA := by
      simp only [MAXVA, PGSIZE] at *
      omega
    cases hm : mem (PG_ROUND_DOWN dst) with
    | none =>
      refine refused ?_
      rw [byteAt, if_neg (Nat.not_le.mpr low), hm]
      rfl
    | some page =>
    dsimp only
    generalize hn : min (PGSIZE - (dst - PG_ROUND_DOWN dst)) len = n
    have put := @byteAt_put mem dst n src page low hm (by omega)
    have whole : n < len → PG_ROUND_DOWN dst + PGSIZE = dst + n := by omega
    have here : ∀ k < n, byteAt mem (dst + k) ≠ none := by
      intro k hk
      have same : PG_ROUND_DOWN (dst + k) = PG_ROUND_DOWN dst := by
        simp only [PG_ROUND_DOWN, PGSIZE] at *
        omega
      rw [byteAt, if_neg, same, hm]
      · exact Option.some_ne_none _
      · simp only [MAXVA, PGSIZE] at *
        omega
    have fuelled : len - n ≤ fuel := by
      have := round_pos hlen dst
      omega
    generalize Function.update mem (PG_ROUND_DOWN dst)
      (some (page.put (dst - PG_ROUND_DOWN dst) n src)) = t at put ⊢
    have rest := @ih t (len - n) (PG_ROUND_DOWN dst + PGSIZE) (fun i => src (i + n)) fuelled
    generalize copyoutLoop fuel t (PG_ROUND_DOWN dst + PGSIZE) (fun i => src (i + n)) (len - n) =
      out at rest ⊢
    have still : ∀ va, byteAt t va = none ↔ byteAt mem va = none := by
      intro va
      rw [put]
      split
      next h =>
        have := here (va - dst) (by omega)
        rw [Nat.add_sub_cancel' h.1] at this
        exact iff_of_false (Option.some_ne_none _) this
      next => exact Iff.rfl
    refine ⟨fun hb k hk => ?_, fun va hva => ?_, fun va => (rest.mapped va).trans (still va),
      fun all => rest.all fun k hk => ?_⟩
    · by_cases hkn : k < n
      · rw [rest.frame _ (by omega), put, if_pos (by omega), Nat.add_sub_cancel_left]
      · have byte := rest.bytes hb (k - n) (by omega)
        rw [whole (by omega), Nat.add_assoc, Nat.add_sub_cancel' (Nat.not_lt.mp hkn)] at byte
        rw [byte, Nat.sub_add_cancel (Nat.not_lt.mp hkn)]
    · rw [rest.frame va (by omega), put, if_neg (by omega)]
    · rw [whole (by omega), Nat.add_assoc, Ne, still]
      exact all (n + k) (by omega)

theorem copyout_copied (mem : UserMem) (dst : ℕ) (src : ℕ → UInt8) (len : ℕ) :
    CopiedOut mem dst len src (copyout mem dst src len).1 (copyout mem dst src len).2 :=
  copyoutLoop_copied (Nat.le_refl len)

theorem copyin_length_le : (copyin mem src len).2.length ≤ len := copyinLoop_length_le

theorem copyin_length (h : (copyin mem src len).1 = true) : (copyin mem src len).2.length = len :=
  copyinLoop_length (Nat.le_refl _) h

end UserMem

end EasyXv6.Mem
