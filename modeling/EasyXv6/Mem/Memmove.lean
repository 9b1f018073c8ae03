import EasyXv6.Lib.Bytes
import EasyXv6.Lib.Comp

set_option autoImplicit false

/-!
# Moving bytes (str.c)

The memory is all of the address space; pointers are 64-bit words and a count is one of 32 bits.
-/
namespace EasyXv6.Mem
open Lib

abbrev Ram := BitVec 64 → UInt8

/-- `while(n-- > 0) *d++ = *s++` -/
def copyUp : ℕ → BitVec 64 → BitVec 64 → Ram → Ram
  | 0, _, _, m => m
  | n + 1, d, s, m => copyUp n (d + 1) (s + 1) (Function.update m d (m s))

/-- `while(n-- > 0) *--d = *--s` -/
def copyDown : ℕ → BitVec 64 → BitVec 64 → Ram → Ram
  | 0, _, _, m => m
  | n + 1, d, s, m => copyDown n (d - 1) (s - 1) (Function.update m (d - 1) (m (s - 1)))

def memmove (dst src : BitVec 64) (n : BitVec 32) : Comp Ram (BitVec 64) := do
  if n = 0 then
    return dst
  else if src < dst ∧ dst < src + n.setWidth 64 then
    .modify (copyDown n.toNat (dst + n.setWidth 64) (src + n.setWidth 64))
    return dst
  else
    .modify (copyUp n.toNat dst src)
    return dst

/-- The address `k` bytes after `p`. -/
def ptrAdd (p : BitVec 64) (k : ℕ) : BitVec 64 := p + BitVec.ofNat 64 k

section Address

variable {p : BitVec 64} {j k n : ℕ}

theorem ptrAdd_zero (p : BitVec 64) : ptrAdd p 0 = p := by simp [ptrAdd]

theorem ptrAdd_succ (p : BitVec 64) (k : ℕ) : ptrAdd (p + 1) k = ptrAdd p (k + 1) := by
  unfold ptrAdd
  rw [BitVec.add_assoc, BitVec.ofNat_add, BitVec.add_comm (BitVec.ofNat 64 k)]
  rfl

theorem ptrAdd_pred (p : BitVec 64) (k : ℕ) : ptrAdd p (k + 1) - 1 = ptrAdd p k := by
  unfold ptrAdd
  rw [BitVec.ofNat_add, ← BitVec.add_assoc]
  exact BitVec.add_sub_cancel _ _

theorem ptrAdd_toNat (h : p.toNat + k < 2 ^ 64) : (ptrAdd p k).toNat = p.toNat + k := by
  unfold ptrAdd
  rw [BitVec.toNat_add, BitVec.toNat_ofNat]
  omega

/-- Addresses in a region that does not wrap around are apart. -/
theorem ptrAdd_ne (room : p.toNat + n ≤ 2 ^ 64) (hj : j < n) (hk : k < n) (h : j ≠ k) :
    ptrAdd p j ≠ ptrAdd p k := by
  intro same
  have same' := congrArg BitVec.toNat same
  rw [ptrAdd_toNat (by omega), ptrAdd_toNat (by omega)] at same'
  omega

end Address

section Copy

variable {d s : BitVec 64} {n k : ℕ}

/-- A byte that the loop does not store to. -/
theorem copyUp_other {a : BitVec 64} (m : Ram) (h : ∀ k < n, a ≠ ptrAdd d k) :
    copyUp n d s m a = m a := by
  induction n generalizing d s m with
  | zero => rfl
  | succ n ih =>
    have head : a ≠ d := by
      have := h 0 (Nat.succ_pos n)
      rwa [ptrAdd_zero] at this
    rw [copyUp, ih, Function.update_of_ne head]
    intro k hk
    rw [ptrAdd_succ]
    exact h (k + 1) (Nat.succ_lt_succ hk)

theorem copyDown_other {a : BitVec 64} (m : Ram) (h : ∀ k < n, a ≠ ptrAdd d k) :
    copyDown n (ptrAdd d n) (ptrAdd s n) m a = m a := by
  induction n generalizing m with
  | zero => rfl
  | succ n ih =>
    have last : a ≠ ptrAdd d n := h n (Nat.lt_succ_self n)
    rw [copyDown, ptrAdd_pred, ptrAdd_pred, ih, Function.update_of_ne last]
    exact fun k hk => h k (Nat.lt_succ_of_lt hk)

/-- From the first byte to the last: what is still to be read has not been stored to, since the
    destination begins before the source or after its end. -/
theorem copyUp_byte (m : Ram) (hs : s.toNat + n ≤ 2 ^ 64) (hd : d.toNat + n ≤ 2 ^ 64)
    (clear : d.toNat ≤ s.toNat ∨ s.toNat + n ≤ d.toNat) (hk : k < n) :
    copyUp n d s m (ptrAdd d k) = m (ptrAdd s k) := by
  induction n generalizing d s m k with
  | zero => cases hk
  | succ n ih =>
    rw [copyUp]
    cases k with
    | zero =>
      rw [ptrAdd_zero, ptrAdd_zero, copyUp_other, Function.update_self]
      intro k hk
      rw [ptrAdd_succ]
      have := ptrAdd_ne hd (Nat.succ_pos n) (Nat.succ_lt_succ hk) (Nat.succ_ne_zero k).symm
      rwa [ptrAdd_zero] at this
    | succ k =>
      have hk' : k < n := Nat.lt_of_succ_lt_succ hk
      have hs1 : (s + 1).toNat = s.toNat + 1 := ptrAdd_toNat (k := 1) (by omega)
      have hd1 : (d + 1).toNat = d.toNat + 1 := ptrAdd_toNat (k := 1) (by omega)
      rw [← ptrAdd_succ, ih _ (by omega) (by omega) (by omega) hk', ptrAdd_succ, Function.update_of_ne]
      -- the byte is read after the store to `d`
      intro same
      have same' := congrArg BitVec.toNat same
      rw [ptrAdd_toNat (by omega)] at same'
      omega

/-- From the last byte to the first, with the destination after the source. -/
theorem copyDown_byte (m : Ram) (hs : s.toNat + n ≤ 2 ^ 64) (hd : d.toNat + n ≤ 2 ^ 64)
    (clear : s.toNat ≤ d.toNat) (hk : k < n) :
    copyDown n (ptrAdd d n) (ptrAdd s n) m (ptrAdd d k) = m (ptrAdd s k) := by
  induction n generalizing m k with
  | zero => cases hk
  | succ n ih =>
    rw [copyDown, ptrAdd_pred, ptrAdd_pred]
    by_cases last : k = n
    · rw [last, copyDown_other, Function.update_self]
      exact fun j hj => ptrAdd_ne hd (Nat.lt_succ_self n) (Nat.lt_succ_of_lt hj) (Nat.ne_of_gt hj)
    · have hk' : k < n := by omega
      rw [ih _ (by omega) (by omega) hk', Function.update_of_ne]
      -- the byte is read after the store to the last one
      intro same
      have same' := congrArg BitVec.toNat same
      rw [ptrAdd_toNat (by omega), ptrAdd_toNat (by omega)] at same'
      omega

end Copy

section Move

variable {dst src b : BitVec 64} {n : BitVec 32} {m m' : Ram} {len size off : ℕ}

/-- Outside of the region that begins at `p`. -/
def Outside (p : BitVec 64) (len : ℕ) (a : BitVec 64) : Prop :=
  a.toNat < p.toNat ∨ p.toNat + len ≤ a.toNat

theorem Outside.ne {p a : BitVec 64} {k : ℕ} (h : Outside p len a) (room : p.toNat + len ≤ 2 ^ 64)
    (hk : k < len) : a ≠ ptrAdd p k := by
  rintro rfl
  have value : (ptrAdd p k).toNat = p.toNat + k := ptrAdd_toNat (by omega)
  unfold Outside at h
  omega

/-- The bytes of the source are at the destination, the others are as they were. -/
structure Moved (m : Ram) (dst src : BitVec 64) (len : ℕ) (m' : Ram) : Prop where
  copied : ∀ k < len, m' (ptrAdd dst k) = m (ptrAdd src k)
  others : ∀ a, Outside dst len a → m' a = m a

theorem end_eq (p : BitVec 64) (n : BitVec 32) : p + n.setWidth 64 = ptrAdd p n.toNat := by
  unfold ptrAdd
  rw [← BitVec.ofNat_toNat]

theorem memmove_run (m : Ram) (hs : src.toNat + n.toNat ≤ 2 ^ 64)
    (hd : dst.toNat + n.toNat ≤ 2 ^ 64) :
    ∃ m', (memmove dst src n).run m = .ok dst m' ∧ Moved m dst src n.toNat m' := by
  unfold memmove
  by_cases zero : n = 0
  · rw [if_pos zero]
    refine ⟨m, rfl, fun k hk => ?_, fun _ _ => rfl⟩
    rw [zero] at hk
    cases hk
  rw [if_neg zero, end_eq, end_eq]
  by_cases down : src < dst ∧ dst < ptrAdd src n.toNat
  · rw [if_pos down]
    refine ⟨_, rfl, fun k hk => copyDown_byte m hs hd (Nat.le_of_lt down.1) hk, fun a ha => ?_⟩
    exact copyDown_other m fun k hk => ha.ne hd hk
  · rw [if_neg down]
    have clear : dst.toNat ≤ src.toNat ∨ src.toNat + n.toNat ≤ dst.toNat := by
      by_contra both
      -- where the source begins first, its end does not wrap around
      have value : (ptrAdd src n.toNat).toNat = src.toNat + n.toNat := ptrAdd_toNat (by omega)
      refine down ⟨BitVec.lt_def.mpr (by omega), BitVec.lt_def.mpr ?_⟩
      rw [value]
      omega
    refine ⟨_, rfl, fun k hk => copyUp_byte m hs hd clear hk, fun a ha => ?_⟩
    exact copyUp_other m fun k hk => ha.ne hd hk

/-- However the two regions overlap, the bytes of the source arrive, and no other byte changes. -/
theorem memmove_exact (m : Ram) (dst src : BitVec 64) (n : BitVec 32)
    (hs : src.toNat + n.toNat ≤ 2 ^ 64) (hd : dst.toNat + n.toNat ≤ 2 ^ 64) :
    ∃ m', (memmove dst src n).run m = .ok dst m' ∧
      (∀ k < n.toNat, m' (ptrAdd dst k) = m (ptrAdd src k)) ∧
        ∀ a, a.toNat < dst.toNat ∨ dst.toNat + n.toNat ≤ a.toNat → m' a = m a := by
  obtain ⟨m', run, moved⟩ := memmove_run m hs hd
  exact ⟨m', run, moved.copied, moved.others⟩

/-- Three bytes move up by one, so that two of them are stored to before they would be read from
    the other side. -/
theorem memmove_exact_up : ∃ m', (memmove 2 1 3).run (fun a => a.toNat.toUInt8) = .ok 2 m' ∧
    (∀ k < 3, m' (ptrAdd 2 k) = (ptrAdd 1 k).toNat.toUInt8) ∧
      ∀ a : BitVec 64, a.toNat < 2 ∨ 2 + 3 ≤ a.toNat → m' a = a.toNat.toUInt8 :=
  memmove_exact (fun a => a.toNat.toUInt8) 2 1 3 (by decide) (by decide)

/-- The bytes of an object at `b`. -/
def bytesAt (m : Ram) (b : BitVec 64) (size : ℕ) : Bytes size := fun i => m (ptrAdd b i.val)

/-- `memmove` into an object, as the copies of blocks and pages are modelled. -/
theorem Moved.bytesAt (h : Moved m (ptrAdd b off) src len m') (room : b.toNat + size ≤ 2 ^ 64)
    (fits : off + len ≤ size) :
    bytesAt m' b size = (Mem.bytesAt m b size).put off len fun k => m (ptrAdd src k) := by
  funext ⟨i, hi⟩
  unfold Mem.bytesAt Bytes.put
  dsimp only
  by_cases inside : off ≤ i ∧ i < off + len
  · rw [if_pos inside, ← h.copied (i - off) (by omega)]
    unfold ptrAdd
    rw [BitVec.add_assoc, ← BitVec.ofNat_add, Nat.add_sub_of_le inside.1]
  · rw [if_neg inside]
    refine h.others _ ?_
    unfold Outside
    rw [ptrAdd_toNat (by omega)]
    by_cases empty : len = 0
    · rw [empty]
      exact Nat.lt_or_ge _ _
    · rw [ptrAdd_toNat (by omega)]
      omega

/-- A `memmove` into one object leaves the objects apart from it alone. -/
theorem Moved.bytesAt_other {c : BitVec 64} (h : Moved m dst src len m') (room : c.toNat + size ≤ 2 ^ 64)
    (apart : c.toNat + size ≤ dst.toNat ∨ dst.toNat + len ≤ c.toNat) :
    Mem.bytesAt m' c size = Mem.bytesAt m c size := by
  funext ⟨i, hi⟩
  refine h.others _ ?_
  unfold Outside
  rw [ptrAdd_toNat (by omega)]
  omega

theorem memmove_into (m : Ram) (hs : src.toNat + n.toNat ≤ 2 ^ 64) (room : b.toNat + size ≤ 2 ^ 64)
    (fits : off + n.toNat ≤ size) (start : off < size) :
    ∃ m', (memmove (ptrAdd b off) src n).run m = .ok (ptrAdd b off) m' ∧
      bytesAt m' b size = (bytesAt m b size).put off n.toNat fun k => m (ptrAdd src k) := by
  have value : (ptrAdd b off).toNat = b.toNat + off := ptrAdd_toNat (by omega)
  have room' : (ptrAdd b off).toNat + n.toNat ≤ 2 ^ 64 := by omega
  obtain ⟨m', run, moved⟩ := memmove_run m hs room'
  exact ⟨m', run, moved.bytesAt room fits⟩

end Move

end EasyXv6.Mem
