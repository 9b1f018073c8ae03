import EasyXv6.Fs.Block
import EasyXv6.Mem.UserCopy

set_option autoImplicit false

/-!
# Printing a user string (printf.c, sysfunc.c)

`sys_print` gives the string of the user to `printf` as the format, and passes no arguments.
-/
namespace EasyXv6.Sys
open Lib Mem Fs

abbrev PERCENT : UInt8 := '%'.toUInt8

/-- `"0123456789abcdef"[i]` -/
def digitChar (i : ℕ) : UInt8 := UInt8.ofNat (if i < 10 then 48 + i else 87 + i)

/-- The digits that the loop of `printint` puts into `buf`. -/
def printintLoop (base : ℕ) : (fuel : ℕ) → (x : ℕ) → List UInt8
  | 0, _ => []
  | fuel + 1, x =>
    digitChar (x % base) :: if x / base = 0 then [] else printintLoop base fuel (x / base)

def printint (xx : ℤ) (base : ℕ) (sign : Bool) : List UInt8 :=
  if sign = true ∧ xx < 0 then
    '-'.toUInt8 :: (printintLoop base 64 (-xx % 2 ^ 64).toNat).reverse
  else (printintLoop base 64 (xx % 2 ^ 64).toNat).reverse

def printptr (x : ℕ) : List UInt8 :=
  '0'.toUInt8 :: 'x'.toUInt8 :: (List.range 16).map fun i => digitChar (x * 16 ^ i % 2 ^ 64 / 2 ^ 60)

/-- What `va_arg` yields: the arguments that were passed, and after them what the registers and the
    stack hold. An argument of `%s` is the address of a string. -/
structure VaList where
  arg : ℕ → ℕ
  str : ℕ → List UInt8

/-- The characters after `%` that the switch knows. -/
def conversions : List UInt8 := ['d', 'x', 'p', 's', 'c', '%'].map Char.toUInt8

/-- What is printed for `%` and the character `c`, with `k` arguments taken before it. -/
def convert (va : VaList) (k : ℕ) (c : UInt8) : List UInt8 :=
  if c = 'd'.toUInt8 then printint (i32 (va.arg k % 2 ^ 32)) 10 true
  else if c = 'x'.toUInt8 then printint (i32 (va.arg k % 2 ^ 32)) 16 false
  else if c = 'p'.toUInt8 then printptr (va.arg k % 2 ^ 64)
  else if c = 's'.toUInt8 then
    if va.arg k = 0 then "(null)".toList.map Char.toUInt8 else va.str (va.arg k)
  else if c = 'c'.toUInt8 then [UInt8.ofNat (va.arg k)]
  else if c = PERCENT then [PERCENT]
  else [PERCENT, c]

/-- The arguments that a conversion takes. -/
def taken (c : UInt8) : ℕ := if c ∈ conversions ∧ c ≠ PERCENT then 1 else 0

/-- The loop of `printf`: the bytes that it sends with `k` arguments taken. -/
def printfLoop (va : VaList) : (fmt : List UInt8) → (k : ℕ) → List UInt8
  | [], _ => []
  | c :: rest, k =>
    if c ≠ PERCENT then c :: printfLoop va rest k
    else
      match rest with
      | [] => []
      | d :: rest => convert va k d ++ printfLoop va rest (k + taken d)

def printf (va : VaList) (fmt : List UInt8) : List UInt8 := printfLoop va fmt 0

/-- The memory of the process, the kernel memory from `message` on, and what the UART was sent. -/
structure Terminal where
  pm : Pmem
  message : ℕ → UInt8
  sent : List UInt8

/-- `sys_print` of the address `addr`; `size` bytes of kernel memory are at `message`. -/
def sysPrint (size : ℕ) (va : VaList) (pgtbl addr : ℕ) : Comp Terminal ℕ := do
  let bytes ← .zoom (·.pm) (fun pm s => { s with pm := pm }) (uvmCopyinStr pgtbl addr 256)
  .modify fun s => { s with
    message := fun i => if i < bytes.length then bytes.getD i 0 else s.message i }
  .modify fun s => { s with sent := s.sent ++ printf va (cstr s.message size) }
  return 0

/-- Every `%` is followed by a character that is no conversion of `printf`. -/
def NoConversion (str : List UInt8) : Prop :=
  ∀ i, str[i]? = some PERCENT → ∃ c, str[i + 1]? = some c ∧ c ∉ conversions

section Verbatim

variable {va : VaList} {str rest : List UInt8} {c d : UInt8} {k : ℕ}

theorem printfLoop_plain (h : c ≠ PERCENT) :
    printfLoop va (c :: rest) k = c :: printfLoop va rest k := by
  cases rest with
  | nil =>
    change (if c ≠ PERCENT then c :: printfLoop va [] k else []) = _
    rw [if_pos h]
  | cons d rest =>
    change (if c ≠ PERCENT then c :: printfLoop va (d :: rest) k else _) = _
    rw [if_pos h]

theorem printfLoop_convert :
    printfLoop va (PERCENT :: d :: rest) k = convert va k d ++ printfLoop va rest (k + taken d) := by
  rw [printfLoop, if_neg (not_not_intro rfl)]

theorem convert_unknown (h : d ∉ conversions) : convert va k d = [PERCENT, d] := by
  simp only [conversions, List.map_cons, List.map_nil, List.mem_cons, List.not_mem_nil,
    or_false, not_or] at h
  obtain ⟨hd, hx, hp, hs, hc, hpct⟩ := h
  rw [convert, if_neg hd, if_neg hx, if_neg hp, if_neg hs, if_neg hc, if_neg hpct]

theorem noConversion_tail (h : NoConversion (c :: rest)) : NoConversion rest := by
  intro i hi
  exact h (i + 1) hi

theorem noConversion_cons (h : NoConversion rest)
    (head : c = PERCENT → ∃ d, rest[0]? = some d ∧ d ∉ conversions) : NoConversion (c :: rest) := by
  intro i hi
  cases i with
  | zero => exact head (Option.some.inj hi)
  | succ i => exact h i hi

/-- Without conversions the format is sent as it is. -/
theorem printfLoop_eq (h : NoConversion str) (k : ℕ) : printfLoop va str k = str := by
  induction hn : str.length using Nat.strong_induction_on generalizing str k with
  | _ n ih =>
  cases str with
  | nil => rfl
  | cons c rest =>
    by_cases hc : c = PERCENT
    · subst hc
      obtain ⟨d, hd, unknown⟩ := h 0 rfl
      cases rest with
      | nil => cases hd
      | cons e rest =>
        obtain rfl : e = d := Option.some.inj hd
        have tail := ih rest.length (by simp only [← hn, List.length_cons]; omega)
          (noConversion_tail (noConversion_tail h)) (k + taken e) rfl
        rw [printfLoop_convert, convert_unknown unknown, tail]
        rfl
    · have tail := ih rest.length (by simp only [← hn, List.length_cons]; omega) (noConversion_tail h) k rfl
      rw [printfLoop_plain hc, tail]

/-- Registers and stack that hold zeros. -/
def VaList.zero : VaList := ⟨fun _ => 0, fun _ => []⟩

theorem printint_zero : printint (i32 (0 % 2 ^ 32)) 10 true = ['0'.toUInt8] ∧
    printint (i32 (0 % 2 ^ 32)) 16 false = ['0'.toUInt8] := by
  decide

theorem convert_zero (h : d ∈ conversions) (hd : d ≠ PERCENT) :
    ∃ e rest, convert .zero k d = e :: rest ∧ e ≠ PERCENT := by
  simp only [conversions, List.map_cons, List.map_nil, List.mem_cons, List.not_mem_nil,
    or_false] at h
  rcases h with rfl | rfl | rfl | rfl | rfl | rfl
  · rw [convert, if_pos rfl]
    exact ⟨'0'.toUInt8, [], printint_zero.1, by decide⟩
  · rw [convert, if_neg (by decide), if_pos rfl]
    exact ⟨'0'.toUInt8, [], printint_zero.2, by decide⟩
  · exact ⟨'0'.toUInt8, _, rfl, by decide⟩
  · exact ⟨'('.toUInt8, _, rfl, by decide⟩
  · exact ⟨0, [], rfl, by decide⟩
  · exact absurd rfl hd

/-- A `%` that is left out is not made up for later. -/
theorem printfLoop_lacks (n : ℕ) : printfLoop .zero str k ≠ List.replicate (n + 1) PERCENT ++ str := by
  induction hn : str.length using Nat.strong_induction_on generalizing str k n with
  | _ len ih =>
  cases str with
  | nil => exact nofun
  | cons c rest =>
    rw [List.replicate_succ, List.cons_append]
    by_cases hc : c = PERCENT
    · subst hc
      cases rest with
      | nil => exact nofun
      | cons d rest =>
        rw [printfLoop_convert]
        by_cases hd : d = PERCENT
        · subst hd
          intro same
          have tail := (List.cons.inj same).2
          refine ih rest.length (by simp only [← hn, List.length_cons]; omega) (n + 1) rfl (tail.trans ?_)
          rw [List.replicate_succ', List.replicate_succ', List.append_assoc, List.append_assoc]
          rfl
        · by_cases known : d ∈ conversions
          · obtain ⟨e, es, out, he⟩ := convert_zero (k := k) known hd
            rw [out]
            exact fun same => he (List.cons.inj same).1
          · rw [convert_unknown known]
            intro same
            have second := (List.cons.inj same).2
            cases n with
            | zero => exact hd (List.cons.inj second).1
            | succ n => exact hd (List.cons.inj second).1
    · rw [printfLoop_plain hc]
      exact fun same => hc (List.cons.inj same).1

/-- Where a conversion is left the output is not the format. -/
theorem noConversion_of_eq (h : printfLoop .zero str k = str) : NoConversion str := by
  induction hn : str.length using Nat.strong_induction_on generalizing str k with
  | _ n ih =>
  cases str with
  | nil => exact nofun
  | cons c rest =>
    by_cases hc : c = PERCENT
    · subst hc
      cases rest with
      | nil => cases h
      | cons d rest =>
        rw [printfLoop_convert] at h
        by_cases known : d ∈ conversions
        · by_cases hd : d = PERCENT
          · subst hd
            exact absurd (List.cons.inj h).2 (printfLoop_lacks 0)
          · obtain ⟨e, es, out, he⟩ := convert_zero (k := k) known hd
            rw [out] at h
            exact absurd (List.cons.inj h).1 he
        · rw [convert_unknown known] at h
          have tail := ih rest.length (by simp only [← hn, List.length_cons]; omega)
            (List.cons.inj (List.cons.inj h).2).2 rfl
          have hd : d ≠ PERCENT := fun same => known (by rw [same]; decide)
          exact noConversion_cons (noConversion_cons tail fun same => absurd same hd)
            fun _ => ⟨d, rfl, known⟩
    · rw [printfLoop_plain hc] at h
      have tail := ih rest.length (by simp only [← hn, List.length_cons]; omega) (List.cons.inj h).2 rfl
      exact noConversion_cons tail fun same => absurd same hc

end Verbatim

section Call

variable {L : Layout} {s : Terminal} {r addr size : ℕ} {str : List UInt8}

/-- A string that fits is fetched, and printed as a format. -/
theorem sysPrint_run (va : VaList) (t : UserTable L s.pm.mem r) (at' : StringAt L s.pm r addr str)
    (fits : str.length < 256) (room : 256 ≤ size) :
    ∃ s', (sysPrint size va r addr).run s = .ok 0 s' ∧ s'.sent = s.sent ++ printf va str := by
  have fetch : (uvmCopyinStr r addr 256).run s.pm = .ok (str ++ [0]) s.pm :=
    uvmCopyinStrLoop_run t at' fits (le_refl 256)
  have copied : (Comp.zoom (·.pm) (fun pm (s : Terminal) => { s with pm := pm })
      (uvmCopyinStr r addr 256)).run s = .ok (str ++ [0]) s := by
    rw [Comp.run_zoom, fetch]
  unfold sysPrint
  rw [Comp.run_bind_of_ok copied]
  refine ⟨_, rfl, ?_⟩
  dsimp only
  rw [cstr_eq (l := str) (by omega) _ at'.nonzero]
  · rw [if_pos (by simp)]
    simp
  · intro i hi
    rw [if_pos (by rw [List.length_append]; omega)]
    rw [List.getD_eq_getElem?_getD, List.getElem?_append_left hi, List.getElem?_eq_getElem hi,
      Option.getD_some]

/-- A string is printed verbatim, whatever the registers and the stack hold, exactly when no `%` in
    it begins a conversion. -/
theorem print_verbatim_iff (t : UserTable L s.pm.mem r) (at' : StringAt L s.pm r addr str)
    (fits : str.length < 256) (room : 256 ≤ size) :
    (∀ va, ∃ s', (sysPrint size va r addr).run s = .ok 0 s' ∧ s'.sent = s.sent ++ str) ↔
      NoConversion str := by
  constructor
  · intro h
    obtain ⟨s', run, sent⟩ := h .zero
    obtain ⟨s'', run', sent'⟩ := sysPrint_run .zero t at' fits room
    rw [run] at run'
    cases run'
    rw [sent] at sent'
    exact noConversion_of_eq (List.append_cancel_left sent').symm
  · intro h va
    obtain ⟨s', run, sent⟩ := sysPrint_run va t at' fits room
    refine ⟨s', run, ?_⟩
    rw [sent, printf, printfLoop_eq h]

end Call

section Example

/-- A page that begins with the string. -/
def stringPage (str : List UInt8) : Page := Bytes.zero.put 0 str.length fun j => str.getD j 0

theorem stringPage_at (str : List UInt8) (short : str.length < 256) (nonzero : str.all (· != 0) = true) :
    ∃ pm, UserTable exampleLayout pm.mem 0x87ffd000 ∧
      StringAt exampleLayout pm 0x87ffd000 0x1000 str := by
  obtain ⟨pm, table, users, byte⟩ := onePage_of (stringPage str)
  refine ⟨pm, table, ⟨?_, ?_, fun c hc => bne_iff_ne.mp (List.all_eq_true.mp nonzero c hc), ?_⟩⟩
  · intro v hv
    rw [mem_pagesOf] at hv
    rw [users]
    simp only [PGSIZE] at hv
    omega
  · intro k hk
    rw [byte _ (by simp only [PGSIZE]; omega), stringPage, Bytes.byte_put _ _ _ _ _ (by
      simp only [PGSIZE]; omega), if_pos (by simp only [PGSIZE]; omega)]
    have same : (0x1000 + k) % PGSIZE - 0 = k := by
      simp only [PGSIZE]
      omega
    rw [same, List.getD_eq_getElem?_getD, List.getElem?_eq_getElem hk, Option.getD_some]
  · rw [byte _ (by simp only [PGSIZE]; omega), stringPage, Bytes.byte_put _ _ _ _ _ (by
      simp only [PGSIZE]; omega), if_neg (by simp only [PGSIZE]; omega), Bytes.byte_zero]

/-- A string with a `%` before a blank is printed verbatim. -/
theorem print_verbatim_iff_blank : ∃ pm, StringAt exampleLayout pm 0x87ffd000 0x1000
      ("5% ok".toList.map Char.toUInt8) ∧
    ∀ va, ∃ s', (sysPrint 256 va 0x87ffd000 0x1000).run ⟨pm, fun _ => 0, []⟩ = .ok 0 s' ∧
      s'.sent = [] ++ "5% ok".toList.map Char.toUInt8 := by
  obtain ⟨pm, table, at'⟩ := stringPage_at ("5% ok".toList.map Char.toUInt8) (by decide)
    (by decide)
  refine ⟨pm, at', (print_verbatim_iff (s := ⟨pm, fun _ => 0, []⟩) table at' (by decide)
    (le_refl 256)).mpr ?_⟩
  refine noConversion_cons (noConversion_cons (noConversion_cons (noConversion_cons
    (noConversion_cons nofun ?_) ?_) ?_) fun _ => ⟨' '.toUInt8, rfl, by decide⟩) ?_ <;>
      exact fun same => absurd same (by decide)

/-- Of `%%` only one character is printed. -/
theorem print_not_verbatim : ∃ pm, UserTable exampleLayout pm.mem 0x87ffd000 ∧
    StringAt exampleLayout pm 0x87ffd000 0x1000 [PERCENT, PERCENT] ∧
      ∀ va, ∃ s', (sysPrint 256 va 0x87ffd000 0x1000).run ⟨pm, fun _ => 0, []⟩ = .ok 0 s' ∧
        s'.sent = [PERCENT] := by
  obtain ⟨pm, table, at'⟩ := stringPage_at [PERCENT, PERCENT] (by decide) (by decide)
  refine ⟨pm, table, at', fun va => ?_⟩
  obtain ⟨s', run, sent⟩ := sysPrint_run va (s := ⟨pm, fun _ => 0, []⟩) table at'
    (by decide) (le_refl 256)
  exact ⟨s', run, sent⟩

end Example

end EasyXv6.Sys
