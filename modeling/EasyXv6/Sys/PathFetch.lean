import EasyXv6.Mem.UserCopy
import EasyXv6.Sys.Run

set_option autoImplicit false

/-!
# Where a path argument is found

The calls that take a path copy 128 bytes from its address, whatever the length of the path.
-/
namespace EasyXv6.Sys
open Lib Mem Proc Fs

variable {L : Layout} {pm : Pmem} {r ptr : ℕ} {path : List UInt8} {s : System}

theorem argPath_run (ptr : ℕ) (s : System) : (argPath ptr).run s =
    .ok (if (s.files.vol.user.copyin ptr 128).1 then
      some (cstr (nameOf (s.files.vol.user.copyin ptr 128).2) 127) else none) s := rfl

theorem nameOf_of_lt {bytes : List UInt8} {k : ℕ} (h : k < bytes.length) :
    nameOf bytes k = bytes[k] := by
  rw [nameOf, List.getD_eq_getElem?_getD, List.getElem?_eq_getElem h, Option.getD_some]

/-- A path whose 128 bytes are there is found. -/
theorem argPath_of_fetched (t : UserTable L pm.mem r) (user : s.files.vol.user = userMem L pm.mem r)
    (str : StringAt L pm r ptr path) (short : path.length ≤ 127)
    (ok : (s.files.vol.user.copyin ptr 128).1 = true) :
    (argPath ptr).run s = .ok (some path) s := by
  rw [argPath_run, if_pos ok]
  rw [user] at ok ⊢
  have fetched := t.fetched ptr 128
  have whole := fetched.whole ok
  have byte : ∀ k < 128, nameOf ((userMem L pm.mem r).copyin ptr 128).2 k =
      userByte L pm.mem r (ptr + k) := by
    intro k hk
    have h := Nat.lt_of_lt_of_eq hk whole.symm
    rw [nameOf_of_lt h]
    exact (fetched.byte k h).2
  have name : cstr (nameOf ((userMem L pm.mem r).copyin ptr 128).2) 127 = path := by
    by_cases less : path.length < 127
    · exact cstr_eq less (fun k hk => (byte k (by omega)).trans (str.byte k hk)) str.nonzero
        ((byte _ (by omega)).trans str.nul)
    · rw [cstr_eq_take (Nat.not_lt.mp less)
        (fun k hk => (byte k (by omega)).trans (str.byte k (by omega))) str.nonzero]
      exact List.take_of_length_le short
  rw [name]

/-- A path of at most 127 bytes in user memory is fetched, as `uvm_copyin_str` would fetch it, exactly
    when all pages of the 128 bytes from its address on are mapped for user mode. -/
theorem path_fetched_iff (t : UserTable L pm.mem r) (user : s.files.vol.user = userMem L pm.mem r)
    (str : StringAt L pm r ptr path) (short : path.length ≤ 127) :
    (argPath ptr).run s = .ok (some path) s ∧
        (uvmCopyinStr r ptr 128).run pm = .ok (path ++ [0]) pm ↔
      ∀ v ∈ pagesOf ptr 128, UserMapped pm r v := by
  have string : (uvmCopyinStr r ptr 128).run pm = .ok (path ++ [0]) pm :=
    uvmCopyinStrLoop_run t str (Nat.lt_succ_of_le short) (Nat.le_refl 128)
  rw [and_iff_left string, ← (t.fetched ptr 128).returns, ← user]
  constructor
  · intro found
    by_contra fails
    rw [argPath_run, if_neg fails] at found
    cases found
  · exact argPath_of_fetched t user str short

section Example

/-- The page 1 is mapped and holds the path `/` at its start and at its end. -/
theorem onePage_root : ∃ pm, UserTable exampleLayout pm.mem 0x87ffd000 ∧
    (∀ v, UserMapped pm 0x87ffd000 v ↔ v = 1) ∧
      ∀ ptr, ptr = 0x1000 ∨ ptr = 0x1ffe → StringAt exampleLayout pm 0x87ffd000 ptr [SLASH] := by
  obtain ⟨pm, table, users, byte⟩ := onePage
  refine ⟨pm, table, users, fun ptr hptr => ⟨?_, ?_, ?_, ?_⟩⟩
  · intro v hv
    rw [mem_pagesOf] at hv
    rw [users]
    simp only [List.length_cons, List.length_nil, PGSIZE] at hv
    omega
  · intro k hk
    have hk0 : k = 0 := Nat.lt_one_iff.mp hk
    subst hk0
    rw [byte _ (by simp only [PGSIZE]; omega), if_pos (by omega)]
    rfl
  · intro c hc
    rw [List.mem_singleton.mp hc]
    decide
  · rw [List.length_singleton, byte _ (by simp only [PGSIZE]; omega), if_neg (by omega)]

/-- At the start of the page the path is fetched. -/
theorem path_fetched_iff_start : ∃ s pm, StringAt exampleLayout pm 0x87ffd000 0x1000 [SLASH] ∧
    (argPath 0x1000).run s = .ok (some [SLASH]) s := by
  obtain ⟨pm, table, users, str⟩ := onePage_root
  let s := exampleSystem.withUser (userMem exampleLayout pm.mem 0x87ffd000)
  have found := (path_fetched_iff (s := s) table rfl (str 0x1000 (Or.inl rfl)) (by decide)).mpr (by
      intro v hv
      rw [mem_pagesOf] at hv
      rw [users]
      simp only [PGSIZE] at hv
      omega)
  exact ⟨_, pm, str 0x1000 (Or.inl rfl), found.1⟩

/-- At its end the path is not fetched, though `uvm_copyin_str` delivers it, and the call fails. -/
theorem path_at_end_not_fetched : ∃ s pm, UserTable exampleLayout pm.mem 0x87ffd000 ∧
    s.files.vol.user = userMem exampleLayout pm.mem 0x87ffd000 ∧
      StringAt exampleLayout pm 0x87ffd000 0x1ffe [SLASH] ∧
      (uvmCopyinStr 0x87ffd000 0x1ffe 128).run pm = .ok ([SLASH] ++ [0]) pm ∧
      (argPath 0x1ffe).run s = .ok none s ∧
      (sysOpen proczero 0x1ffe Vol.O_RDONLY).run s = .ok (-1) s := by
  obtain ⟨pm, table, users, str⟩ := onePage_root
  have user : (exampleSystem.withUser (userMem exampleLayout pm.mem 0x87ffd000)).files.vol.user =
      userMem exampleLayout pm.mem 0x87ffd000 := rfl
  have fails : ¬ ((userMem exampleLayout pm.mem 0x87ffd000).copyin 0x1ffe 128).1 = true := by
    intro ok
    have two := (users 2).mp ((table.fetched 0x1ffe 128).returns.mp ok 2
      (mem_pagesOf.mpr (by decide)))
    cases two
  have noPath : (argPath 0x1ffe).run
      (exampleSystem.withUser (userMem exampleLayout pm.mem 0x87ffd000)) =
        .ok none (exampleSystem.withUser (userMem exampleLayout pm.mem 0x87ffd000)) := by
    rw [argPath_run, user, if_neg fails]
  refine ⟨_, pm, table, user, str 0x1ffe (Or.inr rfl), ?_, noPath, ?_⟩
  · exact uvmCopyinStrLoop_run table (str 0x1ffe (Or.inr rfl)) (by decide) (Nat.le_refl 128)
  · rw [sysOpen, withPath, Comp.run_bind_of_ok noPath]
    rfl

end Example

end EasyXv6.Sys
