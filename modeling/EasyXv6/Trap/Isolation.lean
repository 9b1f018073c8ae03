import EasyXv6.Trap.Contexts

set_option autoImplicit false

/-!
# Processes do not touch each other

Every step of the hart is one of the steps of the kernel, so that what holds of those holds here. A
process that has not got the hart finds its memory as it has left it.
-/
namespace EasyXv6.Trap
open Lib Rv64 Mem Proc Radix

variable {K : Symbols} {L : Layout} {kernel : Multiset ℕ} {V : Fin NPROC → Context}
  {m m' : Machine} {e : Event} {i j : Fin NPROC} {q : ℕ}

section Step

theorem between_refl (s : Kernel) : Between L kernel i s s :=
  ⟨rfl, rfl, rfl, fun _ => Or.inl rfl, fun _ _ _ _ => rfl⟩

/-- A step of the hart is a step of the kernel on behalf of the process that runs, or a switch. -/
theorem Steady.projects (st : Steady K L kernel V m) (h : Step K L kernel m e m') :
    ∃ l, Proc.Step L kernel m.kernel l m'.kernel ∧
      (m'.kernel.pm = m.kernel.pm ∨ ∀ i, l.actor = some i → i = m.cur) := by
  have stay : ∀ s, (m.kernel.proc m.cur).state = .running → Between L kernel m.cur m.kernel s →
      ∃ l, Proc.Step L kernel m.kernel l s ∧
        (s.pm = m.kernel.pm ∨ ∀ i, l.actor = some i → i = m.cur) := by
    intro s run b
    exact ⟨.other m.cur, .other (Or.inr (Or.inl run)) b, Or.inr fun _ h => (Option.some.inj h).symm⟩
  cases h with
  | user mode store =>
    have here := (st.inUser mode).1
    exact stay _ here.run (user_serves st.spaces here store).between
  | trap mode enter => exact stay _ (st.inUser mode).1.run (st.trapped mode enter).1.between
  | @ecall h scratch run loc alive =>
    have w : FrameOnly m { (m.setPm (setFrame m.kernel.pm m.tf EPC
        (frameWord m.kernel.pm m.tf EPC + 4))).setLoc .calling with hart := h } :=
      ⟨rfl, rfl, (OnlyPage.refl _ _).setFrame⟩
    exact stay _ run w.between
  | @call _ l s scratch run loc by' step =>
    refine ⟨l, step, Or.inr ?_⟩
    intro i actor
    cases l with
    | fork j ret => exact (Option.some.inj actor).symm.trans by'
    | exit j st => exact absurd by' (by simp [Label.By])
    | wait j a r => exact (Option.some.inj actor).symm.trans by'
    | brk j a r => exact (Option.some.inj actor).symm.trans by'
    | kill p r => cases actor
    | other j => exact absurd by' (by simp [Label.By])
  | exit scratch run why step =>
    exact ⟨_, .exit run step, Or.inr fun _ h => (Option.some.inj h).symm⟩
  | serve scratch run serves => exact stay _ run serves.between
  | @result h v scratch run loc =>
    have w : FrameOnly m { (m.setPm (setFrame m.kernel.pm m.tf A0 v)).setLoc .handled with
        hart := h } := ⟨rfl, rfl, (OnlyPage.refl _ _).setFrame⟩
    exact stay _ run w.between
  | handled scratch run loc known => exact stay _ run (between_refl _)
  | check scratch run loc alive => exact stay _ run (between_refl _)
  | switch scratch ready => exact ⟨_, step_dispatch (Or.inl ready), Or.inl rfl⟩
  | ret mode run loc back => exact stay _ run (st.returned mode run back).1.between

/-- It changes no page of a process that does not run and stays. -/
theorem Steady.pages_kept (st : Steady K L kernel V m) (h : Step K L kernel m e m')
    (away : m.cur ≠ i) (stays : (m'.kernel.proc i).state ≠ .unused)
    (mem : q ∈ slotPages L m.kernel i) : m'.kernel.pm.mem q = m.kernel.pm.mem q := by
  obtain ⟨l, step, same | acts⟩ := st.projects h
  · rw [same]
  · exact st.spaces.pages_kept step (fun actor => away (acts i actor).symm) stays mem

end Step

section Memory

/-- What the process `i` has in `s` it still has in `s'`: the table and its entries, the registers
    in the trapframe, and every byte that user code can reach, with its flags. -/
structure SameMemory (L : Layout) (i : Fin NPROC) (s s' : Kernel) : Prop where
  pgtbl : (s'.proc i).pgtbl = (s.proc i).pgtbl
  frame : frames s' i = frames s i
  entry : ∀ va, pteAt L s'.pm.mem (s.proc i).pgtbl va = pteAt L s.pm.mem (s.proc i).pgtbl va
  content : ∀ va, isUser (pteAt L s.pm.mem (s.proc i).pgtbl va) →
    userView L s'.pm.mem (s.proc i).pgtbl va = userView L s.pm.mem (s.proc i).pgtbl va

theorem SameMemory.refl (s : Kernel) : SameMemory L i s s :=
  ⟨rfl, rfl, fun _ => rfl, fun _ _ => rfl⟩

theorem SameMemory.trans {s s' s'' : Kernel} (h : SameMemory L i s s') (h' : SameMemory L i s' s'') :
    SameMemory L i s s'' where
  pgtbl := h'.pgtbl.trans h.pgtbl
  frame := h'.frame.trans h.frame
  entry va := by
    have again := h'.entry va
    rw [h.pgtbl] at again
    rw [again, h.entry]
  content va user := by
    have again := h'.content va
    rw [h.pgtbl] at again
    rw [again (by rw [h.entry]; exact user), h.content va user]

end Memory

section Boot

variable {taken : List Page} {code : ℕ → UInt8} {memory : ℕ → Page} {pages : List ℕ} {s₀ : Kernel}
  {m₀ : Machine} {tr tr' : List (Event × Machine)}

/-- What user code writes belongs to the process that runs, which may write it, and is no page of
    the kernel, no free one, no page table and no trapframe of anybody. -/
theorem user_confined (hboot : (boot L taken code).run (powerOn memory) = .ok pages s₀)
    (start : Started K s₀ m₀) (run : Along (Step K L pages) m₀ tr) (hm : final m₀ tr = m)
    {x : Context} (step : Step K L pages m (.user x) m') (q : ℕ)
    (changed : m'.kernel.pm.mem q ≠ m.kernel.pm.mem q) :
    (∃ va, PTE2PA (pteAt L m.kernel.pm.mem (m.kernel.proc m.cur).pgtbl va) = q ∧
      allows .user true (pteAt L m.kernel.pm.mem (m.kernel.proc m.cur).pgtbl va) = true) ∧
    q ∈ slotPages L m.kernel m.cur ∧ q ∉ freeOf m.kernel.pm ∧ q ∉ pages ∧
    ∀ j, (m.kernel.proc j).state ≠ .unused →
      q ∉ tableNodes L m.kernel.pm.mem (m.kernel.proc j).pgtbl ∧ q ≠ (m.kernel.proc j).tf ∧
      (j ≠ m.cur → q ∉ slotPages L m.kernel j) := by
  have steady := steady_of_boot hboot start run
  rw [hm] at steady
  have spaces := steady.spaces
  obtain ⟨free, own⟩ := spaces.owned
  cases step with
  | user mode store =>
    have here := (steady.inUser mode).1
    have running := not_unused_of_running here.run
    obtain ⟨hr, -, maps⟩ := mapsFrame_of_spaces spaces running
    rcases store with rfl | ⟨w, v, written⟩
    · exact absurd rfl changed
    rw [here.satp] at written
    obtain ⟨va, allowed, only⟩ := store_user maps.tree hr written
    have page : PTE2PA (pteAt L m.kernel.pm.mem (m.kernel.proc m.cur).pgtbl va) = q := by
      by_contra other
      exact changed (only.mem q (Ne.symm other))
    have user := userPage_of_allows allowed
    rw [page] at user
    have mem := spaces.userPage_mem running user
    obtain ⟨notFree, noNode⟩ := own.user_apart running user
    refine ⟨⟨va, page, allowed⟩, mem, ?_, ?_, ?_⟩
    · rw [freeOf_eq own.list]
      exact notFree
    · exact fun taken => (own.kernel_apart (Multiset.mem_coe.mpr taken)).2 m.cur mem
    · intro j used
      have others : j ≠ m.cur → q ∉ slotPages L m.kernel j := fun hj => own.disjoint hj.symm mem
      refine ⟨noNode j used, ?_, others⟩
      rintro rfl
      by_cases hj : j = m.cur
      · rw [hj] at user
        exact spaces.trapframe_private running user
      · exact others hj (own.tf_mem used)

theorem FrameOnly.entry (w : FrameOnly m m') (spaces : Spaces L kernel m.kernel)
    (used : (m.kernel.proc m.cur).state ≠ .unused) (va : ℕ) :
    pteAt L m'.kernel.pm.mem (m.kernel.proc m.cur).pgtbl va =
      pteAt L m.kernel.pm.mem (m.kernel.proc m.cur).pgtbl va := by
  obtain ⟨-, -, maps⟩ := mapsFrame_of_spaces spaces used
  exact pteAt_of_same fun b hb => w.only.mem b (ne_of_mem_of_not_mem hb maps.out)

theorem allows_codePte (q : ℕ) : allows .user true (codePte q) = true := by
  have write : (codePte q).testBit 2 = _ := testBit_leafPte (by decide) (by decide)
  rw [allows, codePte, isUser_leafPte (by decide), ← codePte, write]
  rfl

/-- A store changes the page that it goes to, if it stores another value. -/
theorem setWordAt_changes (pm : Pmem) (pte : ℕ) :
    ∃ v, (setWordAt pm (PTE2PA pte + 0 % PGSIZE) v).mem (PTE2PA pte) ≠ pm.mem (PTE2PA pte) := by
  have lt : (pm.mem (PTE2PA pte)).num 0 8 < 256 ^ 8 := Bytes.num_lt _ _ _
  refine ⟨BitVec.ofNat 64 ((pm.mem (PTE2PA pte)).num 0 8 + 1), fun same => ?_⟩
  have off : (PTE2PA pte + 0 % PGSIZE) % PGSIZE = 0 := pte2pa_aligned pte
  have word := congrArg (Bytes.num · 0 8) same
  rw [setWordAt, pg_round_down_pte, setPage_mem_self, off, Bytes.num_putNum_self _ _ _ _ (by decide),
    BitVec.toNat_ofNat] at word
  omega

/-- The first process writes to the first word of its memory. -/
theorem user_confined_boot : ∃ pages s₀ m₀ tr m' x q,
    (boot exampleLayout [] fun _ => 0).run (powerOn fun _ => Bytes.zero) = .ok pages s₀ ∧
      Started exampleSymbols s₀ m₀ ∧ Along (Step exampleSymbols exampleLayout pages) m₀ tr ∧
      Step exampleSymbols exampleLayout pages (final m₀ tr) (.user x) m' ∧
      m'.kernel.pm.mem q ≠ (final m₀ tr).kernel.pm.mem q ∧
      q ∈ slotPages exampleLayout (final m₀ tr).kernel (final m₀ tr).cur ∧ q ∉ pages := by
  obtain ⟨pages, s₀, m₀, m₁, m₂, hboot, start, -, step₁, cur, dispatched, step₂, w, user⟩ :=
    user_after_boot (L := exampleLayout) exampleSymbols (fun _ => 0) (fun _ => Bytes.zero) (by decide)
  obtain ⟨-, -, -, tf, r, proc, first⟩ := boot_ok hboot
  have st₁ := (start.steady (boot_spaces hboot)).step step₁
  have st₂ := st₁.step step₂
  have here := (st₂.inUser user).1
  have used := not_unused_of_running here.run
  obtain ⟨hr, -, maps⟩ := mapsFrame_of_spaces st₂.spaces used
  have slot₁ : m₁.kernel.proc m₁.cur = { s₀.proc proczero with state := .running } := by
    rw [dispatched, cur, dispatch_self]
  have used₁ : (m₁.kernel.proc m₁.cur).state ≠ .unused := by
    rw [slot₁]
    simp
  have table₁ : (m₁.kernel.proc m₁.cur).pgtbl = r := by
    rw [slot₁, proc, Function.update_self]
  have table : (m₂.kernel.proc m₂.cur).pgtbl = (m₁.kernel.proc m₁.cur).pgtbl := by
    rw [w.kernel, w.cur]
  obtain ⟨page, code⟩ := first.code 0 (by decide)
  have entry : pteAt exampleLayout m₂.kernel.pm.mem (m₂.kernel.proc m₂.cur).pgtbl 0 = codePte page := by
    rw [table, w.entry st₁.spaces used₁, table₁, dispatched]
    exact code
  obtain ⟨v, changed⟩ := setWordAt_changes m₂.kernel.pm (codePte page)
  have store := mmu_store_user (w := 0) maps.tree hr rfl (Or.inl (by decide))
    (entry.symm ▸ isValid_leafPte _ _) (entry.symm ▸ allows_codePte page) v
  rw [← here.satp] at store
  have step : Step exampleSymbols exampleLayout pages m₂ (.user (contextOf m₂.hart)) _ :=
    .user user (Or.inr ⟨0, v, store⟩)
  have run : Along (Step exampleSymbols exampleLayout pages) m₀ [(.switch proczero, m₁), (.ret, m₂)] :=
    ⟨step₁, step₂, trivial⟩
  have here₀ : PTE2PA (pteAt exampleLayout m₂.kernel.pm.mem (m₂.kernel.proc m₂.cur).pgtbl
      (0 : Word).toNat) = PTE2PA (codePte page) := congrArg PTE2PA entry
  rw [← here₀] at changed
  obtain ⟨-, mem, -, taken, -⟩ := user_confined hboot start run rfl step _ changed
  exact ⟨pages, s₀, m₀, _, _, _, _, hboot, start, run, step, changed, mem, taken⟩

end Boot

end EasyXv6.Trap
