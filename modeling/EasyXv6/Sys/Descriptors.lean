import EasyXv6.Sys.OpenFiles
import EasyXv6.Lib.Trace

set_option autoImplicit false

/-!
# The reference counts of open files are exact
-/
namespace EasyXv6.Sys
open Lib Mem Proc Fs

section Calls

variable {p : Fin NPROC} {s : System} {x : Fin NFILE → ℤ} {α : Type}

theorem argFd_sat {E : String → System → Prop} (fd : ℤ) : Comp.Sat (argFd p fd) s E fun o t =>
    t = s ∧ ∀ i f, o = some (i, f) → (s.kernel.proc p).ofile i = some f := by
  unfold argFd
  refine .get ?_
  split
  next hfd =>
    refine .pure ⟨rfl, ?_⟩
    intro i f hf
    obtain ⟨g, hg, he⟩ := Option.map_eq_some_iff.mp hf
    cases he
    exact hg
  next => exact .pure ⟨rfl, fun _ _ h => by cases h⟩

theorem withPath_sat {ptr : ℕ} {body : List UInt8 → Comp System ℤ} (h : During p x s)
    (hbody : ∀ path t, During p x t → Comp.Sat (body path) t anyHalt fun _ u => During p x u) :
    Comp.Sat (withPath ptr body) s anyHalt fun _ t => During p x t := by
  unfold withPath argPath
  refine .bind (.gets (.pure ?_))
  split
  next => exact .pure h
  next path _ =>
    refine .call (h.vol _) fun _ t ht => ?_
    refine .call (hbody path t ht.1) fun r u hu => ?_
    exact .call (hu.vol _) fun _ v hv => .pure hv.1

theorem openBody_sat {omode : BitVec 32} {path : List UInt8} (h : During p x s) :
    Comp.Sat (openBody p omode path) s anyHalt fun _ t => During p x t := by
  unfold openBody
  refine .call (h.vol _) fun o s₁ h₁ => ?_
  cases o with
  | none => exact .pure h₁.1
  | some ip =>
    refine .call h₁.1.allocFile fun o s₂ h₂ => ?_
    cases o with
    | none => exact .call (h₂.2.vol _) fun _ _ h₃ => .pure h₃.1
    | some f =>
      refine .call h₂.2.fdalloc fun o s₃ h₃ => ?_
      cases o with
      | none =>
        -- the file is closed again
        refine .call h₃.2.fileClose fun _ s₄ h₄ => ?_
        have h₄' := h₄.2
        rw [bump_cancel x f rfl] at h₄'
        exact .call (h₄'.vol _) fun _ _ h₅ => .pure h₅.1
      | some fd =>
        have h₃' := h₃.2
        rw [bump_cancel x f rfl] at h₃'
        refine .gets (.call (h₃'.sameRefs ?_) fun _ s₄ h₄ => ?_)
        · refine modFile_sameRefs fun y => ?_
          unfold opened
          split <;> rfl
        · exact .call (h₄.vol _) fun _ _ h₅ => .pure h₅.1

theorem sysClose_sat {fd : ℤ} (h : During p x s) :
    Comp.Sat (sysClose p fd) s anyHalt fun _ t => During p x t := by
  unfold sysClose
  refine .call (argFd_sat fd) ?_
  rintro o _ ⟨rfl, ho⟩
  match o, ho with
  | none, _ => exact .pure h
  | some (i, f), ho =>
    refine .call (h.fd h.busy i (ho i f rfl)) ?_
    rintro _ s₁ ⟨h₁, -, -⟩
    refine .call (f := fun _ => pure 0) h₁.fileClose fun _ s₂ h₂ => .pure ?_
    convert h₂.2 using 1
    funext g
    rw [bump_apply]
    simp only [reduceCtorEq, if_false, sub_zero, Option.some.injEq]
    split <;> omega

theorem sysDup_sat {fd : ℤ} (h : During p x s) :
    Comp.Sat (sysDup p fd) s anyHalt fun _ t => During p x t := by
  unfold sysDup
  refine .call (argFd_sat fd) ?_
  rintro o _ ⟨rfl, -⟩
  match o with
  | none => exact .pure h
  | some (_, f) =>
    refine .call h.fdalloc fun o s₁ h₁ => ?_
    match o, h₁ with
    | none, h₁ => exact .pure h₁.2
    | some fd, h₁ =>
      refine .call (f := fun _ => pure (fd.val : ℤ)) h₁.2.fileDup fun _ s₂ h₂ => .pure ?_
      have h₂' := h₂.2
      rwa [bump_cancel x f rfl] at h₂'

theorem sysFstat_sat {fd : ℤ} {addr : ℕ} (h : During p x s) :
    Comp.Sat (sysFstat p fd addr) s anyHalt fun _ t => During p x t := by
  unfold sysFstat
  refine .call (argFd_sat fd) ?_
  rintro o _ ⟨rfl, -⟩
  match o with
  | none => exact .pure h
  | some (_, f) =>
    refine .get (.ite (fun _ => .pure h) fun _ => ?_)
    refine .call (h.sameRefs inodeOf_sameRefs) fun ip s₁ h₁ => ?_
    refine .call (h₁.vol _) fun _ s₂ h₂ => .gets ?_
    refine .call (h₂.1.vol _) fun _ s₃ h₃ => ?_
    exact .call (h₃.1.vol _) fun _ s₄ h₄ => .pure h₄.1

theorem call_sat {c : Call} (h : During p x s) :
    Comp.Sat (c.comp p) s anyHalt fun _ t => During p x t := by
  have onVol : ∀ m : Comp Vol ℤ, ∀ t, During p x t →
      Comp.Sat (onVol m) t anyHalt fun _ u => During p x u :=
    fun m t ht => (ht.vol m).post fun _ _ hu => hu.1
  cases c with
  | «open» ptr omode => exact withPath_sat h fun _ _ ht => openBody_sat ht
  | close fd => exact sysClose_sat h
  | read fd addr n =>
    refine .call (argFd_sat fd) ?_
    rintro o _ ⟨rfl, -⟩
    match o with
    | none => exact .pure h
    | some (_, f) => exact h.sameRefs (fileRead_sameRefs addr n)
  | write fd addr n =>
    refine .call (argFd_sat fd) ?_
    rintro o _ ⟨rfl, -⟩
    match o with
    | none => exact .pure h
    | some (_, f) => exact h.sameRefs (fileWrite_sameRefs addr n)
  | mkdir ptr => exact withPath_sat h fun _ t ht => onVol _ t ht
  | unlink ptr => exact withPath_sat h fun _ t ht => onVol _ t ht
  | link old new =>
    unfold Call.comp sysLink
    refine .bind (.gets (.pure ?_))
    split
    next => exact .pure h
    next => exact withPath_sat h fun _ t ht => onVol _ t ht
  | fstat fd addr => exact sysFstat_sat h
  | dup fd => exact sysDup_sat h

end Calls

section Processes

variable {L : Layout} {p np : Fin NPROC} {s : System} {k k' : Kernel} {x : Fin NFILE → ℤ}

/-- The descriptors of the slots are the same, and a slot without a process had none before. -/
structure SameFds (k k' : Kernel) : Prop where
  ofile : ∀ i, (k'.proc i).ofile = (k.proc i).ofile
  gone : ∀ i, Gone (k'.proc i) → Gone (k.proc i)

theorem SameFds.refl (k : Kernel) : SameFds k k := ⟨fun _ => rfl, fun _ h => h⟩

theorem SameFds.trans {k'' : Kernel} (h : SameFds k k') (h' : SameFds k' k'') : SameFds k k'' :=
  ⟨fun i => (h'.ofile i).trans (h.ofile i), fun i hi => h.gone i (h'.gone i hi)⟩

theorem SameFds.of_proc (h : k'.proc = k.proc) : SameFds k k' :=
  ⟨fun i => by rw [h], fun i hi => by rwa [h] at hi⟩

theorem SameFds.update {i : Fin NPROC} {q : ProcT} (h : k'.proc = Function.update k.proc i q)
    (ofile : q.ofile = (k.proc i).ofile) (gone : Gone q → Gone (k.proc i)) : SameFds k k' := by
  refine ⟨?_, ?_⟩
  · intro j
    rw [h]
    by_cases hj : j = i
    · subst hj
      rw [Function.update_self, ofile]
    · rw [Function.update_of_ne hj]
  · intro j hj
    rw [h] at hj
    by_cases hji : j = i
    · subst hji
      rw [Function.update_self] at hj
      exact gone hj
    · rwa [Function.update_of_ne hji] at hj

theorem onMem_proc {α : Type} {m : Comp Pmem α} {a : α} (h : (onMem m).run k = .ok a k') :
    k'.proc = k.proc := by
  obtain ⟨_, -, rfl⟩ := onMem_ok h
  rfl

theorem procFree_proc {c : Fin NPROC} (h : (procFree L c).run k = .ok () k') :
    k'.proc = Function.update k.proc c (k.proc c).freed := by
  unfold procFree at h
  rw [Comp.bind_gets_run] at h
  obtain ⟨_, k₁, h₁, h⟩ := (Comp.bind_ok_iff _ _ _ _ _).mp h
  obtain ⟨_, k₂, h₂, h⟩ := (Comp.bind_ok_iff _ _ _ _ _).mp h
  cases h
  change Function.update k₂.proc c (k₂.proc c).freed = _
  rw [onMem_proc h₂, onMem_proc h₁]

/-- `proc_alloc` takes a slot that is UNUSED, and leaves the descriptors alone. -/
theorem procAlloc_fds {o : Option (Fin NPROC)} (h : (procAlloc L).run k = .ok o k') :
    SameFds k k' ∧ ∀ c, o = some c → Gone (k.proc c) ∧ ¬ Gone (k'.proc c) := by
  unfold procAlloc at h
  rw [Comp.bind_get_run] at h
  split at h
  next =>
    cases h
    exact ⟨.refl k, fun _ h => by cases h⟩
  next c hc =>
  have unused : Gone (k.proc c) := Or.inl (by simpa using List.find?_some hc)
  rw [Comp.run_bind_of_ok (show allocpid.run k = .ok k.nextpid _ from rfl), setProc,
    Comp.bind_modify_run] at h
  obtain ⟨tf, k₁, h₁, h⟩ := (Comp.bind_ok_iff _ _ _ _ _).mp h
  have proc₁ := onMem_proc h₁
  rw [setProc, Comp.bind_modify_run] at h
  -- the slot as the memory is found for it
  have at₁ : ∀ q, Function.update k₁.proc c q = Function.update k.proc c q := by
    intro q
    rw [proc₁]
    exact Function.update_idem ..
  have self₁ : k₁.proc c = (k.proc c).found k.nextpid := by
    rw [proc₁]
    exact Function.update_self ..
  split at h
  next =>
    obtain ⟨_, k₂, h₂, h⟩ := (Comp.bind_ok_iff _ _ _ _ _).mp h
    cases h
    refine ⟨.update (i := c) (q := ({ (k.proc c).found k.nextpid with tf := tf } : ProcT).freed) ?_ rfl
      fun _ => unused, fun _ h => by cases h⟩
    rw [procFree_proc h₂]
    change Function.update (Function.update k₁.proc c { k₁.proc c with tf := tf }) c
      (Function.update k₁.proc c { k₁.proc c with tf := tf } c).freed = _
    rw [Function.update_idem, Function.update_self, at₁, self₁]
  next =>
    obtain ⟨r, k₂, h₂, h⟩ := (Comp.bind_ok_iff _ _ _ _ _).mp h
    have proc₂ := onMem_proc h₂
    rw [setProc, Comp.bind_modify_run] at h
    let q : ProcT := { (k.proc c).found k.nextpid with tf := tf, pgtbl := r }
    have at₂ : Function.update k₂.proc c { k₂.proc c with pgtbl := r } =
        Function.update k.proc c q := by
      rw [proc₂]
      change Function.update (Function.update k₁.proc c { k₁.proc c with tf := tf }) c
        { (Function.update k₁.proc c { k₁.proc c with tf := tf } c) with pgtbl := r } = _
      rw [Function.update_idem, Function.update_self, at₁, self₁]
    split at h
    next =>
      obtain ⟨_, k₃, h₃, h⟩ := (Comp.bind_ok_iff _ _ _ _ _).mp h
      cases h
      refine ⟨.update (i := c) (q := q.freed) ?_ rfl fun _ => unused, fun _ h => by cases h⟩
      rw [procFree_proc h₃]
      change Function.update (Function.update k₂.proc c { k₂.proc c with pgtbl := r }) c
        (Function.update k₂.proc c { k₂.proc c with pgtbl := r } c).freed = _
      rw [at₂, Function.update_idem, Function.update_self]
    next =>
      cases h
      have live : ¬ Gone q := by
        rintro (g | g) <;> cases g
      refine ⟨.update (i := c) (q := q) at₂ rfl fun g => absurd g live, ?_⟩
      rintro _ ⟨⟩
      refine ⟨unused, ?_⟩
      change ¬ Gone (Function.update k₂.proc c { k₂.proc c with pgtbl := r } c)
      rw [at₂, Function.update_self]
      exact live

theorem procWait_fds {addr : ℕ} {o : Option ℤ}
    (h : (Proc.procWait L p addr).run k = .ok o k') : SameFds k k' := by
  unfold Proc.procWait at h
  rw [Comp.bind_get_run] at h
  split at h
  next c hc =>
    obtain ⟨_, k₁, h₁, h⟩ := (Comp.bind_ok_iff _ _ _ _ _).mp h
    obtain ⟨_, k₂, h₂, h⟩ := (Comp.bind_ok_iff _ _ _ _ _).mp h
    cases h
    have proc₁ := onMem_proc h₁
    refine .update (i := c) (q := (k.proc c).freed) ?_ rfl fun _ =>
      Or.inr (firstZombie_spec hc).2
    rw [procFree_proc h₂, proc₁]
  next =>
    rw [Comp.run_ite] at h
    split at h
    · cases h
      exact .refl k
    · rw [setProc, Comp.bind_modify_run, Comp.run_pure, Outcome.ok.injEq] at h
      obtain ⟨-, rfl⟩ := h
      refine .update (i := p) rfl rfl ?_
      rintro (g | g) <;> cases g

theorem procExit_fds {st : ℤ} (h : (Proc.procExit p st).run k = .ok () k')
    (closed : ∀ fd, (k.proc p).ofile fd = none) :
    (∀ i, (k'.proc i).ofile = (k.proc i).ofile) ∧ ∀ i, i ≠ p → Gone (k'.proc i) → Gone (k.proc i) := by
  obtain ⟨-, parent, rfl⟩ := procExit_run h
  have none : (k.proc p).ofile = fun _ => none := funext closed
  have woken := woken_exiting k.proc p parent
  refine ⟨?_, ?_⟩
  · intro i
    dsimp only [exited]
    by_cases hi : i = p
    · subst hi
      have same := (woken i).same
      rw [Function.update_self] at same ⊢
      generalize exiting k.proc i parent i = q at same ⊢
      rw [same, none]
    · have same := (woken i).same
      rw [Function.update_of_ne hi] at same ⊢
      generalize exiting k.proc p parent i = q at same ⊢
      rw [same]
  · intro i hi
    dsimp only [exited]
    have state := (woken i).state
    rw [Function.update_of_ne hi] at state ⊢
    generalize exiting k.proc p parent i = q at state ⊢
    rintro (g | g)
    · rcases state with e | ⟨-, e⟩
      · exact Or.inl (e.symm.trans g)
      · exact absurd (e.symm.trans g) (by decide)
    · rcases state with e | ⟨-, e⟩
      · exact Or.inr (e.symm.trans g)
      · exact absurd (e.symm.trans g) (by decide)

theorem onMem_sat {α : Type} (m : Comp Pmem α) (k : Kernel) :
    Comp.Sat (onMem m) k (fun _ _ => True) fun _ k' => k'.proc = k.proc := by
  refine Comp.Sat.zoom (F := fun _ _ => True) (P := fun _ _ => True) ?_ (fun _ _ _ => trivial)
    fun _ _ _ => rfl
  unfold Comp.Sat
  split <;> trivial

theorem During.kernel {α : Type} {m : Comp Kernel α} {P : α → Kernel → Prop} (h : During p x s)
    (hm : Comp.Sat m s.kernel (fun _ _ => True) fun a k' => SameFds s.kernel k' ∧ P a k') :
    Comp.Sat (onKernel m) s anyHalt fun a t =>
      During p x t ∧ SameFds s.kernel t.kernel ∧ P a t.kernel := by
  refine Comp.Sat.zoom hm (fun _ _ _ => trivial) ?_
  rintro a k' ⟨same, hP⟩
  refine ⟨⟨fun f => ?_, ?_, fun g => h.busy (same.gone p g)⟩, same, hP⟩
  · rw [holders_congr same.ofile]
    exact h.refs f
  · intro i g fd
    change (k'.proc i).ofile fd = none
    rw [same.ofile]
    exact h.closed i (same.gone i g) fd

/-- The descriptors of a child from `fd` on are still closed. -/
theorem forkFd_sat {fd : ℕ} (h : During p x s) (hnp : ¬ Gone (s.kernel.proc np))
    (closed : ∀ d : Fin NOFILE, fd ≤ d.val → (s.kernel.proc np).ofile d = none) :
    Comp.Sat (forkFd p np fd) s anyHalt fun _ t => During p x t ∧ ¬ Gone (t.kernel.proc np) ∧
      ∀ d : Fin NOFILE, fd + 1 ≤ d.val → (t.kernel.proc np).ofile d = none := by
  have later : ∀ d : Fin NOFILE, fd + 1 ≤ d.val → (s.kernel.proc np).ofile d = none :=
    fun d hd => closed d (by omega)
  unfold forkFd
  refine .get ?_
  split
  next hfd =>
    split
    next f hf =>
      refine .call h.fileDup fun _ s₁ h₁ => ?_
      have old : (s₁.kernel.proc np).ofile ⟨fd, hfd⟩ = none := by
        rw [h₁.1]
        exact closed _ (Nat.le_refl _)
      refine (h₁.2.fd (h₁.1 ▸ hnp) ⟨fd, hfd⟩ old).post ?_
      rintro _ t ⟨ht, -, proc⟩
      refine ⟨?_, ?_, ?_⟩
      · convert ht using 1
        funext g
        rw [bump_apply]
        simp only [reduceCtorEq, if_false, add_zero, Option.some.injEq]
        omega
      · rw [proc, Function.update_self, h₁.1]
        exact hnp
      · intro d hd
        have ne : d ≠ ⟨fd, hfd⟩ := by
          rintro rfl
          exact absurd hd (by simp)
        rw [proc, Function.update_self, withFd]
        dsimp only
        rw [Function.update_of_ne ne, h₁.1]
        exact later d hd
    next => exact .pure ⟨h, hnp, later⟩
  next => exact .pure ⟨h, hnp, later⟩

theorem procFork_sat (h : During p x s) :
    Comp.Sat (procFork L p) s anyHalt fun _ t => During p x t := by
  have alloc : Comp.Sat (procAlloc L) s.kernel (fun _ _ => True) fun o k' => SameFds s.kernel k' ∧
      ∀ c, o = some c → Gone (s.kernel.proc c) ∧ ¬ Gone (k'.proc c) := by
    unfold Comp.Sat
    cases hr : (procAlloc L).run s.kernel with
    | ok o k' => exact procAlloc_fds hr
    | halt w k' => trivial
  unfold procFork
  refine .call (h.kernel alloc) ?_
  rintro o s₁ ⟨h₁, same₁, fresh⟩
  match o, fresh with
  | none, _ => exact .pure h₁
  | some np, fresh =>
    obtain ⟨unused, live⟩ := fresh np rfl
    refine .gets (.gets (.call (h₁.kernel (P := fun _ _ => True) ?_) ?_))
    · -- the memory of the child
      refine .call (onMem_sat _ _) fun _ k₁ e₁ => ?_
      refine .modify (.call (onMem_sat _ _) fun _ k₂ e₂ => ?_)
      refine (onMem_sat _ _).post fun _ k₃ e₃ => ⟨?_, trivial⟩
      refine (SameFds.of_proc e₁).trans (SameFds.trans ?_ (.of_proc (e₃.trans e₂)))
      exact .update (i := np) rfl rfl id
    rintro _ s₂ ⟨h₂, same₂, -⟩
    have closed : ∀ d : Fin NOFILE, 0 ≤ d.val → (s₂.kernel.proc np).ofile d = none := by
      intro d _
      rw [same₂.ofile, same₁.ofile]
      exact h.closed np unused d
    refine .call (Comp.Sat.forUpTo (I := fun k t => During p x t ∧ ¬ Gone (t.kernel.proc np) ∧
      ∀ d : Fin NOFILE, k ≤ d.val → (t.kernel.proc np).ofile d = none)
      ⟨h₂, fun g => live (same₂.gone np g), closed⟩ ?_) ?_
    · rintro k - t ⟨ht, hnp, hclosed⟩
      exact forkFd_sat ht hnp hclosed
    rintro _ s₃ ⟨h₃, hnp, -⟩
    refine .call (f := fun _ => pure _) (h₃.kernel (P := fun _ _ => True) (.modify ?_))
      fun _ s₄ h₄ => .pure h₄.1
    have child : SameFds s₃.kernel (s₃.kernel.setProc np { s₃.kernel.proc np with
        parent := some p, priority := (s₁.kernel.proc p).priority
        priorityBoost := (s₁.kernel.proc p).priorityBoost }) :=
      .update (i := np) rfl rfl id
    refine .of_run rfl ⟨child.trans (.update (i := np) rfl rfl ?_), trivial⟩
    rintro (g | g) <;> cases g

/-- The descriptors of the process before `fd` are closed. -/
theorem exitFd_sat {fd : ℕ} (h : During p x s)
    (closed : ∀ d : Fin NOFILE, d.val < fd → (s.kernel.proc p).ofile d = none) :
    Comp.Sat (exitFd p fd) s anyHalt fun _ t => During p x t ∧
      ∀ d : Fin NOFILE, d.val < fd + 1 → (t.kernel.proc p).ofile d = none := by
  unfold exitFd
  refine .get ?_
  split
  next hfd =>
    split
    next f hf =>
      refine .call h.fileClose fun _ s₁ h₁ => ?_
      have old : (s₁.kernel.proc p).ofile ⟨fd, hfd⟩ = some f := by rw [h₁.1, hf]
      refine (h₁.2.fd h₁.2.busy ⟨fd, hfd⟩ old).post ?_
      rintro _ t ⟨ht, -, proc⟩
      refine ⟨?_, ?_⟩
      · convert ht using 1
        funext g
        rw [bump_apply]
        simp only [reduceCtorEq, if_false, sub_zero, Option.some.injEq]
        split <;> omega
      · intro d hd
        rw [proc, Function.update_self, withFd]
        dsimp only
        by_cases e : d = ⟨fd, hfd⟩
        · rw [e, Function.update_self]
        · rw [Function.update_of_ne e, h₁.1]
          exact closed d (Nat.lt_of_le_of_ne (Nat.le_of_lt_succ hd) fun v => e (Fin.ext v))
    next hnone =>
      refine .pure ⟨h, fun d hd => ?_⟩
      by_cases e : d = ⟨fd, hfd⟩
      · rw [e, hnone]
      · exact closed d (Nat.lt_of_le_of_ne (Nat.le_of_lt_succ hd) fun v => e (Fin.ext v))
  next hfd => exact .pure ⟨h, fun d _ => closed d (Nat.lt_of_lt_of_le d.isLt (Nat.le_of_not_lt hfd))⟩

end Processes

/-- Between calls: every reference is a descriptor. -/
structure RefsExact (s : System) : Prop where
  refs : ∀ f, (s.files.file f).ref = holders s.kernel.proc f
  closed : Closed s.kernel.proc

section Runs

variable {L : Layout} {s s' : System} {p : Fin NPROC} {e : Event}

theorem NoFiles.exact (h : NoFiles s) : RefsExact s where
  refs := fun f => by
    rw [h.file, show holders s.kernel.proc f = 0 from Finset.sum_eq_zero fun i _ =>
      Finset.sum_eq_zero fun fd _ => if_neg (by rw [h.ofile]; simp)]
    rfl
  closed := fun i _ fd => h.ofile i fd

theorem RefsExact.during (h : RefsExact s) (run : (s.kernel.proc p).state = .running) :
    During p (fun _ => 0) s :=
  ⟨fun f => (h.refs f).trans (add_zero _).symm, h.closed, not_gone_of_running run⟩

theorem During.exact (h : During p (fun _ => 0) s) : RefsExact s :=
  ⟨fun f => (h.refs f).trans (add_zero _), h.closed⟩

theorem RefsExact.of_same (h : RefsExact s) (files : s'.files = s.files)
    (ofile : ∀ i, (s'.kernel.proc i).ofile = (s.kernel.proc i).ofile)
    (closed : Closed s'.kernel.proc) : RefsExact s' :=
  ⟨fun f => by rw [files, holders_congr ofile]; exact h.refs f, closed⟩

theorem RefsExact.step (h : RefsExact s) (st : Step L s e s') : RefsExact s' := by
  cases st with
  | @call _ p mem c ret run hr =>
    have start := h.during run
    exact ((call_sat (s := s.withUser mem) ⟨start.refs, start.closed, start.busy⟩).ok hr).exact
  | fork run hr => exact ((procFork_sat (h.during run)).ok hr).exact
  | @exit _ p st run hr =>
    unfold procExit at hr
    rw [Comp.run_ite] at hr
    split at hr
    · cases hr
    next hp =>
    obtain ⟨_, t, hloop, hexit⟩ := (Comp.bind_ok_iff _ _ _ _ _).mp hr
    have loop : Comp.Sat (.forUpTo NOFILE (exitFd p)) s anyHalt fun _ t =>
        During p (fun _ => 0) t ∧ ∀ d : Fin NOFILE, d.val < NOFILE →
          (t.kernel.proc p).ofile d = none :=
      .forUpTo (fun k t => During p (fun _ => 0) t ∧ ∀ d : Fin NOFILE, d.val < k →
        (t.kernel.proc p).ofile d = none) ⟨h.during run, fun d hd => absurd hd (Nat.not_lt_zero _)⟩
        fun k _ t ht => exitFd_sat ht.1 ht.2
    obtain ⟨ht, closed⟩ := loop.ok hloop
    obtain ⟨k', hk, rfl⟩ := (Comp.zoom_ok_iff _ _ _ _ _ _).mp hexit
    obtain ⟨ofile, gone⟩ := procExit_fds hk fun fd => closed fd fd.isLt
    refine ht.exact.of_same rfl ofile fun i hi fd => ?_
    change (k'.proc i).ofile fd = none
    rw [ofile]
    by_cases hip : i = p
    · subst hip
      exact closed fd fd.isLt
    · exact ht.closed i (gone i hip hi) fd
  | wait run hr =>
    obtain ⟨k', hk, rfl⟩ := (Comp.zoom_ok_iff _ _ _ _ _ _).mp hr
    have same := procWait_fds hk
    refine h.of_same rfl same.ofile fun i hi fd => ?_
    change (k'.proc i).ofile fd = none
    rw [same.ofile]
    exact h.closed i (same.gone i hi) fd
  | other same =>
    refine h.of_same same.files same.ofile fun i hi fd => ?_
    rw [same.ofile]
    exact h.closed i ((same.gone i).mp hi) fd

theorem RefsExact.run {tr : List (Event × System)} (h : RefsExact s) (hr : Along (Step L) s tr) :
    RefsExact (final s tr) :=
  Along.invariant (fun _ _ _ => RefsExact.step) hr h

/-- In every state of every run each open file has as many references as descriptors, the slots
    without a process have none, and `alloc_file` finds no file that has a descriptor. -/
theorem open_file_refs_exact {tr : List (Event × System)} (start : NoFiles s)
    (hr : Along (Step L) s tr) :
    (∀ f, ((final s tr).files.file f).ref = holders (final s tr).kernel.proc f) ∧
      (∀ i, ((final s tr).kernel.proc i).state = .unused ∨
        ((final s tr).kernel.proc i).state = .zombie →
          ∀ fd, ((final s tr).kernel.proc i).ofile fd = none) ∧
      ∀ (vol : Vol) (f : Fin NFILE) (t : Files),
        Files.allocFile.run { (final s tr).files with vol := vol } = .ok (some f) t →
          ∀ i fd, ((final s tr).kernel.proc i).ofile fd ≠ some f := by
  have exact' := start.exact.run hr
  refine ⟨exact'.refs, exact'.closed, ?_⟩
  intro vol f t hf
  apply holders_eq_zero
  have unused : ((final s tr).files.file f).ref = 0 := by
    unfold Files.allocFile at hf
    rw [Comp.bind_get_run] at hf
    split at hf
    next g hg =>
      cases hf
      simpa using List.find?_some hg
    next => cases hf
  have := exact'.refs f
  omega

theorem open_file_refs_exact_example : ∃ s, Along (Step exampleLayout) exampleSystem
      [(.call proczero (stringMem [SLASH]) (.open 0 Vol.O_RDONLY) 0, s)] ∧
    ∀ f, (s.files.file f).ref = holders s.kernel.proc f := by
  have run : Along (Step exampleLayout) exampleSystem
      [(.call proczero (stringMem [SLASH]) (.open 0 Vol.O_RDONLY) 0, _)] :=
    ⟨.call rfl (Outcome.eq_ok exampleSystem_open), trivial⟩
  exact ⟨_, run, (open_file_refs_exact exampleSystem_started.noFiles run).1⟩

end Runs

end EasyXv6.Sys
