import EasyXv6.Dev.Virtio

set_option autoImplicit false

/-!
# The descriptors of the disk requests

Which calls have descriptors, and what taking and giving them back does.
-/
namespace EasyXv6.Dev
open Lib

variable {P β : Type}

/-- The descriptors of the calls are distinct, and the others are free. -/
structure Slots (held : P → Option (Chain β)) (free : Fin NUM → Bool) (desc : Fin NUM → Desc β) :
    Prop where
  distinct : ∀ p c, held p = some c → c.descs.Nodup
  apart : ∀ p q c c', p ≠ q → held p = some c → held q = some c' → ∀ i ∈ c.descs, i ∉ c'.descs
  free_iff : ∀ i, free i = true ↔ ∀ p c, held p = some c → i ∉ c.descs
  zero : ∀ i, free i = true → desc i = .zero

variable {d d' : Disk β} {held : P → Option (Chain β)} {c : Chain β} {p : P}

theorem allocDesc_run (d : Disk β) : (allocDesc.run d = .ok none d ∧ ∀ i, d.free i = false) ∨
    ∃ i, d.free i = true ∧
      allocDesc.run d = .ok (some i) { d with free := Function.update d.free i false } := by
  cases found : (List.finRange NUM).find? d.free with
  | none =>
    left
    refine ⟨?_, fun i => ?_⟩
    · rw [allocDesc, Comp.bind_get_run, found]
      rfl
    · rw [List.find?_eq_none] at found
      exact Bool.eq_false_iff.mpr (found i (List.mem_finRange i))
  | some i =>
    right
    refine ⟨i, List.find?_some found, ?_⟩
    rw [allocDesc, Comp.bind_get_run, found]
    rfl

/-- A descriptor that was free is so again. -/
theorem freeDesc_run {i : Fin NUM} (hfree : d.free i = false) : (freeDesc i).run d =
    .ok () { d with desc := Function.update d.desc i .zero
                    free := Function.update d.free i true } := by
  rw [freeDesc, Comp.bind_get_run, if_neg (by rw [hfree]; decide)]
  rfl

/-- The disk with its descriptors free or not. -/
def Disk.setFree (d : Disk β) (free : Fin NUM → Bool) : Disk β := { d with free := free }

/-- A descriptor that is zero is not changed when it is given back. -/
theorem freeDesc_zero {i : Fin NUM} (hfree : d.free i = false) (hzero : d.desc i = .zero) :
    (freeDesc i).run d = .ok () (d.setFree (Function.update d.free i true)) := by
  have desc : Function.update d.desc i .zero = d.desc := by
    rw [← hzero, Function.update_eq_self]
  rw [freeDesc_run hfree, desc]
  rfl

theorem update_restore {f : Fin NUM → Bool} {i : Fin NUM} (h : f i = true) :
    Function.update (Function.update f i false) i true = f := by
  rw [Function.update_idem, ← h, Function.update_eq_self]

/-- `alloc3_desc` takes three descriptors or changes nothing. -/
theorem alloc3Desc_run (hzero : ∀ i, d.free i = true → d.desc i = .zero) :
    alloc3Desc.run d = .ok none d ∨ ∃ i j k free,
      alloc3Desc.run d = .ok (some (i, j, k)) (d.setFree free) ∧ [i, j, k].Nodup ∧
      (∀ x ∈ [i, j, k], d.free x = true) ∧
      ∀ x, free x = true ↔ d.free x = true ∧ x ∉ [i, j, k] := by
  generalize hrun : alloc3Desc.run d = out
  unfold alloc3Desc at hrun
  rcases allocDesc_run d with ⟨run, -⟩ | ⟨i, hi, run⟩ <;> rw [Comp.run_bind_of_ok run] at hrun
  · exact Or.inl hrun.symm
  change (_ : Comp (Disk β) _).run (d.setFree (Function.update d.free i false)) = _ at hrun
  dsimp only at hrun
  rcases allocDesc_run (d.setFree (Function.update d.free i false)) with
    ⟨run, -⟩ | ⟨j, hj, run⟩ <;> rw [Comp.run_bind_of_ok run] at hrun
  · left
    have given : (freeDesc i).run (d.setFree (Function.update d.free i false)) =
        .ok () (d.setFree (Function.update (Function.update d.free i false) i true)) :=
      freeDesc_zero (Function.update_self ..) (hzero i hi)
    dsimp only at hrun
    rw [Comp.run_bind_of_ok given, update_restore hi] at hrun
    exact hrun.symm
  have hji : j ≠ i := by
    rintro rfl
    cases hj.symm.trans (Function.update_self ..)
  have hjd : d.free j = true := (Function.update_of_ne hji _ _).symm.trans hj
  change (_ : Comp (Disk β) _).run (d.setFree (Function.update (Function.update d.free i false) j
    false)) = _ at hrun
  dsimp only at hrun
  rcases allocDesc_run (d.setFree (Function.update (Function.update d.free i false) j false)) with
    ⟨run, -⟩ | ⟨k, hk, run⟩ <;> rw [Comp.run_bind_of_ok run] at hrun
  · left
    have first : (freeDesc i).run (d.setFree (Function.update (Function.update d.free i false) j
        false)) = .ok () (d.setFree (Function.update (Function.update (Function.update d.free i
          false) j false) i true)) :=
      freeDesc_zero ((Function.update_of_ne hji.symm _ _).trans (Function.update_self ..)) (hzero i hi)
    have second : (freeDesc j).run (d.setFree (Function.update (Function.update (Function.update
        d.free i false) j false) i true)) = .ok () (d.setFree (Function.update (Function.update
          (Function.update (Function.update d.free i false) j false) i true) j true)) :=
      freeDesc_zero ((Function.update_of_ne hji _ _).trans (Function.update_self ..)) (hzero j hjd)
    have restored : Function.update (Function.update (Function.update (Function.update d.free i
        false) j false) i true) j true = d.free := by
      rw [Function.update_comm hji, update_restore hi, update_restore hjd]
    dsimp only at hrun
    rw [Comp.run_bind_of_ok first, Comp.run_bind_of_ok second, restored] at hrun
    exact hrun.symm
  · right
    have hkj : k ≠ j := by
      rintro rfl
      cases hk.symm.trans (Function.update_self ..)
    have hk' := (Function.update_of_ne hkj _ _).symm.trans hk
    have hki : k ≠ i := by
      rintro rfl
      cases hk'.symm.trans (Function.update_self ..)
    have hkd : d.free k = true := (Function.update_of_ne hki _ _).symm.trans hk'
    refine ⟨i, j, k, _, hrun.symm, ?_, ?_, ?_⟩
    · rw [List.nodup_cons, List.nodup_cons, List.mem_cons, List.mem_singleton, List.mem_singleton]
      exact ⟨by rintro (h | h); exact hji h.symm; exact hki h.symm, hkj.symm, List.nodup_singleton k⟩
    · intro x hx
      rw [List.mem_cons, List.mem_cons, List.mem_singleton] at hx
      rcases hx with rfl | rfl | rfl <;> assumption
    · intro x
      dsimp only [Disk.setFree]
      simp only [Function.update_apply, List.mem_cons, List.not_mem_nil, or_false]
      split_ifs <;> simp_all

/-- The descriptors of a published call. -/
structure Linked (desc : Fin NUM → Desc β) (c : Chain β) : Prop where
  first : desc c.idx0 = ⟨.ops c.idx0, 16, true, false, c.idx1⟩
  second : desc c.idx1 = ⟨.data c.b, 1024, true, !c.write, c.idx2⟩
  third : desc c.idx2 = ⟨.status c.idx0, 1, false, true, 0⟩

/-- The disk after the descriptors of the call have been given back. -/
def Disk.give (d : Disk β) (c : Chain β) : Disk β :=
  { d with desc := fun i => if i ∈ c.descs then .zero else d.desc i
           free := fun i => if i ∈ c.descs then true else d.free i }

/-- `free_chain` gives back the three descriptors. -/
theorem freeChain_run (hc : Linked d.desc c) (distinct : c.descs.Nodup)
    (taken : ∀ i ∈ c.descs, d.free i = false) :
    (freeChain c.idx0).run d = .ok () (d.give c) := by
  have mem0 : c.idx0 ∈ c.descs := List.mem_cons_self
  have mem1 : c.idx1 ∈ c.descs := List.mem_cons_of_mem _ List.mem_cons_self
  have mem2 : c.idx2 ∈ c.descs := List.mem_cons_of_mem _ (List.mem_cons_of_mem _ List.mem_cons_self)
  obtain ⟨ne01, ne02, ne12⟩ : c.idx0 ≠ c.idx1 ∧ c.idx0 ≠ c.idx2 ∧ c.idx1 ≠ c.idx2 := by
    simpa [Chain.descs, and_assoc] using distinct
  have round : ∀ {fuel : ℕ} {i : Fin NUM} {d : Disk β} {e : Desc β}, d.free i = false →
      d.desc i = e → (freeChainLoop (fuel + 1) i).run d =
        (if e.flagNext then freeChainLoop fuel e.next else pure ()).run
          { d with desc := Function.update d.desc i .zero, free := Function.update d.free i true } := by
    intro fuel i d e taken he
    subst he
    rw [freeChainLoop, Comp.bind_get_run, Comp.run_bind_of_ok (freeDesc_run taken)]
  rw [freeChain, round (taken _ mem0) hc.first, if_pos rfl,
    round ((Function.update_of_ne ne01.symm _ _).trans (taken _ mem1))
      ((Function.update_of_ne ne01.symm _ _).trans hc.second), if_pos rfl,
    round ((Function.update_of_ne ne12.symm _ _).trans ((Function.update_of_ne ne02.symm _ _).trans
      (taken _ mem2))) ((Function.update_of_ne ne12.symm _ _).trans
        ((Function.update_of_ne ne02.symm _ _).trans hc.third)), if_neg Bool.false_ne_true, Comp.run_pure]
  have three : ∀ {α : Type} (f : Fin NUM → α) (x : α), Function.update (Function.update
      (Function.update f c.idx0 x) c.idx1 x) c.idx2 x = fun i => if i ∈ c.descs then x else f i := by
    intro α f x
    funext i
    simp only [Function.update_apply, Chain.descs, List.mem_cons, List.not_mem_nil, or_false]
    split_ifs <;> tauto
  dsimp only
  rw [three, three]
  rfl

theorem Linked.congr {desc desc' : Fin NUM → Desc β} (h : Linked desc c)
    (same : ∀ i ∈ c.descs, desc' i = desc i) : Linked desc' c where
  first := (same _ List.mem_cons_self).trans h.first
  second := (same _ (List.mem_cons_of_mem _ List.mem_cons_self)).trans h.second
  third := (same _ (List.mem_cons_of_mem _ (List.mem_cons_of_mem _ List.mem_cons_self))).trans h.third

variable [DecidableEq P]

/-- A call takes three free descriptors. -/
theorem Slots.take {held : P → Option (Chain β)} {free free' : Fin NUM → Bool}
    {desc : Fin NUM → Desc β} (h : Slots held free desc) (hp : held p = none)
    (nodup : c.descs.Nodup) (hfree : ∀ i ∈ c.descs, free i = true)
    (hfree' : ∀ i, free' i = true ↔ free i = true ∧ i ∉ c.descs) :
    Slots (Function.update held p (some c)) free' desc := by
  have cases : ∀ {q c'}, Function.update held p (some c) q = some c' →
      q = p ∧ c' = c ∨ q ≠ p ∧ held q = some c' := by
    intro q c' hq
    by_cases same : q = p
    · rw [same, Function.update_self, Option.some.injEq] at hq
      exact Or.inl ⟨same, hq.symm⟩
    · rw [Function.update_of_ne same] at hq
      exact Or.inr ⟨same, hq⟩
  have fresh : ∀ {q c'}, held q = some c' → ∀ i ∈ c'.descs, i ∉ c.descs := by
    intro q c' hq i hi hc
    exact (h.free_iff i).mp (hfree i hc) q c' hq hi
  refine ⟨?_, ?_, ?_, fun i hi => h.zero i ((hfree' i).mp hi).1⟩
  · intro q c' hq
    rcases cases hq with ⟨-, rfl⟩ | ⟨-, hq⟩
    · exact nodup
    · exact h.distinct q c' hq
  · intro q r c' c'' ne hq hr i hi hi'
    rcases cases hq with ⟨hqp, rfl⟩ | ⟨-, oldq⟩ <;> rcases cases hr with ⟨hrp, rfl⟩ | ⟨-, oldr⟩
    · exact ne (hqp.trans hrp.symm)
    · exact fresh oldr i hi' hi
    · exact fresh oldq i hi hi'
    · exact h.apart q r c' c'' ne oldq oldr i hi hi'
  · intro i
    rw [hfree', h.free_iff]
    constructor
    · rintro ⟨old, new⟩ q c' hq
      rcases cases hq with ⟨-, rfl⟩ | ⟨-, hq⟩
      · exact new
      · exact old q c' hq
    · intro all
      refine ⟨fun q c' hq => all q c' ?_, all p c (Function.update_self ..)⟩
      have ne : q ≠ p := by
        rintro rfl
        cases hp.symm.trans hq
      rw [Function.update_of_ne ne, hq]

/-- A call gives its descriptors back. -/
theorem Slots.give {held : P → Option (Chain β)} {free : Fin NUM → Bool} {desc : Fin NUM → Desc β}
    (h : Slots held free desc) (hp : held p = some c) :
    Slots (Function.update held p none) (fun i => if i ∈ c.descs then true else free i)
      (fun i => if i ∈ c.descs then .zero else desc i) := by
  have cases : ∀ {q c'}, Function.update held p none q = some c' → q ≠ p ∧ held q = some c' := by
    intro q c' hq
    by_cases same : q = p
    · rw [same, Function.update_self] at hq
      cases hq
    · rw [Function.update_of_ne same] at hq
      exact ⟨same, hq⟩
  refine ⟨fun q c' hq => h.distinct q c' (cases hq).2, ?_, ?_, ?_⟩
  · intro q r c' c'' ne hq hr
    exact h.apart q r c' c'' ne (cases hq).2 (cases hr).2
  · intro i
    by_cases hi : i ∈ c.descs
    · rw [if_pos hi]
      refine iff_of_true rfl fun q c' hq hi' => ?_
      exact h.apart p q c c' (cases hq).1.symm hp (cases hq).2 i hi hi'
    · rw [if_neg hi, h.free_iff]
      constructor
      · exact fun all q c' hq => all q c' (cases hq).2
      · intro all q c' hq
        by_cases same : q = p
        · rw [same, hp, Option.some.injEq] at hq
          exact hq ▸ hi
        · exact all q c' ((Function.update_of_ne same _ _).trans hq)
  · intro i hi
    by_cases mem : i ∈ c.descs
    · rw [if_pos mem]
    · rw [if_neg mem] at hi ⊢
      exact h.zero i hi

end EasyXv6.Dev
