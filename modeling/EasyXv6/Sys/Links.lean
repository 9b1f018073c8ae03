import EasyXv6.Fs.Linked
import EasyXv6.Sys.Integrity

set_option autoImplicit false

/-!
# Link counts

A link count is the number of the entries that name the inode.
-/
namespace EasyXv6.Sys
open Lib Mem Proc Fs Vol

section Entries

/-- The slots that name a node, one by one. -/
theorem uses_eq_sum {ι ν : Type} [DecidableEq ι] (es : List (Slot ι ν)) (j : ι) :
    uses es j = ∑ m ∈ Finset.range es.length, if (es[m]?.join).map Prod.fst = some j then 1 else 0 := by
  induction es with
  | nil => rfl
  | cons e es ih =>
    rw [List.length_cons, Finset.sum_range_succ']
    simp only [List.getElem?_cons_succ, List.getElem?_cons_zero, ← ih]
    cases e with
    | none => simp [uses_cons_none]
    | some e => simp [uses_cons_some]

/-- The entries of the linked directories that name the inode `j`, apart from those with which the
    directories other than the root name themselves. -/
def namedBy (s : Vol) (j : ℕ) : Set (ℕ × ℕ) :=
  {e | s.LinkedDir e.1 ∧ ∃ name, s.Entry e.1 e.2 j name ∧ (name = DOT → e.1 = ROOTINO)}

/-- The indices of the entries of one directory that count for `j`. -/
def counted (T : Dirs) (j d : ℕ) : Finset ℕ :=
  (T d).elim ∅ fun x => (Finset.range (entries d x).length).filter fun m =>
    ((entries d x)[m]?.join).map Prod.fst = some j ∧ (m = 0 → d = ROOTINO)

variable {N : ℕ → Node} {R : List Ref} {L : List (Fin NINODE)} {s : Vol} {T : Dirs} {d j m : ℕ}
  {x : Dir ℕ (List UInt8)}

theorem mem_counted (hd : T d = some x) : m ∈ counted T j d ↔
    (∃ name, (entries d x)[m]? = some (some (j, name))) ∧ (m = 0 → d = ROOTINO) := by
  have slot : ((entries d x)[m]?.join).map Prod.fst = some j ↔
      ∃ name, (entries d x)[m]? = some (some (j, name)) := by
    cases (entries d x)[m]? with
    | none => simp
    | some e =>
      cases e with
      | none => simp
      | some e => simp [Prod.ext_iff]
  simp only [counted, hd, Option.elim_some, Finset.mem_filter, Finset.mem_range, slot]
  constructor
  · exact fun h => h.2
  · intro h
    obtain ⟨name, hm⟩ := h.1
    exact ⟨(List.getElem?_eq_some_iff.mp hm).1, h⟩

/-- The entry `.` counts for the root only. -/
theorem card_counted (hd : T d = some x) : (counted T j d).card =
    DirTree.weight (T d) j + if d = ROOTINO ∧ j = ROOTINO then 1 else 0 := by
  have first : (d = j ∧ d = ROOTINO) ↔ d = ROOTINO ∧ j = ROOTINO := by
    constructor <;> rintro ⟨rfl, rfl⟩ <;> exact ⟨rfl, rfl⟩
  rw [counted, hd, Option.elim_some, Finset.card_filter, DirTree.weight_some, uses_eq_sum]
  change ∑ m ∈ Finset.range (x.slots.length + 2), _ = _
  rw [Finset.sum_range_succ', Finset.sum_range_succ']
  have rest : ∀ k, (((entries d x)[k + 1 + 1]?.join).map Prod.fst = some j ∧
      (k + 1 + 1 = 0 → d = ROOTINO)) ↔ (x.slots[k]?.join).map Prod.fst = some j := by
    simp [entries]
  simp only [rest]
  simp [entries, first, Nat.add_assoc]

theorem sum_counted (wf : DirTree.Wf inums ROOTINO T) :
    ∑ d ∈ inums, (counted T j d).card = T.links j := by
  have each : ∀ d ∈ inums, (counted T j d).card =
      DirTree.weight (T d) j + if d = ROOTINO then (if j = ROOTINO then 1 else 0) else 0 := by
    intro d _
    cases hd : T d with
    | none =>
      have other : d ≠ ROOTINO := by
        rintro rfl
        obtain ⟨r, hr, -⟩ := wf.rooted
        rw [hd] at hr
        cases hr
      simp [counted, hd, other]
    | some x =>
      rw [card_counted hd, hd, ite_and]
  rw [Finset.sum_congr rfl each, Finset.sum_add_distrib, Finset.sum_ite_eq', if_pos (by decide)]
  rfl

theorem Between.ncard_namedBy (h : Between N R L s) (tree : Tree [] N T) :
    (namedBy s j).ncard = T.links j := by
  have named : namedBy s j =
      (fun e : (_ : ℕ) × ℕ => (e.1, e.2)) '' (inums.sigma (counted T j) : Set ((_ : ℕ) × ℕ)) := by
    ext ⟨d, m⟩
    constructor
    · rintro ⟨linked, name, entry, dot⟩
      obtain ⟨x, hx⟩ := h.linkedDir tree linked
      rw [h.entry_iff tree hx] at entry
      refine ⟨⟨d, m⟩, Finset.mem_sigma.mpr ⟨tree.wf.support d (by simp [hx]), ?_⟩, rfl⟩
      refine (mem_counted hx).mpr ⟨⟨name, entry⟩, ?_⟩
      rintro rfl
      cases entry
      exact dot rfl
    · rintro ⟨⟨d', m'⟩, mem, he⟩
      cases he
      obtain ⟨-, hm⟩ := Finset.mem_sigma.mp mem
      cases hx : T d' with
      | none => simp [counted, hx] at hm
      | some x =>
        obtain ⟨⟨name, entry⟩, dot⟩ := (mem_counted hx).mp hm
        refine ⟨(h.linkedDir_iff tree).mpr (by simp [hx]), name,
          (h.entry_iff tree hx).mpr entry, ?_⟩
        rintro rfl
        exact dot (tree.distinct d' x hx m' 0 j d' DOT entry rfl)
  rw [named, Set.ncard_image_of_injective, Set.ncard_coe_finset, Finset.card_sigma, sum_counted tree.wf]
  rintro ⟨d, m⟩ ⟨d', m'⟩ he
  cases he
  rfl

/-- The link count of an inode is the number of the entries that name it. -/
theorem Between.nlink_eq (h : Between N R L s) (tree : Tree [] N T) (used : s.Used j) :
    (s.file j).nlink.toNat = (namedBy s j).ncard := by
  have links := h.fsys.links_le tree j
  rw [(h.file used).2.1, tree.nlink j (h.used_iff.mp used), List.count_nil, Nat.add_zero,
    BitVec.toNat_ofNat, Nat.mod_eq_of_lt (by omega), Between.ncard_namedBy h tree]

end Entries

/-- Every link count is exact. -/
def LinksExact (v : Vol) : Prop := ∀ i, v.Used i → (v.file i).nlink.toNat = (namedBy v i).ncard

variable {s : System} {tr : List (Event × System)} {Ly : Layout}

theorem FsState.linksExact {N : ℕ → Node} {T : Dirs} {P Q : List Ref} {L : List (Fin NINODE)}
    {t : Files} (h : FsState N T P Q L t) : LinksExact t.vol :=
  fun _ used => Between.nlink_eq h.between h.world.tree used

/-- In every state of every run, and at the end of every transaction, each link count is the number of
    the entries that name the inode; `sys_unlink` finds no positive count only where an inode has
    `2 ^ 15` names or more. -/
theorem link_counts_exact (start : Started s) (hr : Along (Step Ly) s tr) :
    LinksExact (final s tr).files.vol ∧
    ∀ p, ((final s tr).kernel.proc p).state = .running →
      (∀ t, Boundary p (final s tr) t → LinksExact t.vol) ∧
      ∀ (mem : UserMem) (c : Call) t,
        (c.comp p).run ((final s tr).withUser mem) = .halt "unlink: nlink < 1" t →
          ∃ j, 2 ^ 15 ≤ (namedBy (final s tr).files.vol j).ncard := by
  have ready := start.run hr
  obtain ⟨N, T, P, Q, L, hs⟩ := ready.fs
  refine ⟨hs.linksExact, fun p running => ⟨fun t ht => ?_, fun mem c t hc => ?_⟩⟩
  · obtain ⟨N', T', P', Q', L', ht'⟩ := ready.boundary running ht
    exact ht'.linksExact
  · have during := ready.refs.during running
    have stops := (call_fs c (s := (final s tr).withUser mem) (hs.user mem)
      ⟨during.refs, during.closed, during.busy⟩).halted hc
    obtain ⟨j, many⟩ : ∃ j, 2 ^ 15 ≤ T.links j := by
      rcases stops with (⟨-, ⟨no, -⟩ | no | ⟨no, -⟩⟩ | ⟨no, -⟩) | ⟨-, many⟩
      · exact absurd no (by decide)
      · exact absurd no (by decide)
      · exact absurd no (by decide)
      · exact absurd no (by decide)
      · exact many
    exact ⟨j, (Between.ncard_namedBy hs.between hs.world.tree).symm ▸ many⟩

theorem link_counts_exact_made : LinksExact exampleMade.files.vol :=
  (link_counts_exact exampleSystem_started exampleMade_along).1

end EasyXv6.Sys
