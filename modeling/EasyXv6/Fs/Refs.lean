import EasyXv6.Fs.Trunc

set_option autoImplicit false

/-!
# References to inodes

`Fsys o k N R L s` is the state between two operations of a call: `o` transactions are open, the
files are `N`, the references are those of `R`, each a slot with the number of its inode, and the
slots of `L` are loaded. The transaction has recorded at most `k` blocks besides the bitmap and the
inodes.
-/
namespace EasyXv6.Fs.Vol
open Lib

/-- The blocks of inodes and the bitmap. -/
def META : Finset ℕ := Finset.Icc INODES BITMAP

theorem META_card : META.card = 14 := by decide

theorem bitmap_mem_META : BITMAP ∈ META := by decide

theorem inode_mem_META {i : ℕ} (hi : i < NINODES) : INODES + i / IPB ∈ META :=
  Finset.mem_Icc.mpr ⟨Nat.le_add_right .., Nat.le_of_lt (Image.inodeBlock_le hi)⟩

abbrev Ref := Fin NINODE × ℕ

/-- The slots that are referenced. -/
def used (R : List Ref) : ℕ := (R.map Prod.fst).toFinset.card

structure Refs (R : List Ref) (L : List (Fin NINODE)) (ic : Fin NINODE → Inode) : Prop where
  count : ∀ ip, (ic ip).ref = (R.map Prod.fst).count ip
  inum : ∀ x ∈ R, (ic x.1).inum = x.2
  loaded : ∀ ip ∈ L, ip ∈ R.map Prod.fst ∧ (ic ip).valid = true

structure Fsys (o : ℤ) (k : ℕ) (N : ℕ → Node) (R : List Ref) (L : List (Fin NINODE)) (s : Vol) :
    Prop where
  shows : ∃ V D l, FsAt o [] l V D s ∧ nodes V D = N ∧ Fits META k l
  refs : Refs R L s.inode

section Refs

variable {R R' : List Ref} {L L' : List (Fin NINODE)} {ic : Fin NINODE → Inode} {ip : Fin NINODE}
  {i : ℕ} {x : Inode}

theorem used_mono (h : R ⊆ R') : used R ≤ used R' :=
  Finset.card_le_card fun _ hi => List.mem_toFinset.mpr
    (List.map_subset Prod.fst h (List.mem_toFinset.mp hi))

theorem used_cons_le (x : Ref) (R : List Ref) : used (x :: R) ≤ used R + 1 := by
  unfold used
  rw [List.map_cons, List.toFinset_cons]
  exact Finset.card_insert_le ..

theorem mem_slots (h : (ip, i) ∈ R) : ip ∈ R.map Prod.fst := List.mem_map_of_mem (f := Prod.fst) h

theorem Refs.live (h : Refs R L ic) (hi : ip ∈ R.map Prod.fst) : 0 < (ic ip).ref := by
  rw [h.count]
  exact Int.natCast_pos.mpr (List.count_pos_iff.mpr hi)

theorem Refs.mem (h : Refs R L ic) (hr : 0 < (ic ip).ref) : (ip, (ic ip).inum) ∈ R := by
  rw [h.count] at hr
  obtain ⟨x, hx, rfl⟩ := List.mem_map.mp (List.count_pos_iff.mp (Int.natCast_pos.mp hr))
  rwa [h.inum x hx]

theorem Refs.weaken (h : Refs R L ic) (hL : ∀ jp ∈ L', jp ∈ L) : Refs R L' ic :=
  ⟨h.count, h.inum, fun jp hj => h.loaded jp (hL jp hj)⟩

theorem Refs.perm (h : Refs R L ic) (p : R.Perm R') : Refs R' L ic := by
  refine ⟨fun jp => ?_, fun y hy => h.inum y (p.mem_iff.mpr hy), fun jp hj => ?_⟩
  · rw [h.count, (p.map _).count_eq]
  · exact ⟨(p.map Prod.fst).mem_iff.mp (h.loaded jp hj).1, (h.loaded jp hj).2⟩

/-- The slots that are referenced keep their inodes. -/
theorem Refs.congr {ic' : Fin NINODE → Inode} (h : Refs R L ic)
    (ref : ∀ jp, (ic' jp).ref = (ic jp).ref)
    (inum : ∀ jp ∈ R.map Prod.fst, (ic' jp).inum = (ic jp).inum)
    (valid : ∀ jp ∈ L', jp ∈ R.map Prod.fst ∧ (ic' jp).valid = true) : Refs R L' ic' :=
  ⟨fun jp => (ref jp).trans (h.count jp),
    fun y hy => (inum _ (List.mem_map_of_mem (f := Prod.fst) hy)).trans (h.inum y hy), valid⟩

/-- A slot gets one reference more. -/
theorem Refs.add (h : Refs R L ic) (ref : x.ref = (ic ip).ref + 1) (inum : x.inum = i)
    (same : ip ∈ R.map Prod.fst → (ic ip).inum = i)
    (valid : ip ∈ L → x.valid = true) : Refs ((ip, i) :: R) L (Function.update ic ip x) := by
  refine ⟨fun jp => ?_, fun y hy => ?_, fun jp hj => ?_⟩
  · rw [List.map_cons, List.count_cons]
    by_cases he : jp = ip
    · rw [he, Function.update_self, ref, h.count]
      simp
    · rw [Function.update_of_ne he, h.count, if_neg (by simpa using Ne.symm he)]
      rfl
  · by_cases he : y.1 = ip
    · rw [he, Function.update_self, inum]
      rcases List.mem_cons.mp hy with rfl | hy
      · rfl
      · rw [← same (he ▸ List.mem_map_of_mem (f := Prod.fst) hy), ← he, h.inum y hy]
    · rw [Function.update_of_ne he]
      rcases List.mem_cons.mp hy with rfl | hy
      · exact absurd rfl he
      · exact h.inum y hy
  · refine ⟨List.mem_cons_of_mem _ (h.loaded jp hj).1, ?_⟩
    by_cases he : jp = ip
    · rw [he, Function.update_self]
      exact valid (he ▸ hj)
    · rw [Function.update_of_ne he]
      exact (h.loaded jp hj).2

/-- A slot loses a reference. -/
theorem Refs.drop (h : Refs ((ip, i) :: R) L ic) (ref : x.ref = (ic ip).ref - 1)
    (keep : ip ∈ R.map Prod.fst → x.inum = (ic ip).inum ∧ x.valid = (ic ip).valid)
    (hL : ∀ jp ∈ L', jp ∈ L ∧ jp ∈ R.map Prod.fst) : Refs R L' (Function.update ic ip x) := by
  refine ⟨fun jp => ?_, fun y hy => ?_, fun jp hj => ?_⟩
  · have hc := h.count jp
    rw [List.map_cons, List.count_cons] at hc
    by_cases he : jp = ip
    · rw [he] at hc ⊢
      rw [Function.update_self, ref, hc]
      simp
    · rw [Function.update_of_ne he, hc, if_neg (by simpa using Ne.symm he)]
      rfl
  · by_cases he : y.1 = ip
    · have hm := keep (he ▸ List.mem_map_of_mem (f := Prod.fst) hy)
      rw [he, Function.update_self, hm.1, ← he, h.inum y (List.mem_cons_of_mem _ hy)]
    · rw [Function.update_of_ne he]
      exact h.inum y (List.mem_cons_of_mem _ hy)
  · obtain ⟨hj, hm⟩ := hL jp hj
    refine ⟨hm, ?_⟩
    by_cases he : jp = ip
    · rw [he, Function.update_self, (keep (he ▸ hm)).2, ← he]
      exact (h.loaded jp hj).2
    · rw [Function.update_of_ne he]
      exact (h.loaded jp hj).2

/-- Where no slot is free, all are referenced. -/
theorem Refs.full (h : Refs R L ic) (busy : ∀ ip, (ic ip).ref ≠ 0) : NINODE ≤ used R := by
  have all : (R.map Prod.fst).toFinset = Finset.univ := by
    refine Finset.eq_univ_iff_forall.mpr fun ip => List.mem_toFinset.mpr ?_
    by_contra hn
    refine busy ip ?_
    rw [h.count, List.count_eq_zero.mpr hn]
    rfl
  unfold used
  rw [all, Finset.card_univ, Fintype.card_fin]

/-- Fields of a slot other than its reference and its inode change. -/
theorem Refs.set (h : Refs R L ic) (ref : x.ref = (ic ip).ref) (inum : x.inum = (ic ip).inum)
    (hi : ip ∈ R.map Prod.fst) (valid : x.valid = true) :
    Refs R (ip :: L) (Function.update ic ip x) := by
  refine h.congr (fun jp => ?_) (fun jp _ => ?_) fun jp hj => ?_
  · by_cases he : jp = ip
    · rw [he, Function.update_self, ref]
    · rw [Function.update_of_ne he]
  · by_cases he : jp = ip
    · rw [he, Function.update_self, inum]
    · rw [Function.update_of_ne he]
  · by_cases he : jp = ip
    · rw [he, Function.update_self]
      exact ⟨hi, valid⟩
    · rw [Function.update_of_ne he]
      exact h.loaded jp ((List.mem_cons.mp hj).resolve_left he)

end Refs

end EasyXv6.Fs.Vol
