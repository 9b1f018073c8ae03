import EasyXv6.Fs.Slots
import EasyXv6.Fs.Dir
import EasyXv6.Lib.DirTree

set_option autoImplicit false

/-!
# Directory entries

A directory is a list of slots, each free or with the number and the name of an inode.
-/
namespace EasyXv6.Fs
open Lib

abbrev DirSlot := Slot ℕ (List UInt8)

/-- The slot that a `struct dirent` stands for. -/
def slotOf (de : Bytes DIRENT_SIZE) : DirSlot :=
  if direntInum de = 0 then none else some (direntInum de, cstr (direntName de) DIRSIZ)

/-- The contents of the directory are the slots `es`. -/
structure Node.Lists (x : Node) (es : List DirSlot) : Prop where
  size : x.size = DIRENT_SIZE * es.length
  slot : ∀ m (hm : m < es.length), ∃ de : Bytes DIRENT_SIZE,
    (∀ j < DIRENT_SIZE, x.byte (DIRENT_SIZE * m + j) = some (de.byte j)) ∧ slotOf de = es[m]

section Slots

variable {es : List DirSlot} {x x' : Node} {i m : ℕ} {name : List UInt8} {de : Bytes DIRENT_SIZE}

theorem slots_mul (n : ℕ) : slots (DIRENT_SIZE * n) = n := by
  unfold slots
  simp only [DIRENT_SIZE]
  omega

theorem Node.Lists.slots_eq (h : x.Lists es) : slots x.size = es.length := by
  rw [h.size, slots_mul]

theorem byte_ext {b b' : Bytes DIRENT_SIZE} (h : ∀ j < DIRENT_SIZE, b.byte j = b'.byte j) : b = b' :=
  Bytes.ext_byte h

/-- The bytes of a slot are those of its entry. -/
theorem Node.Lists.slotOf_eq (h : x.Lists es) (hm : m < es.length)
    (bytes : ∀ j < DIRENT_SIZE, ∀ a, x.byte (DIRENT_SIZE * m + j) = some a → de.byte j = a) :
    slotOf de = es[m] := by
  obtain ⟨de', bytes', slot⟩ := h.slot m hm
  have same : de = de' := byte_ext fun j hj => bytes j hj _ (bytes' j hj)
  rw [same, slot]

/-- A directory of which only fields have changed. -/
theorem Node.Lists.congr (h : x.Lists es) (size : x'.size = x.size) (byte : x'.byte = x.byte) :
    x'.Lists es := by
  refine ⟨size.trans h.size, fun m hm => ?_⟩
  rw [byte]
  exact h.slot m hm

/-- A directory after one of its slots, or the slot past its end, was written. -/
theorem Node.Lists.write (h : x.Lists es) (hm : m ≤ es.length) {e : DirSlot} (he : slotOf de = e)
    (size : x'.size = max x.size (DIRENT_SIZE * m + DIRENT_SIZE))
    (new : ∀ j < DIRENT_SIZE, x'.byte (DIRENT_SIZE * m + j) = some (de.byte j))
    (old : ∀ q a, q < DIRENT_SIZE * m ∨ DIRENT_SIZE * m + DIRENT_SIZE ≤ q → x.byte q = some a →
      x'.byte q = some a) : x'.Lists (if m < es.length then es.set m e else es ++ [e]) := by
  have length : (if m < es.length then es.set m e else es ++ [e]).length = max es.length (m + 1) := by
    split
    · rw [List.length_set]
      omega
    · rw [List.length_append, List.length_singleton]
      omega
  refine ⟨?_, fun k hk => ?_⟩
  · rw [size, h.size, length]
    simp only [DIRENT_SIZE]
    omega
  · by_cases same : k = m
    · subst same
      refine ⟨de, new, he.trans ?_⟩
      split
      · rw [List.getElem_set_self]
      · rw [List.getElem_append_right (by omega)]
        simp
    · have hk' : k < es.length := by
        rw [length] at hk
        omega
      obtain ⟨de', bytes, slot⟩ := h.slot k hk'
      refine ⟨de', fun j hj => old _ _ ?_ (bytes j hj), slot.trans ?_⟩
      · simp only [DIRENT_SIZE] at *
        omega
      · split
        · rw [List.getElem_set_of_ne (Ne.symm same)]
        · rw [List.getElem_append_left]

end Slots

namespace Vol

variable {o : ℤ} {k : ℕ} {N : ℕ → Node} {R : List Ref} {L : List (Fin NINODE)} {s : Vol}
  {ip : Fin NINODE} {i m cap : ℕ} {full : Prop} {es : List DirSlot} {name : List UInt8}

/-- `readi` of a directory entry. -/
theorem readDirent_sat (h : Fsys o k N R L s) (hi : (ip, i) ∈ R) (hL : ip ∈ L)
    (lists : (N i).Lists es) (hm : m < es.length) (why : String) {E : String → Vol → Prop} :
    Comp.Sat (readDirent ip m why) s E fun de s' => Fsys o k N R L s' ∧ slotOf de = es[m] ∧
      Looked L s s' := by
  have hl := h.isLoaded hL
  have inum := h.inum hi
  have size := h.size hi hL
  obtain ⟨V, D, l, at', rfl, fits⟩ := h.shows
  have node := at'.node hl
  rw [inum] at node
  have le := at'.size_le hl
  rw [size, lists.size] at le
  have count : readCount (s.inode ip).d.size.toNat (DIRENT_SIZE * m) DIRENT_SIZE = DIRENT_SIZE := by
    rw [readCount, size, lists.size]
    simp only [DIRENT_SIZE, MAXFILE, NDIRECT, NINDIRECT, BSIZE] at *
    rw [if_neg (by omega)]
    omega
  unfold readDirent
  refine .call (readi_sat at' hl (I := fun n _ de => ∀ j < n, ∀ a,
    V.rawByte (s.inode ip).d (DIRENT_SIZE * m + j) = some a → de.byte j = a)
    ⟨by rintro ⟨⟩, ?_⟩ ?_) ?_
  · rintro - n w mem de src hI hle hsrc j hj a ha
    rw [count] at hle
    rw [Nat.zero_add, Bytes.byte_put _ _ _ _ _ (by omega)]
    by_cases old : j < n
    · rw [if_neg (by omega)]
      exact hI j old a ha
    · rw [if_pos (by omega)]
      refine hsrc (j - n) (by omega) a ?_
      rwa [Nat.add_assoc, Nat.add_sub_cancel' (by omega)]
  · intro j hj
    exact absurd hj (Nat.not_lt_zero j)
  rintro r t ⟨ht, only, cases⟩
  rw [count] at cases
  have refs : Refs R L t.inode := only.inode ▸ h.refs
  refine .ite (fun bad => ?_) fun _ => ?_
  · rcases cases with ⟨-, hu, -⟩ | ⟨ok, -⟩
    · cases hu
    · exact absurd ok bad
  · rcases cases with ⟨-, hu, -⟩ | ⟨-, bytes⟩
    · cases hu
    refine .of_run (t := t) rfl ⟨⟨⟨V, D, l, ht, rfl, fits⟩, refs⟩, ?_, at'.looked ht only fun jp => h.isLoaded⟩
    refine lists.slotOf_eq hm fun j hj a ha => bytes j hj a ?_
    rw [node] at ha
    change V.byteAt (s.inode ip).d _ = some a at ha
    unfold Image.byteAt at ha
    split at ha
    · exact ha
    · cases ha

theorem dirlookupAt_sat (h : Fsys o k N R L s) (hi : (ip, i) ∈ R) (hL : ip ∈ L)
    (lists : (N i).Lists es) (named : ∀ j nm, some (j, nm) ∈ es → (N j).type ≠ 0)
    (hm : m < es.length) (hcap : used R ≤ cap) :
    Comp.Sat (dirlookupAt ip name m) s (Limit cap full) fun r s' => match r with
      | none => nameAt es (cstr (nameOf name) DIRSIZ) m = none ∧ Fsys o k N R L s' ∧ Looked L s s'
      | some (jp, off) => off = DIRENT_SIZE * m ∧ ∃ j,
          nameAt es (cstr (nameOf name) DIRSIZ) m = some (j, m) ∧ Fsys o k N ((jp, j) :: R) L s' ∧
            Looked L s s' := by
  unfold dirlookupAt
  refine .call (readDirent_sat h hi hL lists hm _) ?_
  rintro de t ⟨ht, slot, looked⟩
  have get : es[m]? = some es[m] := List.getElem?_eq_getElem hm
  unfold slotOf at slot
  refine .ite (fun free => .pure ⟨?_, ht, looked⟩) fun used => ?_
  · rw [if_pos free] at slot
    rw [nameAt, get, ← slot]
  rw [if_neg used] at slot
  refine .ite (fun same => ?_) fun other => .pure ⟨?_, ht, looked⟩
  · rw [strncmp_eq_zero_iff] at same
    refine .gets ?_
    rw [ht.dev hi]
    have type : (N (direntInum de)).type ≠ 0 := named _ _ (slot ▸ List.getElem_mem hm)
    refine .call (iget_sat ht type hcap) ?_
    rintro jp u ⟨hu, -, looked'⟩
    refine .pure ⟨rfl, direntInum de, ?_, hu, looked.trans looked'⟩
    rw [nameAt, get, ← slot]
    exact if_pos same.symm
  · rw [strncmp_eq_zero_iff] at other
    rw [nameAt, get, ← slot]
    exact if_neg fun same => other same.symm

/-- `dirlookup` finds the first slot with the name. -/
theorem dirlookup_sat (h : Fsys o k N R L s) (hi : (ip, i) ∈ R) (hL : ip ∈ L)
    (type : (N i).type = T_DIR) (lists : (N i).Lists es)
    (named : ∀ j nm, some (j, nm) ∈ es → (N j).type ≠ 0) (hcap : used R ≤ cap) :
    Comp.Sat (dirlookup ip name) s (Limit cap full) fun r s' => match r with
      | none => lookup es (cstr (nameOf name) DIRSIZ) = none ∧ Fsys o k N R L s' ∧ Looked L s s'
      | some (jp, off) => ∃ j m, lookup es (cstr (nameOf name) DIRSIZ) = some (j, m) ∧
          off = DIRENT_SIZE * m ∧ Fsys o k N ((jp, j) :: R) L s' ∧ Looked L s s' := by
  unfold dirlookup
  refine .gets (.ite (fun no => absurd ((h.type hi hL).trans type) no) fun _ => ?_)
  rw [h.size hi hL, lists.slots_eq]
  refine Comp.Sat.firstSome (fun xs t => (∀ m ∈ xs, m < es.length) ∧ Fsys o k N R L t ∧
    Looked L s t ∧ lookup es (cstr (nameOf name) DIRSIZ) =
      xs.findSome? (nameAt es (cstr (nameOf name) DIRSIZ))) ?_ ?_ ?_
  · exact ⟨fun m hm => List.mem_range.mp hm, h, .refl L s, rfl⟩
  · rintro m rest t ⟨bound, ht, looked, eq⟩
    refine (dirlookupAt_sat ht hi hL lists named (bound m List.mem_cons_self) hcap).post ?_
    rintro (_ | ⟨jp, off⟩) u hr
    · refine ⟨fun j hj => bound j (List.mem_cons_of_mem _ hj), hr.2.1, looked.trans hr.2.2,
        eq.trans ?_⟩
      rw [List.findSome?_cons, hr.1]
    · obtain ⟨hoff, j, found, hu, looked'⟩ := hr
      refine ⟨j, m, eq.trans ?_, hoff, hu, looked.trans looked'⟩
      rw [List.findSome?_cons, found]
  · rintro t ⟨-, ht, looked, eq⟩
    exact ⟨eq, ht, looked⟩

/-- The search of `dirlink` for a free slot. -/
theorem dirlinkFree_sat (h : Fsys o k N R L s) (hi : (ip, i) ∈ R) (hL : ip ∈ L)
    (lists : (N i).Lists es) :
    Comp.Sat (Comp.firstSome (dirlinkAt ip) (List.range es.length)) s (Limit cap full) fun r s' =>
      Fsys o k N R L s' ∧ r.getD (DIRENT_SIZE * es.length) = DIRENT_SIZE * freeSlot es := by
  refine Comp.Sat.firstSome (fun xs t => ∃ m c, xs = List.range' m c ∧ m + c = es.length ∧
    Fsys o k N R L t ∧ freeSlot es = m + freeSlot (es.drop m)) ?_ ?_ ?_
  · exact ⟨0, es.length, List.range_eq_range', Nat.zero_add _, h, (Nat.zero_add _).symm⟩
  · rintro m rest t ⟨_, _ | c, range, len, ht, eq⟩
    · cases range
    rw [List.range'_succ] at range
    obtain ⟨rfl, rfl⟩ := List.cons.inj range
    have hm : m < es.length := by omega
    rw [List.drop_eq_getElem_cons hm] at eq
    unfold dirlinkAt
    refine .call (readDirent_sat ht hi hL lists hm _) ?_
    rintro de u ⟨hu, slot, -⟩
    unfold slotOf at slot
    refine .ite (fun zero => .pure ⟨hu, ?_⟩) fun used =>
      .pure ⟨m + 1, c, rfl, by omega, hu, ?_⟩
    · rw [if_pos zero] at slot
      rw [eq, ← slot]
      rfl
    · rw [if_neg used] at slot
      rw [eq, ← slot, freeSlot]
      omega
  · rintro t ⟨m, _ | c, range, len, ht, eq⟩
    · rw [Nat.add_zero] at len
      refine ⟨ht, ?_⟩
      rw [eq, len, List.drop_length]
      rfl
    · cases range

/-- The fields of a node that a write to its contents leaves. -/
structure SameMeta (x x' : Node) : Prop where
  type : x'.type = x.type
  major : x'.major = x.major
  minor : x'.minor = x.minor
  nlink : x'.nlink = x.nlink

/-- `writei` of a directory entry to a slot, or to the slot past the end. -/
theorem writeDirent_sat (h : Fsys 1 k N R L s) (hk : k ≤ 11) (hi : (ip, i) ∈ R) (hL : ip ∈ L)
    (lists : (N i).Lists es) (hm : m ≤ es.length) {e : DirSlot} (he : slotOf s.de = e)
    (free : full ∨ m < es.length) :
    Comp.Sat (writei ip false 0 (DIRENT_SIZE * m) DIRENT_SIZE) s (Limit cap full) fun r s' =>
      (r = DIRENT_SIZE → ∃ x, SameMeta (N i) x ∧
        x.Lists (if m < es.length then es.set m e else es ++ [e]) ∧
          Fsys 1 (k + 3) (Function.update N i x) R L s') ∧
      (r ≠ DIRENT_SIZE → m = es.length ∧
        MAXFILE * BSIZE < (s'.inode ip).d.size.toNat + DIRENT_SIZE) ∧
      ∀ jp ∈ L, jp ≠ ip → ∀ b, Owns s' jp b ↔ Owns s jp b := by
  have hl := h.isLoaded hL
  have inum := h.inum hi
  have size := h.size hi hL
  obtain ⟨V, D, l, at', rfl, fits⟩ := h.shows
  have alloc := at'.alloc hl
  have le := at'.size_le hl
  rw [size, lists.size] at le
  have quota : Quota META (k + 1) (s.inode ip).d l :=
    ⟨k, fits, Nat.add_le_add_left (indCost_le_one _ _) k⟩
  have rounds : roundsLeft (DIRENT_SIZE * m) DIRENT_SIZE 0 ≤ 2 := by
    unfold roundsLeft
    simp only [DIRENT_SIZE, BSIZE]
    split <;> omega
  have supplies : Supplies false s.user s.de 0 DIRENT_SIZE s.de.byte :=
    ⟨fun _ j _ => by rw [Nat.zero_add], nofun⟩
  -- a slot that is there has its blocks
  have mapped : m < es.length → missing V (s.inode ip).d (blocksLeft (DIRENT_SIZE * m) DIRENT_SIZE 0) =
      0 := by
    intro hm
    have refs : ∀ c ∈ blocksLeft (DIRENT_SIZE * m) DIRENT_SIZE 0,
        V.ref (s.inode ip).d (Image.dataRef c) ≠ 0 := by
      intro c hc
      rw [blocksLeft, if_pos (by decide), Finset.mem_Icc] at hc
      rw [← at'.loaded hl]
      refine at'.ok.laid.full _ alloc c ?_
      rw [at'.loaded hl, size, lists.size]
      simp only [DIRENT_SIZE, BSIZE] at *
      omega
    exact missing_zero refs
  refine (writei_sat at' hl supplies bitmap_mem_META (inode_mem_META alloc.2.1) quota
    (Or.inl (by rw [META_card]; omega)) nofun
    (free.imp_right fun hm => by rw [mapped hm]; exact Nat.zero_le _) fun _ _ stop => stop).post ?_
  rintro r t (⟨bad, range, rfl⟩ | ⟨-, V', D', l', ht, same, others, apart, -, -, cases⟩)
  · refine ⟨fun hr => absurd (bad.symm.trans hr) (by decide), fun _ => ?_, fun _ _ _ _ => Iff.rfl⟩
    rw [size, lists.size] at range ⊢
    simp only [OutOfRange, DIRENT_SIZE, MAXFILE, NDIRECT, NINDIRECT, BSIZE] at *
    omega
  rcases cases with ⟨ok, fits', written⟩ | ⟨bad, unread, -⟩
  · refine ⟨fun _ => ?_, fun hr => absurd ok hr, fun jp hj hne b => ?_⟩
    · rw [inum] at others written
      refine ⟨nodes V' D' i, ⟨written.type, written.major, written.minor, written.nlink⟩, ?_,
        ⟨V', D', l', ht, ?_, fits'.mono (by omega)⟩, ?_⟩
      · exact lists.write hm he written.size written.new written.old
      · funext j
        by_cases hj : j = i
        · rw [hj, Function.update_self]
        · rw [Function.update_of_ne hj, others j hj]
      · refine h.refs.congr (fun jp => same.ref jp) (fun jp _ => same.inum jp) fun jp hj => ?_
        exact ⟨(h.refs.loaded jp hj).1, (same.valid jp).trans (h.refs.loaded jp hj).2⟩
    · have hlj := h.isLoaded hj
      have other : (s.inode jp).inum ≠ (s.inode ip).inum := fun he =>
        hne (at'.ok.cached.unique jp ip hlj.live hl.live he)
      obtain ⟨-, refs⟩ := apart _ (at'.alloc hlj) other
      rw [ht.owns_iff (hlj.same same), at'.owns_iff hlj, same.inum]
      simp only [refs]
  · exact absurd (.kernel rfl) unread

/-- The entry that `dirlink` writes. -/
theorem slotOf_new {de : Bytes DIRENT_SIZE} (h0 : i ≠ 0) (hi : i < 2 ^ 64) :
    slotOf ((de.put 8 DIRSIZ (strncpy (nameOf name) DIRSIZ)).putNum 0 8 i) =
      some (i, cstr (nameOf name) DIRSIZ) := by
  have inum : direntInum ((de.put 8 DIRSIZ (strncpy (nameOf name) DIRSIZ)).putNum 0 8 i) = i := by
    unfold direntInum
    rw [Bytes.num_putNum_self _ _ _ _ (by decide)]
    exact Nat.mod_eq_of_lt (Nat.lt_of_lt_of_le hi (by decide))
  have chars : cstr (direntName ((de.put 8 DIRSIZ (strncpy (nameOf name) DIRSIZ)).putNum 0 8 i))
      DIRSIZ = cstr (nameOf name) DIRSIZ := by
    rw [← cstr_strncpy (nameOf name)]
    refine cstr_congr fun j hj => ?_
    have inside : 8 + j < DIRENT_SIZE := by
      simp only [DIRSIZ, DIRENT_SIZE] at *
      omega
    unfold direntName
    rw [Bytes.putNum, Bytes.byte_put_of_disjoint _ _ _ _ _ (by omega), Bytes.byte_put _ _ _ _ _ inside,
      if_pos (by omega), Nat.add_sub_cancel_left]
  unfold slotOf
  rw [inum, if_neg h0, chars]

/-- `dirlink` of a name that the directory does not have. -/
theorem dirlink_sat {j : ℕ} (h : Fsys 1 k N R L s) (hk : k ≤ 11) (hi : (ip, i) ∈ R) (hL : ip ∈ L)
    (type : (N i).type = T_DIR) (lists : (N i).Lists es)
    (named : ∀ j nm, some (j, nm) ∈ es → (N j).type ≠ 0)
    (linked : ∀ j nm, some (j, nm) ∈ es → (N j).nlink ≠ 0 ∨ j = ROOTINO)
    (h0 : j ≠ 0) (hj : j < NINODES) (hcap : used R ≤ cap) (hfull : full) :
    Comp.Sat (dirlink ip name j) s (Limit cap full) fun r s' =>
      r = -1 ∧ lookup es (cstr (nameOf name) DIRSIZ) ≠ none ∧ Fsys 1 k N R L s' ∧ Looked L s s' ∨
      r = 0 ∧ lookup es (cstr (nameOf name) DIRSIZ) = none ∧ ∃ x, SameMeta (N i) x ∧
        x.Lists (addSlot (j, cstr (nameOf name) DIRSIZ) es) ∧
          Fsys 1 (k + 3) (Function.update N i x) R L s' := by
  unfold dirlink
  refine .call (dirlookup_sat h hi hL type lists named hcap) ?_
  rintro (_ | ⟨jp, off⟩) t ht
  · -- a new entry
    obtain ⟨none, ht, -⟩ := ht
    refine .gets ?_
    rw [ht.size hi hL, lists.slots_eq]
    refine .call (dirlinkFree_sat ht hi hL lists) ?_
    rintro free u ⟨hu, eq⟩
    rw [eq]
    refine .modify ?_
    have hu' : Fsys 1 k N R L { u with
        de := (u.de.put 8 DIRSIZ (strncpy (nameOf name) DIRSIZ)).putNum 0 8 j } := by
      obtain ⟨V, D, l, at', nodes, fits⟩ := hu.shows
      exact ⟨⟨V, D, l, ⟨at'.blk.congr rfl rfl, at'.ok⟩, nodes, fits⟩, hu.refs⟩
    refine .call (writeDirent_sat hu' hk hi hL lists (freeSlot_le es)
      (slotOf_new h0 (Nat.lt_trans hj (by decide))) (Or.inl hfull)) ?_
    rintro r v ⟨hv, big, -⟩
    refine .ite (fun hr => .halt (Or.inl ⟨hfull, Or.inr (Or.inr ⟨rfl, ip, (big hr).2⟩)⟩)) fun ok => ?_
    obtain ⟨x, same, lists', hv⟩ := hv (by simpa using ok)
    rw [← addSlot_eq] at lists'
    exact .pure (Or.inr ⟨rfl, none, x, same, lists', hv⟩)
  · -- the name is there
    obtain ⟨m, idx, found, -, ht, looked⟩ := ht
    have mem := List.mem_of_getElem? (lookup_some found)
    refine .call (iput_keep_sat ht (M := L) (fun jp hjp => ⟨hjp, (h.refs.loaded jp hjp).1⟩)
      (Or.inr (linked m _ mem))) ?_
    rintro _ u ⟨hu, -, looked'⟩
    exact .pure (Or.inl ⟨rfl, by rw [found]; exact nofun, hu, looked.trans looked'⟩)

end Vol

end EasyXv6.Fs
