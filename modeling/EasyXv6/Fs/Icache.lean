import EasyXv6.Fs.Layout

set_option autoImplicit false

/-!
# Changes of the inode cache

A slot is taken, loaded, written back, or given up.
-/
namespace EasyXv6.Fs
open Lib

variable {V V' : Image} {D D' : ℕ → Dinode} {ic : Fin NINODE → Inode} {ip : Fin NINODE} {i j : ℕ}
  {d : Dinode}

/-- The image after `iupdate` of the inode `i`. -/
def Image.putDino (V : Image) (i : ℕ) (d : Dinode) : Image :=
  Function.update V (INODES + i / IPB)
    (some ((V.block (INODES + i / IPB)).putDinode (i % IPB) d))

section PutDino

theorem Image.putDino_of_high {c : ℕ} (hi : i < NINODES) (hc : BITMAP ≤ c) :
    V.putDino i d c = V c :=
  Function.update_of_ne (by have := Image.inodeBlock_le hi; omega) ..

theorem Image.dino_putDino_self : (V.putDino i d).dino i = d := by
  rw [putDino, Image.dino_putDinode, if_pos rfl]

theorem Image.dino_putDino_of_ne (h : j ≠ i) : (V.putDino i d).dino j = V.dino j := by
  rw [putDino, Image.dino_putDinode, if_neg h]

theorem Laid.ref_of_high (h : Laid V D) (hj : Alloc D j) (same : ∀ c, BITMAP < c → V' c = V c)
    (k : ℕ) : V'.ref (D j) k = V.ref (D j) k := by
  unfold Image.ref
  split
  · rfl
  split
  · rfl
  next ha =>
    rw [Image.block, same _ (h.addr_own hj (Nat.le_refl _) ha).1, Image.block]

/-- Changes below the data blocks do not show in files. -/
theorem Laid.of_high (h : Laid V D) (same : ∀ c, BITMAP < c → V' c = V c)
    (known : ∀ c ≤ BITMAP, V' c ≠ none) (bits : ∀ b, V.bit b = true → V'.bit b = true) :
    Laid V' D ∧ nodes V' D = nodes V D := by
  have refs : ∀ j, Alloc D j → ∀ k, V'.ref (D j) k = V.ref (D j) k :=
    fun j hj => h.ref_of_high hj same
  have keep : ∀ j, Alloc D j → ∀ k < NREF, V.ref (D j) k ≠ 0 →
      V' (V.ref (D j) k) = V (V.ref (D j) k) :=
    fun j hj k hk hr => same _ (h.own j hj k hk hr).1
  refine ⟨h.of_same refs (fun c hc => ?_) bits fun j hj k hk _ hr hn => ?_, ?_⟩
  · by_contra hle
    exact known c (by omega) hc
  · rwa [keep j hj k hk hr]
  · exact nodes_congr h (fun _ => Iff.rfl) (fun j _ => .refl _) (fun j hj k _ _ => refs j hj k)
      fun j hj k hk _ hr => keep j hj k hk hr

/-- The blocks of inodes are none of the files. -/
theorem Laid.inodes (h : Laid V D) (hi : i < NINODES) (x : Block) :
    Laid (Function.update V (INODES + i / IPB) (some x)) D ∧
      nodes (Function.update V (INODES + i / IPB) (some x)) D = nodes V D := by
  have low := Image.inodeBlock_le hi
  refine h.of_high (fun c hc => Function.update_of_ne (by omega) ..) (fun c hc hn => ?_) fun b hb => ?_
  · by_cases he : c = INODES + i / IPB
    · rw [he, Function.update_self] at hn
      cases hn
    · rw [Function.update_of_ne he] at hn
      have := h.known c hn
      omega
  · rwa [Image.bit_update_of_ne (Nat.ne_of_lt low)]

end PutDino

section Update

/-- The nodes when only the inode `i` changes. -/
theorem nodes_update (hi : Alloc D i) (hd : d.type ≠ 0) :
    nodes V (Function.update D i d) = Function.update (nodes V D) i (V.node d) := by
  funext j
  by_cases hj : j = i
  · subst hj
    have hj' : Alloc (Function.update D j d) j := ⟨hi.1, hi.2.1, by rwa [Function.update_self]⟩
    rw [nodes_of_alloc hj', Function.update_self, Function.update_self]
  · rw [Function.update_of_ne hj, nodes_of_eq (Function.update_of_ne hj ..)]

/-- An inode in use gets new fields, and perhaps fewer pointers. -/
theorem Laid.setFields (h : Laid V D) (hi : Alloc D i) (type : d.type = (D i).type)
    (refs : ∀ k < NREF, V.ref d k ≠ 0 → V.ref d k = V.ref (D i) k)
    (size : d.size.toNat ≤ MAXFILE * BSIZE)
    (full : ∀ n, n * BSIZE < d.size.toNat → V.ref d (Image.dataRef n) ≠ 0) :
    Laid V (Function.update D i d) := by
  refine h.of_sub ?_ ?_ ?_ ?_ ?_ h.known h.low (fun _ _ _ _ _ hb => hb) (fun _ _ _ _ _ _ hn => hn)
  · intro j hj
    by_cases hji : j = i
    · exact hji ▸ hi
    · unfold Alloc at hj ⊢
      rwa [Function.update_of_ne hji] at hj
  · intro j _
    by_cases hji : j = i
    · subst hji
      rw [Function.update_self, type]
    · rw [Function.update_of_ne hji]
  · intro j _ k hk hr
    by_cases hji : j = i
    · subst hji
      rw [Function.update_self] at hr ⊢
      exact refs k hk hr
    · rw [Function.update_of_ne hji]
  · intro j hj
    by_cases hji : j = i
    · subst hji
      rwa [Function.update_self]
    · unfold Alloc at hj
      rw [Function.update_of_ne hji] at hj ⊢
      exact h.size j hj
  · intro j hj n hn
    by_cases hji : j = i
    · subst hji
      rw [Function.update_self] at hn ⊢
      exact full n hn
    · unfold Alloc at hj
      rw [Function.update_of_ne hji] at hj hn ⊢
      exact h.full j hj n hn

/-- New fields of a loaded inode are written back. -/
theorem Ok.iupdate (h : Ok V D ic) (hr : 0 < (ic ip).ref) (hv : (ic ip).valid = true)
    (type : d.type = (ic ip).d.type)
    (refs : ∀ k < NREF, V.ref d k ≠ 0 → V.ref d k = V.ref (ic ip).d k)
    (size : d.size.toNat ≤ MAXFILE * BSIZE)
    (full : ∀ n, n * BSIZE < d.size.toNat → V.ref d (Image.dataRef n) ≠ 0) :
    Ok (V.putDino (ic ip).inum d) (Function.update D (ic ip).inum d)
        (Function.update ic ip { ic ip with d := d }) ∧
      nodes (V.putDino (ic ip).inum d) (Function.update D (ic ip).inum d) =
        Function.update (nodes V D) (ic ip).inum (V.node d) := by
  have hi := h.cached.alloc ip hr
  have hD := h.cached.loaded ip hr hv
  rw [← hD] at type refs
  have hd : d.type ≠ 0 := type ▸ hi.2.2
  have laid := (h.laid.setFields hi type refs size full).inodes hi.2.1
    ((V.block (INODES + (ic ip).inum / IPB)).putDinode ((ic ip).inum % IPB) d)
  refine ⟨⟨laid.1, ?_⟩, laid.2.trans (nodes_update hi hd)⟩
  refine h.cached.update hi.2.1 (fun j hj => Function.update_of_ne hj ..)
    (fun j _ hj => Image.dino_putDino_of_ne hj) (fun _ => rfl)
    (fun jp hj hjr => h.cached.inum_ne hr hjr hj) (h.cached.nonneg ip) ?_ ?_ ?_
  · intro _
    refine ⟨h.cached.dev ip hr, rfl, ⟨hi.1, hi.2.1, ?_⟩, fun _ => Function.update_self ..⟩
    rwa [Function.update_self]
  · exact fun hn => absurd ⟨hr, hv⟩ hn
  · rw [Image.dino_putDino_self, Function.update_self]
    exact .refl d

end Update

section Free

/-- All blocks of a file are freed and its inode is written back without them. -/
theorem Ok.trunc (h : Ok V D ic) (hr : 0 < (ic ip).ref) (hv : (ic ip).valid = true)
    (same : ∀ c, c ≠ BITMAP → V' c = V c) (known : V' BITMAP ≠ none)
    (bits : ∀ b, V'.bit b = true ↔ V.bit b = true ∧
      ∀ k < NREF, V.ref (ic ip).d k ≠ 0 → V.ref (ic ip).d k ≠ b)
    (type : d.type = (ic ip).d.type) (addr : ∀ k ≤ NDIRECT, d.addr k = 0) (size : d.size = 0) :
    Ok (V'.putDino (ic ip).inum d) (Function.update D (ic ip).inum d)
        (Function.update ic ip { ic ip with d := d }) ∧
      nodes (V'.putDino (ic ip).inum d) (Function.update D (ic ip).inum d) =
        Function.update (nodes V D) (ic ip).inum (V.node d) := by
  have hi := h.cached.alloc ip hr
  have hD := h.cached.loaded ip hr hv
  have hd : d.type ≠ 0 := by
    rw [type, ← hD]
    exact hi.2.2
  have high : ∀ c, BITMAP < c → V' c = V c := fun c hc => same c (Nat.ne_of_gt hc)
  have none : ∀ k, Image.ref V' d k = 0 := by
    intro k
    by_cases hk : k ≤ NDIRECT
    · rw [Image.ref_direct hk, addr k hk]
    · rw [Image.ref_entry_zero (by omega) (addr _ (Nat.le_refl _))]
  have others : ∀ j, j ≠ (ic ip).inum → Alloc (Function.update D (ic ip).inum d) j → Alloc D j := by
    intro j hj ha
    unfold Alloc at ha ⊢
    rwa [Function.update_of_ne hj] at ha
  have refs : ∀ j, j ≠ (ic ip).inum → Alloc D j → ∀ k,
      V'.ref (Function.update D (ic ip).inum d j) k = V.ref (D j) k := by
    intro j hj ha k
    rw [Function.update_of_ne hj]
    exact h.laid.ref_of_high ha high k
  have low : ∀ b ≤ BITMAP, V'.bit b = true := by
    refine fun b hb => (bits b).mpr ⟨h.laid.low b hb, fun k hk hne he => ?_⟩
    rw [← hD] at hne he
    have := (h.laid.own _ hi k hk hne).1
    omega
  have knownAll : ∀ c, V' c = Option.none → BITMAP < c := by
    intro c hc
    by_cases he : c = BITMAP
    · exact absurd (he ▸ hc) known
    · exact h.laid.known c (by rwa [same c he] at hc)
  have laid : Laid V' (Function.update D (ic ip).inum d) := by
    refine h.laid.of_sub (fun j ha => ?_) (fun j _ => ?_) (fun j ha k hk hne => ?_) (fun j ha => ?_)
      (fun j ha n hn => ?_) knownAll low (fun j ha k hk hne hb => ?_) fun j ha k hk _ hne hn => ?_
    all_goals by_cases hj : j = (ic ip).inum
    · exact hj ▸ hi
    · exact others j hj ha
    · rw [hj, Function.update_self, type, hD]
    · rw [Function.update_of_ne hj]
    · rw [hj, Function.update_self] at hne
      exact absurd (none k) hne
    · exact refs j hj (others j hj ha) k
    · rw [hj, Function.update_self, size]
      exact Nat.zero_le _
    · rw [Function.update_of_ne hj]
      exact h.laid.size j (others j hj ha)
    · rw [hj, Function.update_self, size] at hn
      exact absurd hn (Nat.not_lt_zero _)
    · rw [Function.update_of_ne hj] at hn
      rw [refs j hj (others j hj ha)]
      exact h.laid.full j (others j hj ha) n hn
    · rw [hj, Function.update_self] at hne
      exact absurd (none k) hne
    · refine (bits _).mpr ⟨hb, fun m hm hme he => hj ?_⟩
      rw [← hD] at hme he
      exact (h.laid.inj _ _ hi (others j hj ha) m hm k hk hme he).1.symm
    · rw [hj, Function.update_self] at hne
      exact absurd (none k) hne
    · have ha' := others j hj ha
      rw [refs j hj ha'] at hne
      rwa [high _ (h.laid.own j ha' k hk hne).1]
  have put := laid.inodes hi.2.1
    ((V'.block (INODES + (ic ip).inum / IPB)).putDinode ((ic ip).inum % IPB) d)
  refine ⟨⟨put.1, ?_⟩, put.2.trans ?_⟩
  · refine h.cached.update hi.2.1 (fun j hj => Function.update_of_ne hj ..) (fun j hlt hj => ?_)
      (fun _ => rfl) (fun jp hj hjr => h.cached.inum_ne hr hjr hj) (h.cached.nonneg ip) ?_ ?_ ?_
    · rw [Image.dino_putDino_of_ne hj, Image.dino, Image.block,
        same _ (Nat.ne_of_lt (Image.inodeBlock_le hlt))]
      rfl
    · intro _
      refine ⟨h.cached.dev ip hr, rfl, ⟨hi.1, hi.2.1, ?_⟩, fun _ => Function.update_self ..⟩
      rwa [Function.update_self]
    · exact fun hn => absurd ⟨hr, hv⟩ hn
    · rw [Image.dino_putDino_self, Function.update_self]
      exact .refl d
  · rw [nodes_update hi hd]
    funext j
    by_cases hj : j = (ic ip).inum
    · subst hj
      rw [Function.update_self, Function.update_self]
      exact node_congr (.refl d) (fun n hn => by simp [size] at hn) fun n hn => by simp [size] at hn
    · rw [Function.update_of_ne hj, Function.update_of_ne hj]
      by_cases ha : Alloc D j
      · rw [nodes_of_alloc ha, nodes_of_alloc ha]
        refine node_congr (.refl _) (fun n _ => h.laid.ref_of_high ha high _) fun n hn => ?_
        exact high _ (h.laid.own j ha _ (Image.dataRef_lt (h.laid.index_lt ha hn))
          (h.laid.full j ha n hn)).1
      · rw [nodes_of_free ha, nodes_of_free ha]

/-- The last reference to an inode without blocks goes, and with it the inode. -/
theorem Ok.free (h : Ok V D ic) (last : (ic ip).ref = 1) (type : d.type = 0) :
    Ok (V.putDino (ic ip).inum d) (Function.update D (ic ip).inum d)
        (Function.update ic ip { ic ip with d := d, valid := false, ref := 0 }) ∧
      nodes (V.putDino (ic ip).inum d) (Function.update D (ic ip).inum d) =
        Function.update (nodes V D) (ic ip).inum .free := by
  have hr : 0 < (ic ip).ref := by omega
  have hi := h.cached.alloc ip hr
  have gone : ¬ Alloc (Function.update D (ic ip).inum d) (ic ip).inum := by
    intro ha
    have := ha.2.2
    rw [Function.update_self] at this
    exact this type
  have ne : ∀ j, Alloc (Function.update D (ic ip).inum d) j → j ≠ (ic ip).inum := by
    rintro _ ha rfl
    exact gone ha
  have others : ∀ j, Alloc (Function.update D (ic ip).inum d) j → Alloc D j := by
    intro j ha
    have hj := ne j ha
    unfold Alloc at ha ⊢
    rwa [Function.update_of_ne hj] at ha
  have laid : Laid V (Function.update D (ic ip).inum d) := by
    refine h.laid.of_sub others (fun j ha => ?_) (fun j ha k hk _ => ?_) (fun j ha => ?_)
      (fun j ha n hn => ?_) h.laid.known h.laid.low (fun _ _ _ _ _ hb => hb)
      fun _ _ _ _ _ _ hn => hn
    · rw [Function.update_of_ne (ne j ha)]
    · rw [Function.update_of_ne (ne j ha)]
    · rw [Function.update_of_ne (ne j ha)]
      exact h.laid.size j (others j ha)
    · rw [Function.update_of_ne (ne j ha)] at hn ⊢
      exact h.laid.full j (others j ha) n hn
  have put := laid.inodes hi.2.1
    ((V.block (INODES + (ic ip).inum / IPB)).putDinode ((ic ip).inum % IPB) d)
  refine ⟨⟨put.1, ?_⟩, put.2.trans (funext fun j => ?_)⟩
  · refine h.cached.update hi.2.1 (fun j hj => Function.update_of_ne hj ..)
      (fun j _ hj => Image.dino_putDino_of_ne hj) (fun _ => rfl)
      (fun jp hj hjr => h.cached.inum_ne hr hjr hj) (Int.le_refl 0) ?_ ?_ ?_
    · exact fun hn => absurd hn (show ¬ (0 : ℤ) < 0 by decide)
    · intro _
      rw [Function.update_self, Image.dino_putDino_self]
    · rw [Function.update_self, Image.dino_putDino_self]
      exact .refl d
  · by_cases hj : j = (ic ip).inum
    · rw [hj, Function.update_self, nodes_of_free gone]
    · rw [Function.update_of_ne hj, nodes_of_eq (Function.update_of_ne hj ..)]

/-- The image after `ialloc` of the inode `i`. -/
def Image.initDino (V : Image) (i : ℕ) (type : BitVec 16) : Image :=
  Function.update V (INODES + i / IPB)
    (some ((V.block (INODES + i / IPB)).initDinode (i % IPB) type))

/-- A free inode becomes one without blocks. -/
theorem Laid.addEmpty (h : Laid V D) (free : ¬ Alloc D i) (type : d.type = T_DIR ∨ d.type = T_FILE)
    (addr : ∀ k ≤ NDIRECT, d.addr k = 0) (size : d.size = 0) : Laid V (Function.update D i d) := by
  have none : ∀ k, V.ref d k = 0 := by
    intro k
    by_cases hk : k ≤ NDIRECT
    · rw [Image.ref_direct hk, addr k hk]
    · rw [Image.ref_entry_zero (by omega) (addr _ (Nat.le_refl _))]
  have old : ∀ j, j ≠ i → Alloc (Function.update D i d) j → Alloc D j := by
    intro j hj ha
    unfold Alloc at ha ⊢
    rwa [Function.update_of_ne hj] at ha
  have ne : ∀ j k, V.ref (Function.update D i d j) k ≠ 0 → j ≠ i := by
    rintro j k hr rfl
    rw [Function.update_self] at hr
    exact hr (none k)
  refine ⟨h.known, h.low, fun j ha => ?_, fun j ha => ?_, fun j ha k hk hr => ?_,
    fun j j' ha ha' k hk m hm hr he => ?_, fun j ha n hn => ?_, fun j ha k hk ht hr => ?_⟩
  · by_cases hj : j = i
    · rwa [hj, Function.update_self]
    · rw [Function.update_of_ne hj]
      exact h.type j (old j hj ha)
  · by_cases hj : j = i
    · rw [hj, Function.update_self, size]
      exact Nat.zero_le _
    · rw [Function.update_of_ne hj]
      exact h.size j (old j hj ha)
  · have hj := ne j k hr
    rw [Function.update_of_ne hj] at hr ⊢
    exact h.own j (old j hj ha) k hk hr
  · have hj := ne j k hr
    have hj' := ne j' m (he ▸ hr)
    rw [Function.update_of_ne hj] at hr he
    rw [Function.update_of_ne hj'] at he
    exact h.inj j j' (old j hj ha) (old j' hj' ha') k hk m hm hr he
  · by_cases hj : j = i
    · rw [hj, Function.update_self, size] at hn
      exact absurd hn (Nat.not_lt_zero _)
    · rw [Function.update_of_ne hj] at hn ⊢
      exact h.full j (old j hj ha) n hn
  · have hj := ne j k hr
    rw [Function.update_of_ne hj] at ht hr ⊢
    exact h.sure j (old j hj ha) k hk ht hr

/-- A free inode is taken. -/
theorem Ok.init (h : Ok V D ic) {type : BitVec 16} (h1 : 1 ≤ i) (hi : i < NINODES)
    (free : (V.dino i).type = 0) (ht : type = T_DIR ∨ type = T_FILE) :
    Ok (V.initDino i type) (Function.update D i (.fresh type)) ic ∧
      (∀ ip, 0 < (ic ip).ref → (ic ip).inum ≠ i) ∧
      nodes (V.initDino i type) (Function.update D i (.fresh type)) =
        Function.update (nodes V D) i (V.node (.fresh type)) := by
  have unused : ¬ Alloc D i := fun ha => ha.2.2 ((h.cached.synced i hi).fields.type ▸ free)
  have sole : ∀ ip, 0 < (ic ip).ref → (ic ip).inum ≠ i := by
    rintro ip hr rfl
    exact unused (h.cached.alloc ip hr)
  have ht0 : type ≠ 0 := by
    rcases ht with rfl | rfl <;> decide
  have used : Alloc (Function.update D i (.fresh type)) i := by
    refine ⟨h1, hi, ?_⟩
    rwa [Function.update_self]
  have dino : ∀ j, (V.initDino i type).dino j = if j = i then .fresh type else V.dino j :=
    Image.dino_initDinode type
  have laid := (h.laid.addEmpty (d := .fresh type) unused ht (fun k _ => Dinode.addr_fresh ..)
    rfl).inodes hi ((V.block (INODES + i / IPB)).initDinode (i % IPB) type)
  refine ⟨⟨laid.1, ?_⟩, sole, laid.2.trans (funext fun j => ?_)⟩
  · refine ⟨h.cached.nonneg, h.cached.dev, fun ip hr => ?_, h.cached.unique, fun ip hr hv => ?_,
      fun j hlt hn => ?_, fun j hlt => ?_⟩
    · refine (alloc_congr ?_).mpr (h.cached.alloc ip hr)
      rw [Function.update_of_ne (sole ip hr)]
    · rw [Function.update_of_ne (sole ip hr)]
      exact h.cached.loaded ip hr hv
    · rw [dino]
      by_cases hj : j = i
      · rw [hj, Function.update_self, if_pos rfl]
      · rw [Function.update_of_ne hj, if_neg hj]
        exact h.cached.stored j hlt hn
    · rw [dino]
      by_cases hj : j = i
      · rw [hj, Function.update_self, if_pos rfl]
        exact .refl _
      · rw [Function.update_of_ne hj, if_neg hj]
        exact h.cached.synced j hlt
  · by_cases hj : j = i
    · rw [hj, Function.update_self, nodes_of_alloc used, Function.update_self]
    · rw [Function.update_of_ne hj, nodes_of_eq (Function.update_of_ne hj ..)]

end Free

section Slot

/-- `ilock` loads the inode. -/
theorem Ok.load (h : Ok V D ic) (hr : 0 < (ic ip).ref) (hv : (ic ip).valid = false) :
    Ok V D (Function.update ic ip { ic ip with d := V.dino (ic ip).inum, valid := true }) := by
  have hi := h.cached.alloc ip hr
  have stored : D (ic ip).inum = V.dino (ic ip).inum := by
    refine h.cached.stored _ hi.2.1 fun jp hj hjv he => ?_
    rw [h.cached.unique jp ip hj hr he, hv] at hjv
    cases hjv
  refine ⟨h.laid, h.cached.update hi.2.1 (fun _ _ => rfl) (fun _ _ _ => rfl) (fun _ => rfl)
    (fun jp hj hjr => h.cached.inum_ne hr hjr hj) (h.cached.nonneg ip) ?_ (fun _ => stored)
    (h.cached.synced _ hi.2.1)⟩
  exact fun _ => ⟨h.cached.dev ip hr, rfl, hi, fun _ => stored⟩

/-- The slot of a new inode is loaded by `ialloc`. -/
theorem Ok.fill (h : Ok V D ic) (hr : 0 < (ic ip).ref) (hd : D (ic ip).inum = d) :
    Ok V D (Function.update ic ip { ic ip with d := d, valid := true }) := by
  have hi := h.cached.alloc ip hr
  refine ⟨h.laid, h.cached.update hi.2.1 (fun _ _ => rfl) (fun _ _ _ => rfl) (fun _ => rfl)
    (fun jp hj hjr => h.cached.inum_ne hr hjr hj) (h.cached.nonneg ip) ?_ (fun not => ?_)
    (h.cached.synced _ hi.2.1)⟩
  · exact fun _ => ⟨h.cached.dev ip hr, rfl, hi, fun _ => hd⟩
  · exact absurd ⟨hr, rfl⟩ not

/-- Another reference to a live slot. -/
theorem Ok.dup (h : Ok V D ic) (hr : 0 < (ic ip).ref) :
    Ok V D (Function.update ic ip { ic ip with ref := (ic ip).ref + 1 }) := by
  have hi := h.cached.alloc ip hr
  refine ⟨h.laid, h.cached.update hi.2.1 (fun _ _ => rfl) (fun _ _ _ => rfl) (fun _ => rfl)
    (fun jp hj hjr => h.cached.inum_ne hr hjr hj) (Int.le_add_one (h.cached.nonneg ip)) ?_ ?_
    (h.cached.synced _ hi.2.1)⟩
  · exact fun _ => ⟨h.cached.dev ip hr, rfl, hi, h.cached.loaded ip hr⟩
  · intro hn
    have hv : (ic ip).valid ≠ true := fun hv => hn ⟨Int.lt_add_one_of_le (h.cached.nonneg ip), hv⟩
    refine h.cached.stored _ hi.2.1 fun jp hj hjv he => hv ?_
    rwa [h.cached.unique jp ip hj hr he] at hjv

/-- A free slot takes an inode that no slot has. -/
theorem Ok.get (h : Ok V D ic) (hi : Alloc D i) (free : (ic ip).ref = 0)
    (sole : ∀ jp, 0 < (ic jp).ref → (ic jp).inum ≠ i) :
    Ok V D (Function.update ic ip
      { ic ip with dev := ROOTDEV, inum := i, ref := 1, valid := false }) := by
  refine ⟨h.laid, h.cached.update hi.2.1 (fun _ _ => rfl) (fun _ _ _ => rfl) (fun hr => by omega)
    (fun jp _ => sole jp) (show (0 : ℤ) ≤ 1 by decide) ?_ (fun _ => ?_) (h.cached.synced _ hi.2.1)⟩
  · exact fun _ => ⟨rfl, rfl, hi, fun hv => by cases hv⟩
  · exact h.cached.stored _ hi.2.1 fun jp hj _ => sole jp hj

/-- A reference is given up. The last one leaves the inode as it is on the disk. -/
theorem Ok.put (h : Ok V D ic) (hr : 0 < (ic ip).ref) :
    ∃ D', Ok V D' (Function.update ic ip { ic ip with ref := (ic ip).ref - 1 }) ∧
      nodes V D' = nodes V D := by
  have hi := h.cached.alloc ip hr
  have sole : ∀ jp, jp ≠ ip → 0 < (ic jp).ref → (ic jp).inum ≠ (ic ip).inum :=
    fun jp hj hjr => h.cached.inum_ne hr hjr hj
  by_cases last : (ic ip).ref = 1
  · -- the cached copy is lost
    have sync := h.cached.synced _ hi.2.1
    have alloc : ∀ j, Alloc (Function.update D (ic ip).inum (V.dino (ic ip).inum)) j ↔ Alloc D j := by
      intro j
      refine alloc_congr ?_
      by_cases hj : j = (ic ip).inum
      · rw [hj, Function.update_self, sync.fields.type]
      · rw [Function.update_of_ne hj]
    refine ⟨Function.update D (ic ip).inum (V.dino (ic ip).inum), ⟨?_, ?_⟩, ?_⟩
    · refine h.laid.setFields hi sync.fields.type (fun k hk hne => ?_) ?_ fun n hn => ?_
      · unfold Image.ref at hne ⊢
        by_cases hk' : k ≤ NDIRECT
        · rw [if_pos hk'] at hne ⊢
          rw [if_pos hk']
          exact (sync.addr k hk').resolve_right fun e => hne e.1
        · rw [if_neg hk'] at hne ⊢
          rw [if_neg hk']
          by_cases ha : (V.dino (ic ip).inum).addr NDIRECT = 0
          · rw [if_pos ha] at hne
            exact absurd rfl hne
          · rw [(sync.addr NDIRECT (Nat.le_refl _)).resolve_right fun e => ha e.1]
      · rw [sync.fields.size]
        exact h.laid.size _ hi
      · rw [sync.fields.size] at hn
        rw [sync.dataRef hn]
        exact h.laid.full _ hi n hn
    · refine h.cached.update hi.2.1 (fun j hj => Function.update_of_ne hj ..) (fun _ _ _ => rfl)
        (fun _ => rfl) sole (by change 0 ≤ (ic ip).ref - 1; omega) ?_ ?_ ?_
      · intro hn
        change 0 < (ic ip).ref - 1 at hn
        omega
      · exact fun _ => Function.update_self ..
      · rw [Function.update_self]
        exact .refl _
    · rw [nodes_update hi (by rw [sync.fields.type]; exact hi.2.2), sync.node, ← nodes_of_alloc hi,
        Function.update_eq_self]
  · refine ⟨D, ⟨h.laid, h.cached.update hi.2.1 (fun _ _ => rfl) (fun _ _ _ => rfl) (fun _ => rfl)
      sole (by change 0 ≤ (ic ip).ref - 1; omega) ?_ ?_ (h.cached.synced _ hi.2.1)⟩, rfl⟩
    · exact fun _ => ⟨h.cached.dev ip hr, rfl, hi, h.cached.loaded ip hr⟩
    · intro hn
      have hv : (ic ip).valid ≠ true := by
        refine fun hv => hn ⟨?_, hv⟩
        change 0 < (ic ip).ref - 1
        omega
      refine h.cached.stored _ hi.2.1 fun jp hj hjv he => hv ?_
      rwa [h.cached.unique jp ip hj hr he] at hjv

end Slot

end EasyXv6.Fs
