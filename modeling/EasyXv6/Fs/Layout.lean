import EasyXv6.Fs.Nodes

set_option autoImplicit false

/-!
# Changes of the blocks of a file

A block is taken from the bitmap, a pointer is set to it, its contents change. Only the last shows
in a file, and only in the file that names the block.
-/
namespace EasyXv6.Fs
open Lib

variable {V V' : Image} {D D' : ℕ → Dinode} {ic : Fin NINODE → Inode} {i j b n : ℕ}

/-- A block below the end of a file, by its index. -/
theorem Laid.index_lt (h : Laid V D) (hi : Alloc D i) (hn : n * BSIZE < (D i).size.toNat) :
    n < MAXFILE := by
  have := h.size i hi
  simp only [BSIZE] at *
  omega

/-- The nodes depend on the fields of the inodes and on the blocks below their ends. -/
theorem nodes_congr (h : Laid V D) (alloc : ∀ j, Alloc D' j ↔ Alloc D j)
    (fields : ∀ j, Alloc D j → SameFields (D' j) (D j))
    (refs : ∀ j, Alloc D j → ∀ k < NREF, V.ref (D j) k ≠ 0 → V'.ref (D' j) k = V.ref (D j) k)
    (same : ∀ j, Alloc D j → ∀ k < NREF, k ≠ NDIRECT → V.ref (D j) k ≠ 0 →
      V' (V.ref (D j) k) = V (V.ref (D j) k)) : nodes V' D' = nodes V D := by
  funext j
  by_cases hj : Alloc D j
  · rw [nodes_of_alloc hj, nodes_of_alloc ((alloc j).mpr hj)]
    refine node_congr (fields j hj) ?_ ?_
    · intro n hn
      exact refs j hj _ (Image.dataRef_lt (h.index_lt hj hn)) (h.full j hj n hn)
    · intro n hn
      exact same j hj _ (Image.dataRef_lt (h.index_lt hj hn)) (Image.dataRef_ne n) (h.full j hj n hn)
  · rw [nodes_of_free hj, nodes_of_free (mt (alloc j).mp hj)]

/-- The inodes other than `i` keep their copies and their blocks. -/
def Apart (i : ℕ) (V : Image) (D : ℕ → Dinode) (V' : Image) (D' : ℕ → Dinode) : Prop :=
  ∀ j, Alloc D j → j ≠ i → D' j = D j ∧ ∀ k, V'.ref (D' j) k = V.ref (D j) k

theorem Apart.refl (i : ℕ) (V : Image) (D : ℕ → Dinode) : Apart i V D V D :=
  fun _ _ _ => ⟨rfl, fun _ => rfl⟩

theorem Apart.trans {V'' : Image} {D'' : ℕ → Dinode} (h : Apart i V D V' D')
    (h' : Apart i V' D' V'' D'') : Apart i V D V'' D'' := by
  intro j hj hne
  obtain ⟨same, refs⟩ := h j hj hne
  have hj' : Alloc D' j := by
    unfold Alloc
    rwa [same]
  obtain ⟨same', refs'⟩ := h' j hj' hne
  exact ⟨same'.trans same, fun k => (refs' k).trans (refs k)⟩

/-- Nothing shows, but the inode `i` may have got blocks that it had none for. -/
structure Grown (i : ℕ) (V : Image) (D : ℕ → Dinode) (V' : Image) (D' : ℕ → Dinode) : Prop where
  nodes : nodes V' D' = nodes V D
  fields : SameFields (D' i) (D i)
  refs : ∀ k < NREF, V.ref (D i) k ≠ 0 → V'.ref (D' i) k = V.ref (D i) k
  same : ∀ k < NREF, k ≠ NDIRECT → V.ref (D i) k ≠ 0 → V' (V.ref (D i) k) = V (V.ref (D i) k)
  apart : Apart i V D V' D'

theorem Grown.refl (i : ℕ) (V : Image) (D : ℕ → Dinode) : Grown i V D V D :=
  ⟨rfl, .refl _, fun _ _ _ => rfl, fun _ _ _ _ => rfl, .refl i V D⟩

theorem SameFields.trans {d e f : Dinode} (h : SameFields d e) (h' : SameFields e f) :
    SameFields d f :=
  ⟨h.type.trans h'.type, h.major.trans h'.major, h.minor.trans h'.minor, h.nlink.trans h'.nlink,
    h.size.trans h'.size⟩

theorem Grown.trans {V'' : Image} {D'' : ℕ → Dinode} (h : Grown i V D V' D')
    (h' : Grown i V' D' V'' D'') : Grown i V D V'' D'' := by
  refine ⟨h'.nodes.trans h.nodes, h'.fields.trans h.fields, ?_, ?_, h.apart.trans h'.apart⟩
  · intro k hk hr
    rw [h'.refs k hk (by rwa [h.refs k hk hr]), h.refs k hk hr]
  · intro k hk hne hr
    have := h'.same k hk hne (by rwa [h.refs k hk hr])
    rw [h.refs k hk hr] at this
    rw [this, h.same k hk hne hr]

/-- The bytes in the blocks that the inode had are still there. -/
theorem Grown.rawByte (h : Grown i V D V' D') (hn : n / BSIZE < MAXFILE)
    (hr : V.ref (D i) (Image.dataRef (n / BSIZE)) ≠ 0) :
    V'.rawByte (D' i) n = V.rawByte (D i) n := by
  have hk := Image.dataRef_lt hn
  unfold Image.rawByte
  rw [h.refs _ hk hr, h.same _ hk (Image.dataRef_ne _) hr]

/-- The image after `fs_alloc` of the block `b`. -/
def Image.take (V : Image) (b : ℕ) : Image :=
  Function.update (Function.update V BITMAP (some ((V.block BITMAP).setBit b))) b (some Block.zero)

section Take

variable (h : Ok V D ic) (hb : V.bit b = false) (hlt : b < FSSIZE)

theorem Image.take_of_ne {c : ℕ} (h1 : c ≠ b) (h2 : c ≠ BITMAP) : V.take b c = V c := by
  rw [take, Function.update_of_ne h1, Function.update_of_ne h2]

theorem Image.bit_take (hlt : b < FSSIZE) (hb : BITMAP < b) (c : ℕ) :
    (V.take b).bit c = if c = b then true else V.bit c := by
  rw [take, Image.bit_update_of_ne (Nat.ne_of_gt hb),
    Image.bit_setBit (Nat.lt_trans hlt (by decide))]

include h hb in
theorem Ok.ref_take (hj : Alloc D j) (k : ℕ) : (V.take b).ref (D j) k = V.ref (D j) k := by
  have high := h.laid.high_of_clear hb
  have ne : b ≠ (D j).addr NDIRECT := by
    intro he
    have hr : V.ref (D j) NDIRECT = (D j).addr NDIRECT := Image.ref_direct (Nat.le_refl _)
    exact h.laid.ref_ne_of_clear hb (by omega) hj (by decide : NDIRECT < NREF) (hr.trans he.symm)
  rw [Image.take, Image.ref_update_of_ne ne,
    Image.ref_update_of_ne (h.laid.indirect_ne_of_le (by decide) (Nat.le_refl _) hj)]

include h hb hlt in
theorem Ok.take : Ok (V.take b) D ic ∧ Fresh (V.take b) D b ∧
    ∀ i, Alloc D i → Grown i V D (V.take b) D := by
  have high := h.laid.high_of_clear hb
  have bits := Image.bit_take (V := V) hlt high
  have apart : ∀ j, Alloc D j → ∀ k < NREF, V.ref (D j) k ≠ b :=
    fun j hj k hk => h.laid.ref_ne_of_clear hb (by omega) hj hk
  have keep : ∀ j, Alloc D j → ∀ k < NREF, V.ref (D j) k ≠ 0 →
      V.take b (V.ref (D j) k) = V (V.ref (D j) k) := by
    intro j hj k hk hr
    exact Image.take_of_ne (apart j hj k hk) (Nat.ne_of_gt (h.laid.own j hj k hk hr).1)
  have laid : Laid (V.take b) D := by
    refine h.laid.of_same (fun j hj k => h.ref_take hb hj k) ?_ ?_ ?_
    · intro c hc
      by_cases hcb : c = b
      · omega
      by_cases hc2 : c = BITMAP
      · subst hc2
        rw [Image.take, Function.update_of_ne hcb, Function.update_self] at hc
        cases hc
      rw [Image.take_of_ne hcb hc2] at hc
      exact h.laid.known c hc
    · intro c hc
      rw [bits, hc, ite_self]
    · intro j hj k hk _ hr hn
      rwa [keep j hj k hk hr]
  refine ⟨⟨laid, h.cached.of_dino ?_⟩, ⟨high, hlt, ?_, ?_, ?_⟩, ?_⟩
  · intro j hj
    rw [Image.take, Image.dino_update_of_le (Nat.le_of_lt high) hj,
      Image.dino_update_of_le (Nat.le_refl _) hj]
  · rw [bits, if_pos rfl]
  · exact Function.update_self ..
  · intro j hj k hk
    rw [h.ref_take hb hj]
    exact apart j hj k hk
  · intro i hi
    refine ⟨?_, .refl _, fun k _ _ => h.ref_take hb hi k, fun k hk _ hr => keep i hi k hk hr,
      fun j hj _ => ⟨rfl, h.ref_take hb hj⟩⟩
    exact nodes_congr h.laid (fun _ => Iff.rfl) (fun j _ => .refl _)
      (fun j hj k _ _ => h.ref_take hb hj k) fun j hj k hk _ hr => keep j hj k hk hr

end Take

section Assign

variable {ip : Fin NINODE} {k : ℕ}

/-- The inode `i` with the block `b` for its pointer `k`. -/
def withAddr (D : ℕ → Dinode) (i k b : ℕ) : ℕ → Dinode :=
  Function.update D i ((D i).setAddr k b)

theorem withAddr_synced (h0 : (D i).addr k = 0) (past : (D i).size.toNat ≤ k * BSIZE) {e : Dinode}
    (h : Synced e (D i)) : Synced e ((D i).setAddr k b) := by
  refine ⟨⟨h.fields.type, h.fields.major, h.fields.minor, h.fields.nlink, h.fields.size⟩, ?_⟩
  intro m hm
  by_cases hmk : m = k
  · subst hmk
    rcases h.addr m hm with he | ⟨he, -⟩
    · exact Or.inr ⟨he.trans h0, past⟩
    · exact Or.inr ⟨he, past⟩
  · rw [Dinode.addr_setAddr_of_ne _ hmk]
    exact h.addr m hm

/-- A file ends before the blocks of an empty pointer. -/
theorem Laid.size_le_of_empty (h : Laid V D) (hi : Alloc D i) (hk : k ≤ NDIRECT)
    (h0 : (D i).addr k = 0) : (D i).size.toNat ≤ k * BSIZE := by
  by_contra hn
  have full := h.full i hi k (by omega)
  by_cases hk' : k < NDIRECT
  · rw [Image.dataRef, if_pos hk', Image.ref_direct hk] at full
    exact full h0
  · have hk12 : k = NDIRECT := by omega
    subst hk12
    rw [Image.dataRef, if_neg hk', Image.ref_entry_zero (Nat.lt_succ_self _) h0] at full
    exact full rfl

theorem ref_withAddr (hk : k ≤ NDIRECT) (h0 : (D i).addr k = 0) (fresh : Fresh V D b) (j m : ℕ) :
    V.ref (withAddr D i k b j) m = if j = i ∧ m = k then b else V.ref (D j) m := by
  have hb : b < 2 ^ 32 := Nat.lt_trans fresh.lt (by decide)
  unfold withAddr
  by_cases hji : j = i
  · subst hji
    rw [Function.update_self]
    by_cases hmk : m = k
    · subst hmk
      rw [if_pos ⟨rfl, rfl⟩, Image.ref_direct hk, Dinode.addr_setAddr_self _ hk hb]
    rw [if_neg (fun h => hmk h.2)]
    by_cases hm : m ≤ NDIRECT
    · rw [Image.ref_direct hm, Image.ref_direct hm, Dinode.addr_setAddr_of_ne _ hmk]
    by_cases hk' : k = NDIRECT
    · -- the new indirect block is empty
      subst hk'
      rw [Image.ref_entry_zero (by omega) h0, Image.ref_entry (by omega)]
      · rw [Dinode.addr_setAddr_self _ hk hb, Image.block_of fresh.zero, Block.entry_zero]
      · rw [Dinode.addr_setAddr_self _ hk hb]
        have := fresh.high
        omega
    · unfold Image.ref
      rw [if_neg hm, if_neg hm, Dinode.addr_setAddr_of_ne _ (Ne.symm hk')]
  · rw [Function.update_of_ne hji, if_neg (fun h => hji h.1)]

theorem withAddr_fields (j : ℕ) : SameFields (withAddr D i k b j) (D j) := by
  unfold withAddr
  by_cases hj : j = i
  · subst hj
    rw [Function.update_self]
    exact ⟨rfl, rfl, rfl, rfl, rfl⟩
  · rw [Function.update_of_ne hj]
    exact .refl _

/-- A new block becomes a direct or the indirect block of a loaded inode. -/
theorem Ok.setAddr (h : Ok V D ic) (hr : 0 < (ic ip).ref) (hv : (ic ip).valid = true)
    (hk : k ≤ NDIRECT) (h0 : (ic ip).d.addr k = 0) (fresh : Fresh V D b) :
    Ok V (withAddr D (ic ip).inum k b)
        (Function.update ic ip { ic ip with d := (ic ip).d.setAddr k b }) ∧
      Grown (ic ip).inum V D V (withAddr D (ic ip).inum k b) := by
  have hi := h.cached.alloc ip hr
  have hD := h.cached.loaded ip hr hv
  have h0' : (D (ic ip).inum).addr k = 0 := by rwa [hD]
  have past := h.laid.size_le_of_empty hi hk h0'
  have alloc : ∀ j, Alloc (withAddr D (ic ip).inum k b) j ↔ Alloc D j :=
    fun j => alloc_congr (withAddr_fields j).type
  have refs := ref_withAddr hk h0' fresh
  refine ⟨⟨?_, ?_⟩, ?_⟩
  · exact h.laid.assign fresh alloc (fun j => (withAddr_fields j).type)
      (fun j => (withAddr_fields j).size) (fun j _ m _ => refs j m) (fun _ => rfl) fun _ hc => hc
  · refine h.cached.update hi.2.1 (fun j hj => ?_) (fun _ _ _ => rfl) (fun _ => rfl)
      (fun jp hj hjr => h.cached.inum_ne hr hjr hj) (h.cached.nonneg ip) ?_ ?_ ?_
    · exact Function.update_of_ne hj ..
    · intro _
      refine ⟨h.cached.dev ip hr, rfl, (alloc _).mpr hi, fun _ => ?_⟩
      rw [withAddr, Function.update_self, hD]
    · exact fun hn => absurd ⟨hr, hv⟩ hn
    · rw [withAddr, Function.update_self]
      exact withAddr_synced h0' past (h.cached.synced _ hi.2.1)
  · have keep : ∀ j m, V.ref (D j) m ≠ 0 →
        V.ref (withAddr D (ic ip).inum k b j) m = V.ref (D j) m := by
      intro j m hne
      rw [refs j m, if_neg]
      rintro ⟨rfl, rfl⟩
      exact hne ((Image.ref_direct hk).trans h0')
    refine ⟨?_, withAddr_fields _, fun m _ => keep _ m, fun _ _ _ _ => rfl, fun j _ hji => ?_⟩
    · exact nodes_congr h.laid alloc (fun j _ => withAddr_fields j) (fun j _ m _ => keep j m)
        fun _ _ _ _ _ _ => rfl
    · rw [withAddr, Function.update_of_ne hji]
      exact ⟨rfl, fun _ => rfl⟩

end Assign

section Entry

variable {k : ℕ}

/-- The image with the block `b` for entry `k` of the indirect block `a`. -/
def Image.putEntry (V : Image) (a k b : ℕ) : Image :=
  Function.update V a (some ((V.block a).setEntry k b))

theorem ref_putEntry (h : Laid V D) (hi : Alloc D i) (ha : (D i).addr NDIRECT ≠ 0)
    (hk : k < NINDIRECT) (hb : b < 2 ^ 32) (hj : Alloc D j) (m : ℕ) :
    (V.putEntry ((D i).addr NDIRECT) k b).ref (D j) m =
      if j = i ∧ m = NDIRECT + 1 + k then b else V.ref (D j) m := by
  have href : ∀ j, V.ref (D j) NDIRECT = (D j).addr NDIRECT :=
    fun j => Image.ref_direct (Nat.le_refl _)
  unfold Image.putEntry
  by_cases hji : j = i
  · subst hji
    by_cases hm : m ≤ NDIRECT
    · rw [Image.ref_direct hm, Image.ref_direct hm, if_neg (by omega)]
    rw [Image.ref_entry (by omega) ha, Image.ref_entry (by omega) ha, Image.block_update_self]
    by_cases hmk : m = NDIRECT + 1 + k
    · subst hmk
      rw [if_pos ⟨rfl, rfl⟩, Nat.add_sub_cancel_left, Block.entry_setEntry_self hk hb]
    · rw [if_neg fun h => hmk h.2, Block.entry_setEntry_of_ne (by omega)]
  · rw [if_neg fun h => hji h.1]
    refine Image.ref_update_of_ne (fun he => hji ?_) m
    refine ((h.inj i j hi hj NDIRECT (by decide) NDIRECT (by decide) ?_ ?_).1).symm
    · rwa [href]
    · rw [href, href, he]

/-- A new block becomes an entry of the indirect block of an inode. -/
theorem Ok.setEntry (h : Ok V D ic) (hi : Alloc D i) (ha : (D i).addr NDIRECT ≠ 0)
    (hk : k < NINDIRECT) (h0 : V.ref (D i) (NDIRECT + 1 + k) = 0) (fresh : Fresh V D b) :
    Ok (V.putEntry ((D i).addr NDIRECT) k b) D ic ∧
      Grown i V D (V.putEntry ((D i).addr NDIRECT) k b) D := by
  have own := h.laid.addr_own hi (Nat.le_refl _) ha
  have hb : b < 2 ^ 32 := Nat.lt_trans fresh.lt (by decide)
  have refs := fun j hj m => ref_putEntry (j := j) h.laid hi ha hk hb hj m
  refine ⟨⟨?_, h.cached.of_dino fun j hj => ?_⟩, ?_⟩
  · refine h.laid.assign fresh (fun _ => Iff.rfl) (fun _ => rfl) (fun _ => rfl)
      (fun j hj m _ => refs j hj m) (fun c => ?_) fun c hc => ?_
    · exact Image.bit_update_of_ne (Nat.ne_of_gt own.1) c
    · unfold Image.putEntry at hc
      by_cases hca : c = (D i).addr NDIRECT
      · subst hca
        rw [Function.update_self] at hc
        cases hc
      · rwa [Function.update_of_ne hca] at hc
  · exact Image.dino_update_of_le (Nat.le_of_lt own.1) hj
  · have keep : ∀ j, Alloc D j → ∀ m, V.ref (D j) m ≠ 0 →
        (V.putEntry ((D i).addr NDIRECT) k b).ref (D j) m = V.ref (D j) m := by
      intro j hj m hne
      rw [refs j hj m, if_neg]
      rintro ⟨rfl, rfl⟩
      exact hne h0
    have same : ∀ j, Alloc D j → ∀ m < NREF, m ≠ NDIRECT → V.ref (D j) m ≠ 0 →
        V.putEntry ((D i).addr NDIRECT) k b (V.ref (D j) m) = V (V.ref (D j) m) :=
      fun j hj m hm hmd hr => Function.update_of_ne (h.laid.data_ne_indirect hj hm hmd hr hi) ..
    refine ⟨?_, .refl _, fun m _ => keep i hi m, same i hi, fun j hj hji => ⟨rfl, fun m => ?_⟩⟩
    · exact nodes_congr h.laid (fun _ => Iff.rfl) (fun j _ => .refl _) (fun j hj m _ => keep j hj m)
        same
    · rw [refs j hj m, if_neg fun he => hji he.1]

end Entry

section Write

variable {k : ℕ} {x : Option Block}

/-- The contents of a block of a file change, and are certain again if it is a directory. -/
theorem Ok.write (h : Ok V D ic) (hi : Alloc D i) (hk : k < NREF) (hne : k ≠ NDIRECT)
    (hr : V.ref (D i) k ≠ 0) (sure : x = none → (D i).type ≠ T_DIR) :
    Ok (Function.update V (V.ref (D i) k) x) D ic ∧
      (∀ j, j ≠ i → nodes (Function.update V (V.ref (D i) k) x) D j = nodes V D j) ∧
      (∀ m, Image.ref (Function.update V (V.ref (D i) k) x) (D i) m = V.ref (D i) m) ∧
      (∀ n, n / BSIZE < MAXFILE → Image.rawByte (Function.update V (V.ref (D i) k) x) (D i) n =
        if Image.dataRef (n / BSIZE) = k then x.map (·.byte (n % BSIZE))
        else V.rawByte (D i) n) ∧ Apart i V D (Function.update V (V.ref (D i) k) x) D := by
  have own := h.laid.own i hi k hk hr
  have refs : ∀ j, Alloc D j → ∀ m,
      Image.ref (Function.update V (V.ref (D i) k) x) (D j) m = V.ref (D j) m :=
    fun j hj => Image.ref_update_of_ne (h.laid.data_ne_indirect hi hk hne hr hj)
  have bits := Image.bit_update_of_ne (V := V) (x := x) (Nat.ne_of_gt own.1)
  refine ⟨⟨?_, h.cached.of_dino fun j hj => ?_⟩, ?_, refs i hi, ?_, fun j hj _ => ⟨rfl, refs j hj⟩⟩
  · refine h.laid.of_same refs (fun c hc => ?_) (fun c hc => by rwa [bits]) fun j hj m hm ht hmr hn => ?_
    · by_cases hcb : c = V.ref (D i) k
      · omega
      · rw [Function.update_of_ne hcb] at hc
        exact h.laid.known c hc
    · by_cases he : V.ref (D j) m = V.ref (D i) k
      · obtain ⟨rfl, rfl⟩ := h.laid.inj j i hj hi m hm k hk hmr he
        rw [Function.update_self]
        exact fun hx => sure hx (ht.resolve_left hne)
      · rwa [Function.update_of_ne he]
  · exact Image.dino_update_of_le (Nat.le_of_lt own.1) hj
  · intro j hji
    by_cases hj : Alloc D j
    · rw [nodes_of_alloc hj, nodes_of_alloc hj]
      refine node_congr (.refl _) (fun n _ => refs j hj _) fun n hn => ?_
      refine Function.update_of_ne (fun e => hji ?_) ..
      exact (h.laid.inj j i hj hi _ (Image.dataRef_lt (h.laid.index_lt hj hn)) k hk
        (h.laid.full j hj n hn) e).1
    · rw [nodes_of_free hj, nodes_of_free hj]
  · intro n hn
    unfold Image.rawByte
    rw [refs i hi]
    split
    next he => rw [he, Function.update_self]
    next he =>
      rw [Function.update_of_ne]
      intro e
      exact he (h.laid.inj i i hi hi k hk _ (Image.dataRef_lt hn) hr e.symm).2.symm

end Write

end EasyXv6.Fs
