import EasyXv6.Fs.Refs

set_option autoImplicit false

/-!
# Taking and giving up references

What `iget`, `ilock`, `iput` and `ialloc` do to the files and to the references.
-/
namespace EasyXv6.Fs.Vol
open Lib

variable {o : ℤ} {k : ℕ} {N : ℕ → Node} {R R' : List Ref} {L M : List (Fin NINODE)} {s : Vol}
  {ip : Fin NINODE} {i cap : ℕ} {full : Prop}

theorem Fsys.perm (h : Fsys o k N R L s) (p : R.Perm R') : Fsys o k N R' L s :=
  ⟨h.shows, h.refs.perm p⟩

theorem Fsys.weaken (h : Fsys o k N R L s) (hL : ∀ jp ∈ M, jp ∈ L) : Fsys o k N R M s :=
  ⟨h.shows, h.refs.weaken hL⟩

theorem Fsys.mono {m : ℕ} (h : Fsys o k N R L s) (hkm : k ≤ m) : Fsys o m N R L s := by
  obtain ⟨V, D, l, at', nodes, fits⟩ := h.shows
  exact ⟨⟨V, D, l, at', nodes, fits.mono hkm⟩, h.refs⟩

/-- The inode of a reference is in use. -/
theorem Fsys.alloc (h : Fsys o k N R L s) (hi : (ip, i) ∈ R) :
    1 ≤ i ∧ i < NINODES ∧ (N i).type ≠ 0 := by
  obtain ⟨V, D, l, at', rfl, -⟩ := h.shows
  have alloc := at'.ok.cached.alloc ip (h.refs.live (mem_slots hi))
  rw [h.refs.inum _ hi] at alloc
  exact ⟨alloc.1, alloc.2.1, alloc.type_ne⟩

/-- A slot has one inode. -/
theorem Fsys.inum_eq {j : ℕ} (h : Fsys o k N R L s) (hi : (ip, i) ∈ R) (hj : (ip, j) ∈ R) : i = j :=
  (h.refs.inum _ hi).symm.trans (h.refs.inum _ hj)

/-- An inode is in one slot. -/
theorem Fsys.slot_eq {jp : Fin NINODE} (h : Fsys o k N R L s) (hi : (ip, i) ∈ R) (hj : (jp, i) ∈ R) :
    ip = jp := by
  obtain ⟨V, D, l, at', -, -⟩ := h.shows
  refine at'.ok.cached.unique ip jp (h.refs.live (mem_slots hi)) (h.refs.live (mem_slots hj)) ?_
  exact (h.refs.inum _ hi).trans (h.refs.inum _ hj).symm

theorem Fsys.inum (h : Fsys o k N R L s) (hi : (ip, i) ∈ R) : (s.inode ip).inum = i :=
  h.refs.inum _ hi

theorem Fsys.dev (h : Fsys o k N R L s) (hi : (ip, i) ∈ R) : (s.inode ip).dev = ROOTDEV := by
  obtain ⟨V, D, l, at', -, -⟩ := h.shows
  exact at'.ok.cached.dev ip (h.refs.live (mem_slots hi))

theorem Fsys.isLoaded (h : Fsys o k N R L s) (hL : ip ∈ L) : Loaded s ip :=
  ⟨h.refs.live (h.refs.loaded ip hL).1, (h.refs.loaded ip hL).2⟩

/-- The cached copy shows the fields of the node. -/
theorem Fsys.node (h : Fsys o k N R L s) (hi : (ip, i) ∈ R) (hL : ip ∈ L) :
    ∃ V : Image, N i = V.node (s.inode ip).d := by
  obtain ⟨V, D, l, at', rfl, -⟩ := h.shows
  have node := at'.node (h.isLoaded hL)
  rw [h.inum hi] at node
  exact ⟨V, node⟩

theorem Fsys.type (h : Fsys o k N R L s) (hi : (ip, i) ∈ R) (hL : ip ∈ L) :
    (s.inode ip).d.type = (N i).type := by
  obtain ⟨V, hV⟩ := h.node hi hL
  rw [hV]
  rfl

theorem Fsys.nlink (h : Fsys o k N R L s) (hi : (ip, i) ∈ R) (hL : ip ∈ L) :
    (s.inode ip).d.nlink = (N i).nlink := by
  obtain ⟨V, hV⟩ := h.node hi hL
  rw [hV]
  rfl

theorem Fsys.size (h : Fsys o k N R L s) (hi : (ip, i) ∈ R) (hL : ip ∈ L) :
    (s.inode ip).d.size.toNat = (N i).size := by
  obtain ⟨V, hV⟩ := h.node hi hL
  rw [hV]
  rfl

theorem Fsys.size_le (h : Fsys o k N R L s) (hi : (ip, i) ∈ R) (hL : ip ∈ L) :
    (N i).size ≤ MAXFILE * BSIZE := by
  rw [← h.size hi hL]
  obtain ⟨V, D, l, at', -⟩ := h.shows
  exact at'.size_le (h.isLoaded hL)

/-- The block `b` is one of the inode in the slot `ip`. -/
def Owns (s : Vol) (ip : Fin NINODE) (b : ℕ) : Prop :=
  b ≠ 0 ∧ ∃ k < NREF, Image.ref (fun c => some (s.view c)) (s.inode ip).d k = b

theorem FsAt.owns_iff {held : List (Fin NBUF × ℕ)} {l : List ℕ} {V : Image} {D : ℕ → Dinode} {b : ℕ}
    (h : FsAt o held l V D s) (hl : Loaded s ip) :
    Owns s ip b ↔ b ≠ 0 ∧ ∃ k < NREF, V.ref (D (s.inode ip).inum) k = b := by
  have hD := h.loaded hl
  have alloc := h.alloc hl
  have same : ∀ k, Image.ref (fun c => some (s.view c)) (s.inode ip).d k =
      V.ref (D (s.inode ip).inum) k := by
    intro k
    rw [hD]
    by_cases hk : k ≤ NDIRECT
    · rw [Image.ref_direct hk, Image.ref_direct hk]
    by_cases h0 : (s.inode ip).d.addr NDIRECT = 0
    · rw [Image.ref_entry_zero (by omega) h0, Image.ref_entry_zero (by omega) h0]
    · rw [Image.ref_entry (by omega) h0, Image.ref_entry (by omega) h0, Image.block_of rfl]
      have own := h.ok.laid.addr_own alloc (Nat.le_refl _) (by rwa [hD])
      have sure := h.ok.laid.indirect_sure alloc (by rwa [hD])
      rw [hD] at own sure
      rw [h.blk.block_eq (Nat.le_of_lt (Nat.lt_trans (by decide) own.1)) sure]
  unfold Owns
  simp only [same]

/-- The copy of the inode `i` that the kernel reads from its block. -/
def stored (s : Vol) (i : ℕ) : Dinode := (s.view (INODES + i / IPB)).dinode (i % IPB)

/-- Between the two states nothing has been written: neither the log nor the disk has changed, the
    slots of `L` have kept their copies, and a slot that was loaded is as its block says. -/
structure Looked (L : List (Fin NINODE)) (s s' : Vol) : Prop where
  ctx : s'.blk.ctx = s.blk.ctx
  disk : s'.blk.bio.disk = s.blk.bio.disk
  fall : ∀ c, s'.view c = s.view c ∨ s'.view c = s.blk.bio.disk c
  sure : ∀ c, c ∈ Log.LogCtx.logged s.blk.ctx ∨ INODES ≤ c ∧ c ≤ BITMAP → s'.view c = s.view c
  keep : ∀ jp ∈ L, (s'.inode jp).d = (s.inode jp).d
  owns : ∀ jp ∈ L, ∀ b, Owns s' jp b ↔ Owns s jp b
  fresh : ∀ jp, Loaded s' jp → Loaded s jp ∧ (s'.inode jp).inum = (s.inode jp).inum ∧
    (s'.inode jp).d = (s.inode jp).d ∨
      (s'.inode jp).inum < NINODES ∧ (s'.inode jp).d = s.stored (s'.inode jp).inum

section Looked

variable {l : List ℕ} {V : Image} {D D' : ℕ → Dinode} {t u : Vol}

theorem Looked.refl (L : List (Fin NINODE)) (s : Vol) : Looked L s s :=
  ⟨rfl, rfl, fun _ => Or.inl rfl, fun _ _ => rfl, fun _ _ => rfl, fun _ _ _ => Iff.rfl,
    fun _ h => Or.inl ⟨h, rfl, rfl⟩⟩

theorem Looked.stored {i : ℕ} (h : Looked L s t) (hi : i < NINODES) : t.stored i = s.stored i := by
  unfold Vol.stored
  rw [h.sure _ (Or.inr ⟨Nat.le_add_right .., Nat.le_of_lt (Image.inodeBlock_le hi)⟩)]

theorem Looked.trans (h : Looked L s t) (h' : Looked L t u) : Looked L s u := by
  refine ⟨h'.ctx.trans h.ctx, h'.disk.trans h.disk, fun c => ?_, fun c hc => ?_, fun jp hj =>
    (h'.keep jp hj).trans (h.keep jp hj), fun jp hj b => (h'.owns jp hj b).trans (h.owns jp hj b),
    fun jp hj => ?_⟩
  · rcases h'.fall c with e | e
    · rw [e]
      exact h.fall c
    · rw [e, h.disk]
      exact Or.inr rfl
  · rw [← h.ctx] at hc
    rw [h'.sure c hc]
    rw [h.ctx] at hc
    exact h.sure c hc
  · rcases h'.fresh jp hj with ⟨old, inum, same⟩ | ⟨lt, same⟩
    · rcases h.fresh jp old with ⟨old', inum', same'⟩ | ⟨lt', same'⟩
      · exact Or.inl ⟨old', inum.trans inum', same.trans same'⟩
      · rw [inum, same]
        exact Or.inr ⟨lt', same'⟩
    · rw [h.stored lt] at same
      exact Or.inr ⟨lt, same⟩

theorem Looked.mono (h : Looked L s t) (sub : ∀ jp ∈ M, jp ∈ L) : Looked M s t :=
  ⟨h.ctx, h.disk, h.fall, h.sure, fun jp hj => h.keep jp (sub jp hj),
    fun jp hj => h.owns jp (sub jp hj), h.fresh⟩

/-- The blocks that are sure do not change when buffers are read. -/
theorem FsAt.sure (h : FsAt o [] l V D s) (h' : FsAt o [] l V D' t) :
    ∀ c, c ∈ Log.LogCtx.logged s.blk.ctx ∨ INODES ≤ c ∧ c ≤ BITMAP → t.view c = s.view c := by
  intro c hc
  obtain ⟨x, hx, home⟩ : ∃ x, V c = some x ∧ ¬ Log.InLog c := by
    rw [h.blk.inv.ctx.logged] at hc
    rcases hc with hc | ⟨high, low⟩
    · obtain ⟨x, hx⟩ := Option.ne_none_iff_exists'.mp (h.blk.inv.disj c hc)
      exact ⟨x, hx, (h.blk.inv.home c hc).2⟩
    · obtain ⟨x, hx⟩ := Option.ne_none_iff_exists'.mp (known_low h.ok.laid c low)
      exact ⟨x, hx, not_inLog_of_high high⟩
  rw [h.blk.view c x home hx, h'.blk.view c x home hx]

theorem FsAt.looked (h : FsAt o [] l V D s) (h' : FsAt o [] l V D t) (only : OnlyData s t)
    (hL : ∀ jp ∈ L, Loaded s jp) : Looked L s t := by
  refine ⟨?_, only.disk, only.fall, h.sure h', fun jp _ => ?_, fun jp hj b => ?_, fun jp hj => ?_⟩
  · rw [only.rest]
  · rw [only.inode]
  · have hl := hL jp hj
    have hl' : Loaded t jp := ⟨by rw [only.inode]; exact hl.live, by rw [only.inode]; exact hl.valid⟩
    rw [h.owns_iff hl, h'.owns_iff hl', only.inode]
  · refine Or.inl ⟨⟨?_, ?_⟩, ?_, ?_⟩
    · rw [← only.inode]
      exact hj.live
    · rw [← only.inode]
      exact hj.valid
    · rw [only.inode]
    · rw [only.inode]

/-- Only a slot of the cache has changed. -/
theorem looked_setInode {ip : Fin NINODE} {x : Inode} (keep : ip ∈ L → x.d = (s.inode ip).d)
    (fresh : 0 < x.ref → x.valid = true → Loaded s ip ∧ x.inum = (s.inode ip).inum ∧
      x.d = (s.inode ip).d ∨ x.inum < NINODES ∧ x.d = s.stored x.inum) :
    Looked L s (s.setInode ip x) := by
  have same : ∀ jp ∈ L, ((s.setInode ip x).inode jp).d = (s.inode jp).d := by
    intro jp hj
    by_cases he : jp = ip
    · subst he
      rw [setInode_self, keep hj]
    · rw [setInode_of_ne _ he]
  refine ⟨rfl, rfl, fun c => Or.inl rfl, fun c _ => rfl, same, fun jp hj b => ?_, fun jp hj => ?_⟩
  · unfold Owns
    rw [same jp hj]
    exact Iff.rfl
  · by_cases he : jp = ip
    · subst he
      obtain ⟨live, valid⟩ := hj
      rw [setInode_self] at live valid ⊢
      exact fresh live valid
    · obtain ⟨live, valid⟩ := hj
      rw [setInode_of_ne _ he] at live valid ⊢
      exact Or.inl ⟨⟨live, valid⟩, rfl, rfl⟩

end Looked

/-- `iget` changes nothing but the references. -/
theorem FsAt.iget {V : Image} {D : ℕ → Dinode} {l : List ℕ} (at' : FsAt o [] l V D s)
    (refs : Refs R L s.inode) (alloc : Alloc D i) (hcap : used R ≤ cap) :
    Comp.Sat (iget ROOTDEV i) s (Limit cap full) fun ip s' => FsAt o [] l V D s' ∧
      Refs ((ip, i) :: R) L s'.inode ∧ s'.user = s.user ∧ Looked L s s' := by
  unfold Vol.iget
  refine .get ?_
  split
  next ip found =>
    obtain ⟨live, -, inum⟩ : 0 < (s.inode ip).ref ∧ (s.inode ip).dev = ROOTDEV ∧
        (s.inode ip).inum = i := by simpa using List.find?_some found
    refine .modify (.pure ⟨⟨at'.blk.congr rfl rfl, at'.ok.dup live⟩, ?_, rfl,
      looked_setInode (fun _ => rfl) fun _ valid => Or.inl ⟨⟨live, valid⟩, rfl, rfl⟩⟩)
    exact refs.add rfl inum (fun _ => inum) fun hL => (refs.loaded ip hL).2
  next none =>
    split
    next ip free =>
      have zero : (s.inode ip).ref = 0 := by simpa using List.find?_some free
      have out : ip ∉ R.map Prod.fst := fun hm => absurd (refs.live hm) (by omega)
      have sole : ∀ jp, 0 < (s.inode jp).ref → (s.inode jp).inum ≠ i := by
        intro jp live same
        have := List.find?_eq_none.mp none jp (List.mem_finRange jp)
        simp [live, same, at'.ok.cached.dev jp live] at this
      refine .modify (.pure ⟨⟨at'.blk.congr rfl rfl, at'.ok.get alloc zero sole⟩, ?_, rfl,
        looked_setInode (fun hL => absurd (refs.loaded ip hL).1 out) nofun⟩)
      exact refs.add (by rw [zero]; rfl) rfl (fun hm => absurd hm out)
        fun hL => absurd (refs.loaded ip hL).1 out
    next busy =>
      refine .halt (Or.inr ⟨rfl, Nat.le_trans (refs.full fun ip h0 => ?_) hcap⟩)
      simpa [h0] using List.find?_eq_none.mp busy ip (List.mem_finRange ip)

theorem iget_sat (h : Fsys o k N R L s) (hi : (N i).type ≠ 0) (hcap : used R ≤ cap) :
    Comp.Sat (iget ROOTDEV i) s (Limit cap full) fun ip s' => Fsys o k N ((ip, i) :: R) L s' ∧
      s'.user = s.user ∧ Looked L s s' := by
  obtain ⟨V, D, l, at', rfl, fits⟩ := h.shows
  refine (at'.iget h.refs (nodes_type_ne hi) hcap).post ?_
  rintro ip s' ⟨at₁, refs₁, same⟩
  exact ⟨⟨⟨V, D, l, at₁, rfl, fits⟩, refs₁⟩, same⟩

theorem idup_sat (h : Fsys o k N R L s) (hi : (ip, i) ∈ R) :
    Comp.Sat (idup ip) s (Limit cap full) fun jp s' => jp = ip ∧ Fsys o k N ((ip, i) :: R) L s' ∧
      s'.user = s.user ∧ Looked L s s' := by
  obtain ⟨V, D, l, at', rfl, fits⟩ := h.shows
  unfold idup
  refine .modify (.pure ⟨rfl, ⟨⟨V, D, l, ⟨at'.blk.congr rfl rfl,
    at'.ok.dup (h.refs.live (mem_slots hi))⟩, rfl, fits⟩, ?_⟩, rfl,
    looked_setInode (fun _ => rfl) fun _ valid => Or.inl ⟨⟨h.refs.live (mem_slots hi), valid⟩, rfl,
      rfl⟩⟩)
  exact h.refs.add rfl (h.inum hi) (fun _ => h.inum hi) fun hL => (h.refs.loaded ip hL).2

theorem ilock_sat (h : Fsys o k N R L s) (hi : (ip, i) ∈ R) {E : String → Vol → Prop} :
    Comp.Sat (ilock ip) s E fun _ s' => Fsys o k N R (ip :: L) s' ∧ s'.user = s.user ∧
      Looked L s s' := by
  obtain ⟨V, D, l, at', rfl, fits⟩ := h.shows
  have hm := mem_slots hi
  have live := h.refs.live hm
  have alloc := at'.ok.cached.alloc ip live
  unfold ilock
  refine .get (.ite (fun dead => ?_) fun _ => .ite (fun valid => ?_) fun invalid => ?_)
  · exact absurd live (by omega)
  · refine .pure ⟨⟨⟨V, D, l, at', rfl, fits⟩, h.refs.congr (fun _ => rfl) (fun _ _ => rfl) ?_⟩, rfl,
      .refl L s⟩
    intro jp hj
    rcases List.mem_cons.mp hj with rfl | hj
    · exact ⟨hm, valid⟩
    · exact h.refs.loaded jp hj
  · have invalid : (s.inode ip).valid = false := by simpa using invalid
    have low := Image.inodeBlock_le alloc.2.1
    have block : IBLOCK (s.inode ip).inum s.sb = INODES + (s.inode ip).inum / IPB := by
      rw [at'.blk.sb, IBLOCK, Nat.add_comm]
      rfl
    have len := at'.blk.inv.short
    dsimp only
    rw [at'.ok.cached.dev ip live, block]
    refine .call (bread_sat at'.blk (Nat.lt_trans low (by decide))
      (by simp only [Spare, NBUF, List.length_nil]; omega)) ?_
    rintro bp s₁ ⟨h₁, -, -, again₁⟩
    refine .call (data_sat h₁ List.mem_cons_self) ?_
    rintro _ _ ⟨rfl, rfl⟩
    rw [h₁.block_eq (Nat.le_add_right ..) (known_low at'.ok.laid _ (Nat.le_of_lt low))]
    refine .call (brelse_sat h₁) ?_
    rintro _ s₂ ⟨h₂, -, -, again₂⟩
    have again := again₁.trans again₂
    have only := again.onlyBlk
    have ok := at'.ok.load live invalid
    have stored := ok.cached.loaded ip (by rwa [Function.update_self]) (by rw [Function.update_self])
    rw [Function.update_self] at stored
    refine .modify (.ite (fun free => ?_) fun _ => ?_)
    · exact absurd (stored ▸ free) alloc.2.2
    · refine .pure ⟨⟨⟨V, D, l, ⟨h₂.congr rfl rfl, ?_⟩, rfl, fits⟩, ?_⟩, only.user,
        (at'.looked ⟨h₂, only.inode ▸ at'.ok⟩ again.onlyData fun jp => h.isLoaded).trans
          (looked_setInode (fun hL => ?_) fun _ _ => Or.inr ⟨?_, ?_⟩)⟩
      · change Ok V D (Function.update s₂.inode ip _)
        rw [only.inode]
        exact ok
      · change Refs R (ip :: L) (Function.update s₂.inode ip _)
        rw [only.inode]
        exact h.refs.set rfl rfl hm rfl
      · rw [(h.refs.loaded ip hL).2] at invalid
        cases invalid
      · rw [only.inode]
        exact alloc.2.1
      · dsimp only
        rw [only.inode, Vol.stored, h₂.block_eq (Nat.le_add_right ..)
          (known_low at'.ok.laid _ (Nat.le_of_lt low))]

theorem iunlock_sat (h : Fsys o k N R L s) (hi : (ip, i) ∈ R) {E : String → Vol → Prop} :
    Comp.Sat (iunlock ip) s E fun _ s' => s' = s := by
  unfold iunlock
  refine .get (.ite (fun dead => ?_) fun _ => .pure rfl)
  exact absurd (h.refs.live (mem_slots hi)) (by omega)


/-- A slot with one reference more than those of `R`. -/
theorem Refs.ref_eq_one {ic : Fin NINODE → Inode} (h : Refs ((ip, i) :: R) L ic) :
    (ic ip).ref = 1 ↔ ip ∉ R.map Prod.fst := by
  rw [h.count, List.map_cons, List.count_cons_self, ← List.count_eq_zero]
  omega

/-- `iput` of a reference that is not the last one of an inode without links. -/
theorem iput_keep_sat (h : Fsys o k N ((ip, i) :: R) L s)
    (hL : ∀ jp ∈ M, jp ∈ L ∧ jp ∈ R.map Prod.fst)
    (keep : ip ∈ R.map Prod.fst ∨ (N i).nlink ≠ 0 ∨ i = ROOTINO) {E : String → Vol → Prop} :
    Comp.Sat (iput ip) s E fun _ s' => Fsys o k N R M s' ∧ s'.user = s.user ∧ Looked M s s' := by
  obtain ⟨V, D, l, at', rfl, fits⟩ := h.shows
  have live := h.refs.live (mem_slots (R := (ip, i) :: R) List.mem_cons_self)
  have inum : (s.inode ip).inum = i := h.inum List.mem_cons_self
  -- what is left to show once nothing has been freed
  have dropped : Fsys o k (nodes V D) R M
      (s.setInode ip { s.inode ip with ref := (s.inode ip).ref - 1 }) := by
    obtain ⟨D', ok, same⟩ := at'.ok.put live
    refine ⟨⟨V, D', l, ⟨at'.blk.congr rfl rfl, ok⟩, same, fits⟩, ?_⟩
    exact h.refs.drop rfl (fun _ => ⟨rfl, rfl⟩) hL
  have looked : Looked M s (s.setInode ip { s.inode ip with ref := (s.inode ip).ref - 1 }) :=
    looked_setInode (fun _ => rfl) fun _ valid => Or.inl ⟨⟨live, valid⟩, rfl, rfl⟩
  unfold iput
  refine .gets (.ite (fun _ => .modified ⟨dropped, rfl, looked⟩) fun notRoot => ?_)
  refine .call (P := fun _ t => t = s) ?_ ?_
  · unfold iputFree
    refine .gets (.ite (fun free => ?_) fun _ => .pure rfl)
    obtain ⟨last, valid, none⟩ := free
    rcases keep with more | linked | root
    · exact absurd more (h.refs.ref_eq_one.mp last)
    · refine absurd ?_ linked
      rw [← none, ← inum, at'.node ⟨live, valid⟩]
      rfl
    · exact absurd ⟨inum.trans root, last⟩ notRoot
  · rintro _ _ rfl
    exact .modified ⟨dropped, rfl, looked⟩

/-- `iput` of the last reference of an inode without links frees it and its blocks. -/
theorem iput_free_sat (h : Fsys 1 k N ((ip, i) :: R) L s) (hk : k ≤ 14)
    (hL : ∀ jp ∈ M, jp ∈ L ∧ jp ∈ R.map Prod.fst) (last : ip ∉ R.map Prod.fst) (loaded : ip ∈ L)
    (unlinked : (N i).nlink = 0) (notRoot : i ≠ ROOTINO) :
    Comp.Sat (iput ip) s (Limit cap full) fun _ s' => Fsys 1 k (Function.update N i .free) R M s' ∧
      ∀ b, InUse s' b ↔ InUse s b ∧ ¬ Owns s ip b := by
  have hl := h.isLoaded loaded
  have nlink := h.nlink List.mem_cons_self loaded
  obtain ⟨V, D, l, at', rfl, fits⟩ := h.shows
  have inum : (s.inode ip).inum = i := h.inum List.mem_cons_self
  have one := h.refs.ref_eq_one.mpr last
  have alloc := at'.alloc hl
  have room : META.card + k ≤ 28 := by rw [META_card]; omega
  have inBlocks := inode_mem_META alloc.2.1
  unfold iput
  refine .gets (.ite (fun root => absurd (inum.symm.trans root.1) notRoot) fun _ => ?_)
  unfold iputFree
  refine .bind (.gets (.ite (fun _ => ?_) fun used => ?_))
  · refine .call (itrunc_sat at' hl fits bitmap_mem_META inBlocks room) ?_
    rintro _ t₁ ⟨V₁, D₁, l₁, h₁, inode₁, fits₁, -, -, nodes₁, bits₁⟩
    obtain ⟨d, hd⟩ : ∃ d, d = ({ (t₁.inode ip).d with type := 0 } : Dinode) := ⟨_, rfl⟩
    have slot₁ : t₁.inode ip = { s.inode ip with d := (t₁.inode ip).d } := by
      conv_lhs => rw [inode₁]
      rw [Function.update_self]
    have one₁ : (t₁.inode ip).ref = 1 := by rw [slot₁]; exact one
    have inum₁ : (t₁.inode ip).inum = (s.inode ip).inum := by rw [slot₁]
    obtain ⟨t₂, ht₂⟩ : ∃ t₂, t₂ = t₁.setInode ip { t₁.inode ip with d := d } := ⟨_, rfl⟩
    have set : t₁.setInode ip { t₁.inode ip with d := { (t₁.inode ip).d with type := 0 } } = t₂ := by
      rw [ht₂, hd]
    refine .modify ?_
    rw [set]
    have slot₂ : t₂.inode ip = { t₁.inode ip with d := d } := by rw [ht₂, setInode_self]
    have at₂ : At 1 [] l₁ V₁ t₂ := by
      rw [ht₂]
      exact h₁.blk.congr rfl rfl
    refine .call (iupdate_sat at₂ ?_ ?_ (known_low h₁.ok.laid) fits₁ ?_ (Or.inl room) (Nat.zero_le _)) ?_
    · rw [slot₂]
      exact h₁.ok.cached.dev ip (by omega)
    · rw [slot₂]
      dsimp only
      rw [inum₁]
      exact alloc.2.1
    · rw [slot₂]
      dsimp only
      rwa [inum₁]
    rintro _ t₃ ⟨l₃, h₃, fits₃, -, only₃, -⟩
    have slot₃ : t₃.inode ip = { t₁.inode ip with d := d } := by rw [only₃.inode, slot₂]
    obtain ⟨ok, freed⟩ := h₁.ok.free one₁ (d := d) (by rw [hd])
    rw [slot₂] at h₃
    dsimp only at h₃
    -- the slots at the end
    obtain ⟨x, hx⟩ : ∃ x, x = ({ s.inode ip with d := d, valid := false, ref := 0 } : Inode) := ⟨_, rfl⟩
    have slots : Function.update t₁.inode ip { t₁.inode ip with d := d, valid := false, ref := 0 } =
        Function.update s.inode ip x := by
      rw [slot₁, inode₁, Function.update_idem, hx]
    refine .modified (.modified ?_)
    obtain ⟨t₄, ht₄⟩ : ∃ t₄, t₄ = t₃.setInode ip { t₃.inode ip with valid := false } := ⟨_, rfl⟩
    rw [← ht₄]
    have ic : (t₄.setInode ip { t₄.inode ip with ref := (t₄.inode ip).ref - 1 }).inode =
        Function.update s.inode ip x := by
      rw [ht₄, setInode_self, slot₃, ← slots, one₁]
      change Function.update (Function.update t₃.inode ip _) ip _ = _
      rw [Function.update_idem, only₃.inode, ht₂]
      exact Function.update_idem ..
    have at₄ : At 1 [] l₃ (V₁.putDino (t₁.inode ip).inum d) t₄ := by
      rw [ht₄]
      exact h₃.congr rfl rfl
    have low := known_low ok.laid _ (Nat.le_refl _)
    refine ⟨⟨⟨_, Function.update D₁ (t₁.inode ip).inum d, l₃, ⟨at₄.congr rfl rfl, ?_⟩, ?_, fits₃⟩, ?_⟩,
      fun b => ?_⟩
    · rw [ic, ← slots]
      exact ok
    · rw [freed, nodes₁, inum₁, inum, Function.update_idem]
    · rw [ic]
      exact h.refs.drop (by rw [hx, one]; rfl) (fun hm => absurd hm last) hL
    · rw [At.inUse_iff (s := t₄.setInode ip _) (at₄.congr rfl rfl) low,
        at'.blk.inUse_iff (known_low at'.ok.laid _ (Nat.le_refl _)), at'.owns_iff hl, Image.putDino,
        Image.bit_update_of_ne (Nat.ne_of_lt (Image.inodeBlock_le (by rw [inum₁]; exact alloc.2.1))),
        bits₁]
      refine and_congr_right fun _ => ⟨?_, fun hn k hk h0 he => ?_⟩
      · rintro apart ⟨h0, k, hk, rfl⟩
        exact apart k hk h0 rfl
      · exact hn ⟨he ▸ h0, k, hk, he⟩
  · refine absurd ⟨one, hl.valid, ?_⟩ used
    rw [nlink, unlinked]

theorem iallocAt_sat {type : BitVec 16} (h : Fsys 1 k N R L s) (hk : k ≤ 14)
    (ht : type = T_DIR ∨ type = T_FILE) (h1 : 1 ≤ i) (hi : i < NINODES) (hcap : used R ≤ cap) :
    Comp.Sat (iallocAt ROOTDEV type i) s (Limit cap full) fun r s' => match r with
      | none => Fsys 1 k N R L s'
      | some ip => 1 ≤ i ∧ i < NINODES ∧ N i = .free ∧ ip ∉ R.map Prod.fst ∧
          Fsys 1 k (Function.update N i (.fresh type)) ((ip, i) :: R) (ip :: L) s' := by
  obtain ⟨V, D, l, at', rfl, fits⟩ := h.shows
  have low := Image.inodeBlock_le hi
  have block : IBLOCK i s.sb = INODES + i / IPB := by
    rw [at'.blk.sb, IBLOCK, Nat.add_comm]
    rfl
  have home := not_inLog_of_high (Nat.le_add_right INODES (i / IPB))
  have known := known_low at'.ok.laid _ (Nat.le_of_lt low)
  have len := at'.blk.length_le fits
  rw [META_card] at len
  unfold iallocAt
  refine .get ?_
  rw [block]
  refine .call (bread_sat at'.blk (Nat.lt_trans low (by decide))
    (by simp only [Spare, NBUF, List.length_nil]; omega)) ?_
  rintro bp s₁ ⟨h₁, only₁, -⟩
  refine .call (data_sat h₁ List.mem_cons_self) ?_
  rintro _ _ ⟨rfl, rfl⟩
  rw [h₁.block_eq (Nat.le_add_right ..) known]
  refine .ite (fun free => ?_) fun _ => ?_
  · obtain ⟨ok, sole, shown⟩ := at'.ok.init h1 hi free ht
    refine modify_sat h₁ List.mem_cons_self home (by omega) _ ?_
    intro s₂ h₂ only₂
    rw [h₁.block_eq (Nat.le_add_right ..) known] at h₂
    refine .call (brelse_sat h₂) ?_
    rintro _ s₃ ⟨h₃, only₃, -⟩
    have only := only₁.trans (only₂.trans only₃)
    have unused : ¬ Alloc D i := fun ha =>
      ha.2.2 ((at'.ok.cached.synced i hi).fields.type ▸ free)
    have type0 : type ≠ 0 := by
      rcases ht with rfl | rfl <;> decide
    have at₃ : FsAt 1 [] _ (V.initDino i type) (Function.update D i (.fresh type)) s₃ :=
      ⟨h₃, only.inode ▸ ok⟩
    have refs₃ : Refs R L s₃.inode := only.inode ▸ h.refs
    have alloc : Alloc (Function.update D i (.fresh type)) i := by
      refine ⟨h1, hi, ?_⟩
      rw [Function.update_self]
      exact type0
    refine .call (at₃.iget refs₃ alloc hcap) ?_
    rintro ip s₄ ⟨at₄, refs₄, -, -⟩
    have inum₄ := refs₄.inum (ip, i) List.mem_cons_self
    have live₄ := refs₄.live (mem_slots (R := (ip, i) :: R) List.mem_cons_self)
    have out : ip ∉ R.map Prod.fst := by
      intro hm
      obtain ⟨x, hx, rfl⟩ := List.mem_map.mp hm
      refine sole x.1 (h.refs.live hm) ?_
      rw [h.refs.inum x hx, ← refs₄.inum x (List.mem_cons_of_mem _ hx), inum₄]
    refine .modify (.pure ⟨h1, hi, nodes_of_free unused, out, ⟨_, _, _, ⟨at₄.blk.congr rfl rfl,
      at₄.ok.fill live₄ ?_⟩, ?_, fits.known (inode_mem_META hi)⟩, ?_⟩)
    · dsimp only at inum₄
      rw [inum₄, Function.update_self]
    · rw [shown, node_fresh]
    · exact refs₄.set rfl rfl (mem_slots (R := (ip, i) :: R) List.mem_cons_self) rfl
  · refine .call (brelse_sat h₁) ?_
    rintro _ s₂ ⟨h₂, only₂, -⟩
    have only := only₁.trans only₂
    exact .pure ⟨⟨V, D, l, ⟨h₂, only.inode ▸ at'.ok⟩, rfl, fits⟩, only.inode ▸ h.refs⟩

theorem ialloc_sat {type : BitVec 16} (h : Fsys 1 k N R L s) (hk : k ≤ 14)
    (ht : type = T_DIR ∨ type = T_FILE) (hcap : used R ≤ cap) (hfull : full) :
    Comp.Sat (ialloc ROOTDEV type) s (Limit cap full) fun ip s' => ∃ i, 1 ≤ i ∧ i < NINODES ∧ N i = .free ∧
      ip ∉ R.map Prod.fst ∧
        Fsys 1 k (Function.update N i (.fresh type)) ((ip, i) :: R) (ip :: L) s' := by
  obtain ⟨V, D, l, at', -, -⟩ := h.shows
  have inodes : s.sb.ninodes - 1 = NINODES - 1 := by
    rw [at'.blk.sb]
    rfl
  unfold ialloc
  refine .get ?_
  rw [inodes]
  refine .call (Comp.Sat.firstSome (P := fun r s' => ∀ ip, r = some ip → ∃ i, 1 ≤ i ∧ i < NINODES ∧
    N i = .free ∧ ip ∉ R.map Prod.fst ∧
      Fsys 1 k (Function.update N i (.fresh type)) ((ip, i) :: R) (ip :: L) s')
    (fun xs t => (∀ i ∈ xs, 1 ≤ i ∧ i < NINODES) ∧ Fsys 1 k N R L t) ⟨fun i hi => ?_, h⟩ ?_ ?_) ?_
  · have := List.mem_range'_1.mp hi
    simp only [NINODES] at *
    omega
  · rintro i rest t ⟨bound, ht'⟩
    have hi := bound i List.mem_cons_self
    refine (iallocAt_sat ht' hk ht hi.1 hi.2 hcap).post ?_
    intro r u hr
    cases r with
    | none => exact ⟨fun j hj => bound j (List.mem_cons_of_mem _ hj), hr⟩
    | some ip =>
      rintro _ ⟨⟩
      exact ⟨i, hr⟩
  · rintro t _ ip ⟨⟩
  · intro r t hr
    cases r with
    | none => exact .halt (Or.inl ⟨hfull, Or.inr (Or.inl rfl)⟩)
    | some ip => exact .pure (hr ip rfl)

/-- The inode `i` in the slot `ip` has become `d`, and it has been written back. -/
structure Saved (ip : Fin NINODE) (i : ℕ) (d : Dinode) (s s' : Vol) : Prop where
  inode : s'.inode = Function.update s.inode ip { s.inode ip with d := d }
  disk : s'.blk.bio.disk = s.blk.bio.disk
  logged : Log.LogCtx.logged s'.blk.ctx = noted (INODES + i / IPB) (Log.LogCtx.logged s.blk.ctx)
  view : s'.view (INODES + i / IPB) = (s.view (INODES + i / IPB)).putDinode (i % IPB) d
  others : ∀ c, INODES ≤ c → c ≤ BITMAP → c ≠ INODES + i / IPB → s'.view c = s.view c

theorem Saved.stored_self {d : Dinode} {s' : Vol} (h : Saved ip i d s s') : s'.stored i = d := by
  unfold Vol.stored
  rw [h.view]
  exact Block.dinode_putDinode_self (Nat.mod_lt _ (by decide))

theorem Saved.stored_of_ne {d : Dinode} {s' : Vol} {j : ℕ} (h : Saved ip i d s s') (hj : j < NINODES)
    (hne : j ≠ i) : s'.stored j = s.stored j := by
  unfold Vol.stored
  by_cases hb : INODES + j / IPB = INODES + i / IPB
  · rw [hb, h.view, Block.dinode_putDinode_of_ne]
    simp only [IPB, BSIZE, DINODE_SIZE] at *
    omega
  · rw [h.others _ (Nat.le_add_right ..) (Nat.le_of_lt (Image.inodeBlock_le hj)) hb]

/-- Fields of an inode other than its type, size and pointers are set and then written back. -/
theorem setFields_sat {f : Dinode → Dinode} (h : Fsys 1 k N R L s) (hk : k ≤ 14)
    (hi : (ip, i) ∈ R) (hL : ip ∈ L) (type : ∀ d, (f d).type = d.type)
    (size : ∀ d, (f d).size = d.size) (addrs : ∀ d, (f d).addrs = d.addrs) :
    Comp.Sat (iupdate ip) (s.setInode ip { s.inode ip with d := f (s.inode ip).d }) (Limit cap full)
      fun _ s' => ∃ V : Image, N i = V.node (s.inode ip).d ∧
        Fsys 1 k (Function.update N i (V.node (f (s.inode ip).d))) R L s' ∧
          Saved ip i (f (s.inode ip).d) s s' ∧ ∀ jp ∈ L, ∀ b, Owns s' jp b ↔ Owns s jp b := by
  have hl := h.isLoaded hL
  have inum := h.inum hi
  obtain ⟨V, D, l, at', rfl, fits⟩ := h.shows
  have alloc := at'.alloc hl
  have node := at'.node hl
  have addr : ∀ d k, (f d).addr k = d.addr k := by
    intro d k
    unfold Dinode.addr
    rw [addrs]
  obtain ⟨x, hx⟩ : ∃ x, x = ({ s.inode ip with d := f (s.inode ip).d } : Inode) := ⟨_, rfl⟩
  rw [← hx]
  have slot : (s.setInode ip x).inode ip = { s.inode ip with d := f (s.inode ip).d } := by
    rw [setInode_self, hx]
  have at₁ : At 1 [] l V (s.setInode ip x) := at'.blk.congr rfl rfl
  refine (iupdate_sat at₁ ?_ ?_ (known_low at'.ok.laid) fits ?_ (Or.inl ?_) (Nat.zero_le _)).post ?_
  · rw [slot]
    exact at'.dev hl
  · rw [slot]
    exact alloc.2.1
  · rw [slot]
    exact inode_mem_META alloc.2.1
  · rw [META_card]
    omega
  rintro _ s₂ ⟨l₂, h₂, fits₂, log₂, only, -⟩
  rw [slot] at h₂ log₂
  dsimp only at h₂ log₂
  rw [inum] at log₂
  obtain ⟨ok, shown⟩ := at'.ok.iupdate (d := f (s.inode ip).d) hl.live hl.valid (type _)
    (fun k _ _ => Image.ref_congr (fun k _ => addr _ k) k) (by rw [size]; exact at'.size_le hl)
    fun n hn => by
      rw [size, ← at'.loaded hl] at hn
      rw [Image.ref_congr (fun k _ => addr _ k), ← at'.loaded hl]
      exact at'.ok.laid.full _ alloc n hn
  rw [← hx] at ok
  have ic : s₂.inode = Function.update s.inode ip x := only.inode
  have low := Nat.le_of_lt (Image.inodeBlock_le (inum ▸ alloc.2.1))
  refine ⟨V, inum ▸ node, ⟨⟨_, _, l₂, ⟨h₂, ic ▸ ok⟩, ?_, fits₂⟩, ?_⟩, ⟨?_, ?_, ?_, ?_, fun c high low' hc => ?_⟩,
    fun jp hj b => ?_⟩
  · rw [shown, inum]
  · rw [ic]
    refine (h.refs.set ?_ ?_ (mem_slots hi) ?_).weaken fun _ hj => List.mem_cons_of_mem _ hj
    all_goals rw [hx]
    exact hl.valid
  · rw [ic, hx]
  · exact only.disk
  · rw [h₂.inv.ctx.logged, at'.blk.inv.ctx.logged, log₂]
  · rw [h₂.block_eq (Nat.le_add_right ..) (known_low ok.laid _ low), inum, Image.putDino,
      Image.block_of (Function.update_self ..),
      at'.blk.block_eq (Nat.le_add_right ..) (known_low at'.ok.laid _ low)]
  · obtain ⟨x, hx⟩ := Option.ne_none_iff_exists'.mp (known_low at'.ok.laid c low')
    have home := not_inLog_of_high high
    rw [at'.blk.view c x home hx]
    refine h₂.view c x home ?_
    rw [← hx, inum]
    exact Function.update_of_ne hc ..
  · have hlj := h.isLoaded hj
    have same : ∀ jp, (s₂.inode jp).ref = (s.inode jp).ref ∧ (s₂.inode jp).inum = (s.inode jp).inum ∧
        ((s.inode jp).valid = true → (s₂.inode jp).valid = true) := by
      intro jp
      rw [ic]
      by_cases he : jp = ip
      · rw [he, Function.update_self, hx]
        exact ⟨rfl, rfl, fun hv => hv⟩
      · rw [Function.update_of_ne he]
        exact ⟨rfl, rfl, fun hv => hv⟩
    have hlj' : Loaded s₂ jp := ⟨by rw [(same jp).1]; exact hlj.live, (same jp).2.2 hlj.valid⟩
    have at₂ : FsAt 1 [] l₂ (V.putDino (s.inode ip).inum (f (s.inode ip).d))
        (Function.update D (s.inode ip).inum (f (s.inode ip).d)) s₂ := ⟨h₂, ic ▸ ok⟩
    rw [at₂.owns_iff hlj', at'.owns_iff hlj, (same jp).2.1]
    have high : ∀ c, BITMAP < c → V.putDino (s.inode ip).inum (f (s.inode ip).d) c = V c :=
      fun c hc => Image.putDino_of_high alloc.2.1 (Nat.le_of_lt hc)
    have refs : ∀ k, (V.putDino (s.inode ip).inum (f (s.inode ip).d)).ref
        (Function.update D (s.inode ip).inum (f (s.inode ip).d) (s.inode jp).inum) k =
          V.ref (D (s.inode jp).inum) k := by
      intro k
      by_cases he : (s.inode jp).inum = (s.inode ip).inum
      · have keep := at'.ok.laid.ref_of_high (at'.alloc hl) high k
        rw [at'.loaded hl] at keep
        rw [he, Function.update_self, Image.ref_congr (fun k _ => addr _ k), at'.loaded hl, keep]
      · rw [Function.update_of_ne he]
        exact at'.ok.laid.ref_of_high (at'.alloc hlj) high k
    simp only [refs]

end EasyXv6.Fs.Vol
