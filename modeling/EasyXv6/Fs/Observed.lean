import EasyXv6.Fs.Between

set_option autoImplicit false

/-!
# What the kernel's state says of the files

The inodes, their blocks and their contents, read from the cache and the disk alone.
-/
namespace EasyXv6.Fs.Vol
open Lib

/-- The copy of the inode `i` on the disk. -/
def onDisk (s : Vol) (i : ℕ) : Dinode := (s.blk.bio.disk (INODES + i / IPB)).dinode (i % IPB)

/-- The copy of the inode `i` that the kernel goes by: a loaded one, or else that on the disk. -/
def current (s : Vol) (i : ℕ) : Dinode :=
  match (List.finRange NINODE).find? fun ip =>
      decide (0 < (s.inode ip).ref ∧ (s.inode ip).valid = true ∧ (s.inode ip).inum = i) with
  | some ip => (s.inode ip).d
  | none => s.onDisk i

/-- The contents of the blocks, cached or on the disk. -/
def contents (s : Vol) : Image := fun c => some (s.view c)

/-- The inode `i` is in use. -/
def Used (s : Vol) (i : ℕ) : Prop := Alloc s.current i

/-- Pointer `k` of the inode `i`: a direct address, that of the indirect block or one of its entries. -/
def pointer (s : Vol) (i k : ℕ) : ℕ := s.contents.ref (s.current i) k

/-- The file of the inode `i`. -/
def file (s : Vol) (i : ℕ) : Node := s.contents.node (s.current i)

theorem block_contents (s : Vol) (c : ℕ) : s.contents.block c = s.view c := Image.block_of rfl

/-- Byte `q` of the file of the inode `i` is `a` in the cache and on the disk. -/
structure Shows (s : Vol) (i q : ℕ) (a : UInt8) : Prop where
  view : (s.view (s.pointer i (Image.dataRef (q / BSIZE)))).byte (q % BSIZE) = a
  disk : (s.blk.bio.disk (s.pointer i (Image.dataRef (q / BSIZE)))).byte (q % BSIZE) = a

variable {o : ℤ} {held : List (Fin NBUF × ℕ)} {l : List ℕ} {N : ℕ → Node} {R : List Ref}
  {L : List (Fin NINODE)} {s : Vol} {V : Image} {D : ℕ → Dinode} {ip : Fin NINODE} {i q : ℕ}
  {a : UInt8}

section At

/-- Between two calls the blocks of inodes are on the disk. -/
theorem FsAt.stored_eq (h : FsAt 0 [] [] V D s) (hi : i < NINODES) : s.stored i = s.onDisk i := by
  have sure : INODES + i / IPB ∉ V.unsure := fun hn =>
    absurd (h.ok.laid.known _ hn) (Nat.not_lt.mpr (Nat.le_of_lt (Image.inodeBlock_le hi)))
  have view : s.view (INODES + i / IPB) = s.blk.bio.disk (INODES + i / IPB) :=
    h.blk.inv.bio.view_of_clean List.not_mem_nil sure
  rw [stored, view, onDisk]

theorem FsAt.onDisk_eq (h : FsAt 0 [] [] V D s) (hi : i < NINODES) : s.onDisk i = V.dino i := by
  rw [← h.stored_eq hi, stored, Image.dino]
  rw [h.blk.block_eq (Nat.le_add_right ..) (known_low h.ok.laid _ (Nat.le_of_lt (Image.inodeBlock_le hi)))]

theorem FsAt.current_eq (h : FsAt 0 [] [] V D s) (hi : i < NINODES) : s.current i = D i := by
  unfold current
  split
  next ip hip =>
    have found := List.find?_some hip
    obtain ⟨live, valid, inum⟩ := decide_eq_true_iff.mp found
    rw [← inum, ← h.loaded ⟨live, valid⟩]
  next none =>
    rw [h.onDisk_eq hi, ← h.ok.cached.stored i hi]
    intro ip live valid inum
    exact List.find?_eq_none.mp none ip (List.mem_finRange ip) (decide_eq_true ⟨live, valid, inum⟩)

theorem FsAt.used_iff (h : FsAt 0 [] [] V D s) : s.Used i ↔ Alloc D i := by
  unfold Used Alloc
  by_cases hi : i < NINODES
  · rw [h.current_eq hi]
  · exact iff_of_false (fun used => hi used.2.1) fun used => hi used.2.1

theorem FsAt.ref_contents (h : FsAt o held l V D s) (hi : Alloc D i) (k : ℕ) :
    s.contents.ref (D i) k = V.ref (D i) k := by
  by_cases hk : k ≤ NDIRECT
  · rw [Image.ref_direct hk, Image.ref_direct hk]
  by_cases h0 : (D i).addr NDIRECT = 0
  · rw [Image.ref_entry_zero (by omega) h0, Image.ref_entry_zero (by omega) h0]
  · have own := h.ok.laid.addr_own hi (Nat.le_refl _) h0
    have sure := h.ok.laid.indirect_sure hi h0
    rw [Image.ref_entry (by omega) h0, Image.ref_entry (by omega) h0, block_contents,
      h.blk.block_eq (Nat.le_of_lt (Nat.lt_trans (by decide) own.1)) sure]

theorem FsAt.pointer_eq (h : FsAt 0 [] [] V D s) (hi : Alloc D i) (k : ℕ) :
    s.pointer i k = V.ref (D i) k := by
  rw [pointer, h.current_eq hi.2.1, h.ref_contents hi]

theorem FsAt.current_loaded (h : FsAt o held l V D s) (hl : Loaded s ip) :
    s.current (s.inode ip).inum = (s.inode ip).d := by
  unfold current
  split
  next jp hjp =>
    have found := List.find?_some hjp
    obtain ⟨live, valid, inum⟩ := decide_eq_true_iff.mp found
    rw [← h.loaded ⟨live, valid⟩, inum, h.loaded hl]
  next none =>
    have := List.find?_eq_none.mp none ip (List.mem_finRange ip)
    exact absurd (decide_eq_true ⟨hl.live, hl.valid, rfl⟩) this

theorem FsAt.pointer_loaded (h : FsAt o held l V D s) (hl : Loaded s ip) (k : ℕ) :
    s.pointer (s.inode ip).inum k = V.ref (D (s.inode ip).inum) k := by
  rw [pointer, h.current_loaded hl, ← h.loaded hl, h.ref_contents (h.alloc hl)]

theorem FsAt.shows_iff (h : FsAt o held l V D s) (hl : Loaded s ip) :
    s.Shows (s.inode ip).inum q a ↔ BothShow s V (D (s.inode ip).inum) q a := by
  constructor
  · rintro ⟨view, disk⟩
    rw [h.pointer_loaded hl] at view disk
    exact ⟨view, disk⟩
  · rintro ⟨view, disk⟩
    rw [← h.pointer_loaded hl] at view disk
    exact ⟨view, disk⟩

/-- The block of a pointer to an indirect block is the same after buffers have been read. -/
theorem FsAt.view_looked {s' : Vol} (h : FsAt o held l V D s) (look : Looked L s s') {c : ℕ}
    (known : V c ≠ none) : s'.view c = s.view c := by
  by_cases hc : c ∈ l
  · exact look.sure c (Or.inl (by rwa [h.blk.inv.ctx.logged]))
  · rcases look.fall c with e | e
    · exact e
    · rw [e]
      exact (h.blk.inv.bio.view_of_clean hc known).symm

/-- The cache shows what is known of the contents of an inode. -/
theorem FsAt.byteAt_contents (h : FsAt o held l V D s) (hi : Alloc D i) {q : ℕ} {b : UInt8}
    (hb : V.byteAt (D i) q = some b) : s.contents.byteAt (D i) q = some b := by
  unfold Image.byteAt Image.rawByte at hb ⊢
  split at hb
  next hq =>
    rw [if_pos hq, h.ref_contents hi]
    cases hV : V (V.ref (D i) (Image.dataRef (q / BSIZE))) with
    | none =>
      rw [hV] at hb
      cases hb
    | some d =>
      rw [hV] at hb
      have full := h.ok.laid.full i hi (q / BSIZE) (Nat.lt_of_le_of_lt (Nat.div_mul_le_self _ _) hq)
      have lt : q / BSIZE < MAXFILE := h.ok.laid.index_lt hi
        (Nat.lt_of_le_of_lt (Nat.div_mul_le_self _ _) hq)
      have own := h.ok.laid.own i hi _ (Image.dataRef_lt lt) full
      have view := h.blk.view _ d (not_inLog_of_high (Nat.le_of_lt (Nat.lt_trans (by decide) own.1))) hV
      have same : s.contents (V.ref (D i) (Image.dataRef (q / BSIZE))) = some d := congrArg some view
      rw [same]
      exact hb
  next => cases hb

/-- The file shows what is known of it. -/
theorem FsAt.byte_file (h : FsAt 0 [] [] V D s) (hi : Alloc D i) {q : ℕ} {b : UInt8}
    (hb : (nodes V D i).byte q = some b) : (s.file i).byte q = some b := by
  rw [nodes_of_alloc hi] at hb
  change s.contents.byteAt (s.current i) q = some b
  rw [h.current_eq hi.2.1]
  exact h.byteAt_contents hi hb

/-- The file of a loaded inode, its length and what is known of it. -/
theorem FsAt.file_loaded (h : FsAt o held l V D s) (hl : Loaded s ip) :
    (s.file (s.inode ip).inum).size = (nodes V D (s.inode ip).inum).size ∧
      ∀ q b, (nodes V D (s.inode ip).inum).byte q = some b →
        (s.file (s.inode ip).inum).byte q = some b := by
  have alloc := h.alloc hl
  have current : s.current (s.inode ip).inum = D (s.inode ip).inum :=
    (h.current_loaded hl).trans (h.loaded hl).symm
  rw [nodes_of_alloc alloc]
  refine ⟨congrArg (fun d : Dinode => d.size.toNat) current, fun q b hb => ?_⟩
  change s.contents.byteAt (s.current (s.inode ip).inum) q = some b
  rw [current]
  exact h.byteAt_contents alloc hb

/-- What is known of a file between two calls is in the cache and on the disk. -/
theorem FsAt.shows (h : FsAt 0 [] [] V D s) (hi : Alloc D i) (hb : (nodes V D i).byte q = some a) :
    s.Shows i q a := by
  rw [nodes_of_alloc hi] at hb
  obtain ⟨hq, raw⟩ := Image.byteAt_some hb
  have below : q / BSIZE * BSIZE < (D i).size.toNat :=
    Nat.lt_of_le_of_lt (Nat.div_mul_le_self _ _) hq
  have full := h.ok.laid.full i hi _ below
  have own := h.ok.laid.own i hi _ (Image.dataRef_lt (h.ok.laid.index_lt hi below)) full
  obtain ⟨d, hd, byte⟩ := Option.map_eq_some_iff.mp raw
  have view := h.blk.view _ d (not_inLog_of_high (Nat.le_of_lt (Nat.lt_trans (by decide) own.1))) hd
  have sure : V.ref (D i) (Image.dataRef (q / BSIZE)) ∉ V.unsure := fun hn => by
    cases hd.symm.trans hn
  have disk : s.view _ = s.blk.bio.disk _ := h.blk.inv.bio.view_of_clean List.not_mem_nil sure
  refine ⟨?_, ?_⟩
  · rw [h.pointer_eq hi, view, byte]
  · rw [h.pointer_eq hi, ← disk, view, byte]

end At

section Shows

theorem Shows.file (h : s.Shows i q a) (hq : q < (s.file i).size) : (s.file i).byte q = some a := by
  change q < (s.current i).size.toNat at hq
  change s.contents.byteAt (s.current i) q = some a
  rw [Image.byteAt, if_pos hq]
  exact congrArg some h.view

variable {o' : ℤ} {k k' : ℕ} {N' : ℕ → Node} {R' : List Ref} {L' : List (Fin NINODE)} {s' : Vol}

theorem Shows.of_falls (h : s.Shows i q a)
    (same : s'.pointer i (Image.dataRef (q / BSIZE)) = s.pointer i (Image.dataRef (q / BSIZE)))
    (falls : Log.Falls (s.pointer i (Image.dataRef (q / BSIZE))) s.blk s'.blk) : s'.Shows i q a := by
  refine ⟨?_, ?_⟩
  · rw [same]
    rcases falls.view with e | e
    · exact (congrArg (fun x => Bytes.byte x (q % BSIZE)) e).trans h.view
    · exact (congrArg (fun x => Bytes.byte x (q % BSIZE)) e).trans h.disk
  · rw [same, falls.disk, h.disk]

/-- The pointers of a loaded inode are those of its copy and of its indirect block. -/
theorem Fsys.pointer_same (h : Fsys o k N R L s) (hi : (ip, i) ∈ R) (hL : ip ∈ L)
    (h' : Fsys o' k' N' R' L' s') (hi' : (ip, i) ∈ R') (hL' : ip ∈ L')
    (same : (s'.inode ip).d = (s.inode ip).d)
    (view : ∀ V D l, FsAt o [] l V D s → ∀ c, V c ≠ none → INODES ≤ c → s'.view c = s.view c) (n : ℕ) :
    s'.pointer i n = s.pointer i n := by
  obtain ⟨V, D, l, at', -⟩ := h.shows
  obtain ⟨V', D', l', at'', -⟩ := h'.shows
  have hl := h.isLoaded hL
  have current := at'.current_loaded hl
  have current' := at''.current_loaded (h'.isLoaded hL')
  rw [h.inum hi] at current
  rw [h'.inum hi'] at current'
  rw [pointer, pointer, current, current', same]
  by_cases hn : n ≤ NDIRECT
  · rw [Image.ref_direct hn, Image.ref_direct hn]
  by_cases h0 : (s.inode ip).d.addr NDIRECT = 0
  · rw [Image.ref_entry_zero (by omega) h0, Image.ref_entry_zero (by omega) h0]
  · have alloc := at'.alloc hl
    have hD := at'.loaded hl
    have own := at'.ok.laid.addr_own alloc (Nat.le_refl _) (by rwa [hD])
    have sure := at'.ok.laid.indirect_sure alloc (by rwa [hD])
    rw [hD] at own sure
    rw [Image.ref_entry (by omega) h0, Image.ref_entry (by omega) h0, block_contents, block_contents]
    rw [view V D l at' _ sure (Nat.le_of_lt (Nat.lt_trans (by decide) own.1))]

theorem Fsys.pointer_home (h : Fsys o k N R L s) (hi : (ip, i) ∈ R) (hL : ip ∈ L)
    (hq : q / BSIZE < MAXFILE) : ¬ Log.InLog (s.pointer i (Image.dataRef (q / BSIZE))) := by
  obtain ⟨V, D, l, at', -⟩ := h.shows
  have hl := h.isLoaded hL
  have pointer := at'.pointer_loaded hl (Image.dataRef (q / BSIZE))
  have alloc := at'.alloc hl
  rw [h.inum hi] at pointer alloc
  rw [pointer]
  by_cases h0 : V.ref (D i) (Image.dataRef (q / BSIZE)) = 0
  · rw [h0]
    decide
  · have own := at'.ok.laid.own i alloc _ (Image.dataRef_lt hq) h0
    exact not_inLog_of_high (Nat.le_of_lt (Nat.lt_trans (by decide) own.1))

/-- Reading loses nothing that the cache and the disk agree on. -/
theorem Fsys.shows_looked (h : Fsys o k N R L s) (hi : (ip, i) ∈ R) (hL : ip ∈ L)
    (h' : Fsys o' k' N' R' L' s') (hi' : (ip, i) ∈ R') (hL' : ip ∈ L') (look : Looked L s s')
    (hs : s.Shows i q a) : s'.Shows i q a := by
  have same := h.pointer_same hi hL h' hi' hL' (look.keep ip hL)
    (fun V D l at' c hc _ => at'.view_looked look hc) (Image.dataRef (q / BSIZE))
  exact hs.of_falls same ⟨look.fall _, by rw [look.disk]⟩

/-- The end of a transaction loses nothing that the cache and the disk agree on. -/
theorem Ended.shows (ended : Ended s s') (h : Fsys o k N R L s) (hi : (ip, i) ∈ R) (hL : ip ∈ L)
    (h' : Fsys o' k' N' R' L' s') (hi' : (ip, i) ∈ R') (hL' : ip ∈ L') (hq : q / BSIZE < MAXFILE)
    (hs : s.Shows i q a) : s'.Shows i q a := by
  have kept : ∀ V D l, FsAt o [] l V D s → ∀ c, V c ≠ none → INODES ≤ c → s'.view c = s.view c := by
    intro V D l at' c known high
    by_cases hc : c ∈ Log.LogCtx.logged s.blk.ctx
    · exact ended.logged c hc
    · rcases (ended.falls c (not_inLog_of_high high) hc).view with e | e
      · exact e
      · refine e.trans (at'.blk.inv.bio.view_of_clean ?_ known).symm
        rwa [at'.blk.inv.ctx.logged] at hc
  have same := h.pointer_same hi hL h' hi' hL' (by rw [ended.rest]) kept (Image.dataRef (q / BSIZE))
  have home := h.pointer_home hi hL hq
  by_cases hc : s.pointer i (Image.dataRef (q / BSIZE)) ∈ Log.LogCtx.logged s.blk.ctx
  · refine ⟨?_, ?_⟩
    · rw [same, ended.logged _ hc, hs.view]
    · rw [same, ended.disk _ home, Log.committed, if_pos hc, hs.view]
  · exact hs.of_falls same (ended.falls _ home hc)

end Shows

section Between

variable (h : Between N R L s)
include h

theorem Between.used_iff : s.Used i ↔ (N i).type ≠ 0 := by
  obtain ⟨V, D, at', rfl⟩ := h.at0
  rw [at'.used_iff]
  exact ⟨Alloc.type_ne, nodes_type_ne⟩

/-- The fields of a file, and what is known of its contents. -/
theorem Between.file (used : s.Used i) : (s.file i).type = (N i).type ∧
    (s.file i).nlink = (N i).nlink ∧ (s.file i).size = (N i).size ∧
      ∀ q b, (N i).byte q = some b → (s.file i).byte q = some b := by
  obtain ⟨V, D, at', rfl⟩ := h.at0
  have alloc := at'.used_iff.mp used
  refine ⟨?_, ?_, ?_, fun q b => at'.byte_file alloc⟩
  all_goals rw [nodes_of_alloc alloc]
  · exact congrArg Dinode.type (at'.current_eq alloc.2.1)
  · exact congrArg Dinode.nlink (at'.current_eq alloc.2.1)
  · exact congrArg (fun d : Dinode => d.size.toNat) (at'.current_eq alloc.2.1)

theorem Between.shows (hb : (N i).byte q = some a) (used : (N i).type ≠ 0) : s.Shows i q a := by
  have alloc := h.used_iff.mpr used
  obtain ⟨V, D, at', rfl⟩ := h.at0
  exact at'.shows (at'.used_iff.mp alloc) hb

/-- Between two calls the blocks of inodes are on the disk. -/
theorem Between.stored_eq (hi : i < NINODES) : s.stored i = s.onDisk i := by
  obtain ⟨V, D, at', -⟩ := h.at0
  exact at'.stored_eq hi

/-- An inode is free on the disk exactly when it is free. -/
theorem Between.type_onDisk (h1 : 1 ≤ i) (hi : i < NINODES) : (s.onDisk i).type = (N i).type := by
  obtain ⟨V, D, at', rfl⟩ := h.at0
  have type := (at'.ok.cached.synced i hi).fields.type
  rw [at'.onDisk_eq hi, type]
  by_cases used : Alloc D i
  · rw [nodes_of_alloc used]
    rfl
  · rw [nodes_of_free used]
    by_contra hne
    exact used ⟨h1, hi, hne⟩

end Between

section Settled

/-- What is known of the blocks, and those whose buffers agree with the disk. -/
def settled (V : Image) (s : Vol) : Image := fun c =>
  if V c = none ∧ s.view c = s.blk.bio.disk c then some (s.view c) else V c

theorem settled_of_known {c : ℕ} (known : V c ≠ none) : settled V s c = V c :=
  if_neg fun h => known h.1

theorem settled_none {c : ℕ} (h : settled V s c = none) : V c = none ∧ s.view c ≠ s.blk.bio.disk c := by
  unfold settled at h
  split at h
  next => cases h
  next hn => exact ⟨h, fun e => hn ⟨h, e⟩⟩

theorem settled_view {c : ℕ} {d : Block} (view : ∀ d, V c = some d → s.view c = d)
    (h : settled V s c = some d) : s.view c = d := by
  unfold settled at h
  split at h
  next => exact Option.some.inj h
  next => exact view d h

/-- Between two calls the contents of a buffer that agrees with the disk are certain. -/
theorem FsAt.settle (h : FsAt 0 [] [] V D s) : FsAt 0 [] [] (settled V s) D s := by
  have low : ∀ c ≤ BITMAP, settled V s c = V c := fun c hc =>
    settled_of_known (known_low h.ok.laid c hc)
  have refs : ∀ j, Alloc D j → ∀ k, (settled V s).ref (D j) k = V.ref (D j) k := by
    intro j hj k
    unfold Image.ref Image.block
    by_cases h0 : (D j).addr NDIRECT = 0
    · rw [if_pos h0, if_pos h0]
    · rw [settled_of_known (h.ok.laid.indirect_sure hj h0)]
  have bits : ∀ b, (settled V s).bit b = V.bit b := by
    intro b
    unfold Image.bit Image.block
    rw [low _ (Nat.le_refl _)]
  have inv := h.blk.inv
  refine ⟨⟨⟨⟨inv.bio.wf, inv.bio.refs, inv.bio.cached, fun i b hb hl hn => ?_⟩, inv.ctx, inv.nodup,
    inv.home, inv.short, nofun⟩, nofun, fun c d hc hd => settled_view (fun d => h.blk.view c d hc) hd,
    h.blk.outstanding, h.blk.committing, h.blk.sb⟩, ⟨h.ok.laid.of_same refs (fun c hc => ?_)
      (fun b hb => by rwa [bits]) fun j hj k _ _ _ known => ?_, h.ok.cached.of_dino fun j hj => ?_⟩⟩
  · by_cases hV : b ∈ V.unsure
    · rw [← inv.bio.wf.view_of_holds hb]
      by_contra hne
      exact hn ((if_neg fun hh => hne hh.2).trans hV)
    · exact inv.bio.clean i b hb hl hV
  · exact h.ok.laid.known c (settled_none hc).1
  · rwa [settled_of_known known]
  · unfold Image.dino Image.block
    rw [low _ (Nat.le_of_lt (Image.inodeBlock_le hj))]

theorem Between.settled (h : Between N R L s) : ∃ N', Between N' R L s ∧
    ∀ i, s.Used i → ∀ q a, (s.file i).byte q = some a →
      s.view (s.pointer i (Image.dataRef (q / BSIZE))) =
        s.blk.bio.disk (s.pointer i (Image.dataRef (q / BSIZE))) → (N' i).byte q = some a := by
  obtain ⟨V, D, at', -⟩ := h.at0
  refine ⟨_, ⟨⟨⟨_, D, [], at'.settle, rfl, .nil META⟩, h.fsys.refs⟩, h.logged, h.clean⟩,
    fun i used q a hq same => ?_⟩
  have alloc := at'.used_iff.mp used
  have alloc' := at'.settle.used_iff.mp used
  rw [nodes_of_alloc alloc']
  obtain ⟨lt, raw⟩ := Image.byteAt_some (V := s.contents) (d := s.current i) hq
  rw [at'.current_eq alloc.2.1] at lt
  change Image.byteAt _ (D i) q = some a
  rw [Image.byteAt, if_pos lt, Image.rawByte, ← at'.settle.pointer_eq alloc']
  obtain ⟨c, hc⟩ : ∃ c, c = s.pointer i (Image.dataRef (q / BSIZE)) := ⟨_, rfl⟩
  have byte : (s.view c).byte (q % BSIZE) = a := by
    rw [hc]
    exact Option.some.inj raw
  rw [← hc] at same ⊢
  by_cases known : V c = none
  · rw [Vol.settled, if_pos ⟨known, same⟩, Option.map_some, byte]
  · obtain ⟨d, hd⟩ := Option.ne_none_iff_exists'.mp known
    have below : q / BSIZE * BSIZE < (D i).size.toNat :=
      Nat.lt_of_le_of_lt (Nat.div_mul_le_self _ _) lt
    have own := at'.ok.laid.own i alloc _ (Image.dataRef_lt (at'.ok.laid.index_lt alloc below))
      (at'.ok.laid.full i alloc _ below)
    rw [← at'.pointer_eq alloc, ← hc] at own
    have view := at'.blk.view c d (not_inLog_of_high (Nat.le_of_lt (Nat.lt_trans (by decide) own.1))) hd
    rw [settled_of_known known, hd, Option.map_some, ← byte, view]

end Settled

end EasyXv6.Fs.Vol
