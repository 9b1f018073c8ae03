import EasyXv6.Fs.Observed

set_option autoImplicit false

/-!
# Reads and writes of user data

The contents of a file that a process reads or writes are in its own memory.
-/
namespace EasyXv6.Fs.Vol
open Lib Mem

variable {o : ℤ} {k cap : ℕ} {full : Prop} {N : ℕ → Node} {R : List Ref} {L : List (Fin NINODE)}
  {s : Vol} {ip : Fin NINODE} {i dst src off n : ℕ}

theorem readUser_sat (h : Fsys o k N R L s) (hL : ip ∈ L)
    {E : String → Vol → Prop} :
    Comp.Sat (readi ip true dst off n) s E fun _ s' => Fsys o k N R L s' ∧ Looked L s s' := by
  have hl := h.isLoaded hL
  obtain ⟨V, D, l, at', nodes, fits⟩ := h.shows
  have any : Delivers V (s.inode ip).d true off dst (readCount (s.inode ip).d.size.toNat off n)
      fun _ _ _ => True := ⟨fun _ _ _ _ _ _ _ _ _ _ => trivial, nofun⟩
  refine (readi_sat at' hl any trivial).post ?_
  rintro _ t ⟨ht, only, -⟩
  refine ⟨⟨⟨V, D, l, ht, nodes, fits⟩, ?_⟩, at'.looked ht only fun jp hj => h.isLoaded hj⟩
  rw [only.inode]
  exact h.refs

theorem SameMeta.refl (x : Node) : SameMeta x x := ⟨rfl, rfl, rfl, rfl⟩

theorem SameMeta.trans {x y z : Node} (h : SameMeta x y) (h' : SameMeta y z) : SameMeta x z :=
  ⟨h'.type.trans h.type, h'.major.trans h.major, h'.minor.trans h.minor, h'.nlink.trans h.nlink⟩

/-- The bytes of user memory from `src` on. -/
def userBytes (mem : UserMem) (src j : ℕ) : UInt8 := (mem.byteAt (src + j)).getD 0

theorem supplies_user (mem : UserMem) (de : Bytes DIRENT_SIZE) (src n : ℕ) :
    Supplies true mem de src n (userBytes mem src) := by
  refine ⟨nofun, fun _ m len _ ok j hj => ?_⟩
  have copied := UserMem.copyin_copied mem (src + m) len
  have hj' : j < (mem.copyin (src + m) len).2.length := by rwa [copied.whole ok]
  have byte := copied.byte j hj'
  rw [userBytes, ← Nat.add_assoc, byte, List.getD_eq_getElem?_getD, List.getElem?_eq_getElem hj']

/-- The log and the bitmap have room for a write of `n` bytes at `off`, or any panic is allowed. -/
structure RoomFor (E : String → Vol → Prop) (s : Vol) (ip : Fin NINODE) (off n : ℕ) (full : Prop) :
    Prop where
  log : (Log.LogCtx.logged s.blk.ctx).length + roundsLeft off n 0 ≤ 25 ∨ ∀ w t, E w t
  free : full ∨ missing s.contents (s.inode ip).d (blocksLeft off n 0) ≤ s.contents.free

theorem missing_congr {V V' : Image} {d : Dinode} (refs : ∀ k, V'.ref d k = V.ref d k)
    (bs : Finset ℕ) : missing V' d bs = missing V d bs := by
  unfold missing
  simp only [refs]

theorem FsAt.free_contents {held : List (Fin NBUF × ℕ)} {l : List ℕ} {V : Image} {D : ℕ → Dinode}
    (h : FsAt o held l V D s) : s.contents.free = V.free := by
  refine Image.free_congr fun b => ?_
  rw [Image.bit, Image.bit, block_contents,
    h.blk.block_eq (by decide) (known_low h.ok.laid _ (Nat.le_refl _))]

/-- `writei` in a transaction. -/
theorem writeFile_sat {userSrc : Bool} {bytes : ℕ → UInt8} {E : String → Vol → Prop}
    (h : Fsys 1 k N R L s) (hi : (ip, i) ∈ R) (hL : ip ∈ L)
    (sup : Supplies userSrc s.user s.de src n bytes) (file : userSrc = true → (N i).type ≠ T_DIR)
    (room : RoomFor E s ip off n full) (stop : ∀ w t, Limit cap full w t → E w t) :
    Comp.Sat (writei ip userSrc src off n) s E fun r s' =>
      r = -1 ∧ OutOfRange (N i).size off n ∧ s' = s ∨
      ¬ OutOfRange (N i).size off n ∧ ∃ y m, SameMeta (N i) y ∧
        Fsys 1 m (Function.update N i y) R L s' ∧ Same s s' ∧
          (∀ q a, q < off → q / BSIZE = off / BSIZE → 0 < n → s.Shows i q a →
            y.byte q = some a ∨ r = -1 ∧ s'.Shows i q a) ∧
          (∀ q a, q < off ∨ off + n ≤ q → q < (N i).size → s.Shows i q a → s'.Shows i q a) ∧
          (r = n ∧ WrittenNode off n bytes (N i) y ∨
            r = -1 ∧ ¬ Readable userSrc s.user src n ∧ 0 < n ∧ FailedNode off (N i) y) := by
  have hl := h.isLoaded hL
  have inum := h.inum hi
  have size := h.size hi hL
  have type := h.type hi hL
  obtain ⟨V, D, l, at', rfl, -⟩ := h.shows
  have logged : Log.LogCtx.logged s.blk.ctx = l := at'.blk.inv.ctx.logged
  have alloc := at'.alloc hl
  have hD := at'.loaded hl
  -- what the log holds already counts in full
  obtain ⟨F, hF⟩ : ∃ F, F = l.toFinset ∪ {BITMAP, INODES + i / IPB} := ⟨_, rfl⟩
  have quota : Quota F 1 (s.inode ip).d l := by
    refine ⟨0, ⟨∅, Nat.le_refl 0, fun c hc => Or.inl ?_⟩, ?_⟩
    · rw [hF]
      exact Finset.mem_union_left _ (List.mem_toFinset.mpr hc)
    · rw [Nat.zero_add]
      exact indCost_le_one _ _
  have card : F.card ≤ l.length + 2 := by
    rw [hF]
    exact Nat.le_trans (Finset.card_union_le _ _)
      (Nat.add_le_add (List.toFinset_card_le l) Finset.card_le_two)
  have bitmap : BITMAP ∈ F := by
    rw [hF]
    exact Finset.mem_union_right _ (Finset.mem_insert_self _ _)
  have block : INODES + (s.inode ip).inum / IPB ∈ F := by
    rw [hF, inum]
    exact Finset.mem_union_right _ (Finset.mem_insert_of_mem (Finset.mem_singleton_self _))
  have free : full ∨ missing V (s.inode ip).d (blocksLeft off n 0) ≤ V.free := by
    refine room.free.imp_right fun le => ?_
    rw [at'.free_contents, missing_congr fun j => ?_] at le
    · exact le
    · rw [← hD]
      exact at'.ref_contents alloc j
  have log := room.log
  rw [logged] at log
  refine (writei_sat at' hl sup bitmap block quota (log.imp (fun _ => by omega) id)
    (fun hu => by rw [type]; exact file hu) free stop).post ?_
  rw [size, inum]
  rintro r t (bad | ⟨range, V', D', l', ht, same, others, -, tail, keep, cases⟩)
  · exact Or.inl bad
  have update : nodes V' D' = Function.update (nodes V D) i (nodes V' D' i) := by
    funext j
    by_cases hj : j = i
    · rw [hj, Function.update_self]
    · rw [Function.update_of_ne hj, others j hj]
  have refs : Refs R L t.inode := h.refs.congr same.ref (fun jp _ => same.inum jp) fun jp hj =>
    ⟨(h.refs.loaded jp hj).1, (same.valid jp).trans (h.refs.loaded jp hj).2⟩
  have hl' := hl.same same
  have inum' : (t.inode ip).inum = i := (same.inum ip).trans inum
  have iff : ∀ q a, s.Shows i q a ↔ BothShow s V (D i) q a := fun q a => by
    rw [← inum]
    exact at'.shows_iff hl
  have iff' : ∀ q a, t.Shows i q a ↔ BothShow t V' (D' i) q a := fun q a => by
    rw [← inum']
    exact ht.shows_iff hl'
  refine Or.inr ⟨range, nodes V' D' i, l'.length, ?_, ⟨⟨V', D', l', ht, update, ?_⟩, refs⟩, same,
    fun q a hq hdiv hn hs => ?_, fun q a out hq hs => ?_, ?_⟩
  · rcases cases with ⟨-, -, w⟩ | ⟨-, -, -, w⟩
    · exact ⟨w.type, w.major, w.minor, w.nlink⟩
    · exact ⟨w.type, w.major, w.minor, w.nlink⟩
  · exact ⟨l'.toFinset, List.toFinset_card_le l', fun c hc => Or.inr (List.mem_toFinset.mpr hc)⟩
  · rcases tail q a hq hdiv hn ((iff q a).mp hs) with byte | ⟨bad, both⟩
    · exact Or.inl byte
    · exact Or.inr ⟨bad, (iff' q a).mpr both⟩
  · exact (iff' q a).mpr (keep q a out hq ((iff q a).mp hs))
  · exact cases.imp (fun w => ⟨w.1, w.2.2⟩) id

/-- `writei` of at most a chunk, at the start of a transaction. -/
theorem writeUser_sat (h : Fsys 1 0 N R L s) (empty : Log.LogCtx.logged s.blk.ctx = [])
    (hi : (ip, i) ∈ R) (hL : ip ∈ L) (hn : n ≤ 13 * BSIZE) (file : (N i).type ≠ T_DIR)
    (hfull : full) :
    Comp.Sat (writei ip true src off n) s (Limit cap full) fun r s' =>
      r = -1 ∧ OutOfRange (N i).size off n ∧ s' = s ∨
      ¬ OutOfRange (N i).size off n ∧ ∃ y m, SameMeta (N i) y ∧
        Fsys 1 m (Function.update N i y) R L s' ∧ Same s s' ∧
          (∀ q a, q < off → q / BSIZE = off / BSIZE → 0 < n → s.Shows i q a →
            y.byte q = some a ∨ r = -1 ∧ s'.Shows i q a) ∧
          (∀ q a, q < off ∨ off + n ≤ q → q < (N i).size → s.Shows i q a → s'.Shows i q a) ∧
          (r = n ∧ WrittenNode off n (userBytes s.user src) (N i) y ∨
            r = -1 ∧ ¬ Readable true s.user src n ∧ 0 < n ∧ FailedNode off (N i) y) := by
  have rounds : roundsLeft off n 0 ≤ 14 := by
    unfold roundsLeft
    simp only [BSIZE] at *
    split <;> omega
  refine writeFile_sat h hi hL (supplies_user s.user s.de src n) (fun _ => file) ⟨Or.inl ?_, Or.inl hfull⟩
    fun _ _ stop => stop
  rw [empty, List.length_nil]
  omega

end EasyXv6.Fs.Vol
