import EasyXv6.Fs.Bmap

set_option autoImplicit false

/-!
# Reading a file (readi)

A read finds all its blocks, so that it only moves buffers. `I k` says what the destination holds
after the first `k` bytes.
-/
namespace EasyXv6.Fs.Vol
open Lib Mem

variable {o : ℤ} {l : List ℕ} {V : Image} {D : ℕ → Dinode} {s : Vol} {ip : Fin NINODE}
  {userDst : Bool} {n tot off dst : ℕ}

/-- Only buffers have been read, and the memory of the process and the directory entry written. -/
structure OnlyData (s s' : Vol) : Prop where
  rest : s' = { s with blk := { s.blk with bio := s'.blk.bio }, user := s'.user, de := s'.de }
  disk : s'.blk.bio.disk = s.blk.bio.disk
  fall : ∀ c, s'.view c = s.view c ∨ s'.view c = s.blk.bio.disk c
  moves : Relation.ReflTransGen Moves s.blk.bio s'.blk.bio

theorem OnlyData.refl (s : Vol) : OnlyData s s := ⟨rfl, rfl, fun _ => Or.inl rfl, .refl⟩

theorem OnlyData.trans {t u : Vol} (h : OnlyData s t) (h' : OnlyData t u) : OnlyData s u := by
  refine ⟨?_, h'.disk.trans h.disk, fun c => ?_, h.moves.trans h'.moves⟩
  · rw [h'.rest, h.rest]
  · rcases h'.fall c with e | e
    · rw [e]
      exact h.fall c
    · rw [e, h.disk]
      exact Or.inr rfl

theorem Reread.onlyData {t : Vol} (h : Reread s t) : OnlyData s t := by
  refine ⟨?_, h.disk, h.fall, h.moves⟩
  rw [h.rest]

/-- What a copy leaves. -/
theorem OnlyData.copied (s : Vol) (user : UserMem) (de : Bytes DIRENT_SIZE) :
    OnlyData s { s with user := user, de := de } := ⟨rfl, rfl, fun _ => Or.inl rfl, .refl⟩

theorem OnlyData.inode {t : Vol} (h : OnlyData s t) : t.inode = s.inode := by rw [h.rest]

/-- The copies that a read of the bytes from `off` on makes take `I` from one byte to the next. -/
structure Delivers (V : Image) (d : Dinode) (userDst : Bool) (off dst n : ℕ)
    (I : ℕ → UserMem → Bytes DIRENT_SIZE → Prop) : Prop where
  user : userDst = true → ∀ k m mem de src, I k mem de → k + m ≤ n →
    (∀ j < m, ∀ x, V.rawByte d (off + k + j) = some x → src j = x) →
    (mem.copyout (dst + k) src m).1 = true → I (k + m) (mem.copyout (dst + k) src m).2 de
  kernel : userDst = false → ∀ k m mem de src, I k mem de → k + m ≤ n →
    (∀ j < m, ∀ x, V.rawByte d (off + k + j) = some x → src j = x) →
    I (k + m) mem (de.put (dst + k) m src)

/-- One of the copies that a read of `n` bytes makes fails. -/
def Refused (dst n : ℕ) (I : ℕ → UserMem → Bytes DIRENT_SIZE → Prop) : Prop :=
  ∃ k m mem de src, I k mem de ∧ k + m ≤ n ∧ (mem.copyout (dst + k) src m).1 = false

/-- A byte of the block that a read has found. -/
theorem At.rawByte_eq {held : List (Fin NBUF × ℕ)} (h : At o held l V s) {d : Dinode} {x : UInt8}
    {m : ℕ} (hr : INODES ≤ V.ref d (Image.dataRef (m / BSIZE))) (hx : V.rawByte d m = some x) :
    (s.view (V.ref d (Image.dataRef (m / BSIZE)))).byte (m % BSIZE) = x := by
  obtain ⟨b, hb, hbx⟩ := Option.map_eq_some_iff.mp hx
  rw [h.view _ b (not_inLog_of_high hr) hb]
  exact hbx

theorem readiLoop_sat {I : ℕ → UserMem → Bytes DIRENT_SIZE → Prop} {E : String → Vol → Prop}
    {fuel : ℕ} (h : FsAt o [] l V D s) (hl : Loaded s ip)
    (del : Delivers V (s.inode ip).d userDst off dst n I) (hI : I tot s.user s.de) (htot : tot ≤ n)
    (hfuel : n - tot ≤ fuel) (hsize : off + n ≤ (s.inode ip).d.size.toNat) :
    Comp.Sat (readiLoop ip userDst n fuel tot (off + tot) (dst + tot)) s E fun ok s' =>
      FsAt o [] l V D s' ∧ OnlyData s s' ∧ (ok = true → I n s'.user s'.de) ∧
        (ok = false → userDst = true ∧ Refused dst n I) := by
  induction fuel generalizing s tot with
  | zero =>
    have : tot = n := by omega
    subst this
    exact .pure ⟨h, .refl s, fun _ => hI, by rintro ⟨⟩⟩
  | succ fuel ih =>
    unfold readiLoop
    refine .ite (fun hlt => ?_) fun hn => ?_
    · have hD := h.loaded hl
      have alloc := h.alloc hl
      have below : (off + tot) / BSIZE * BSIZE < (D (s.inode ip).inum).size.toNat := by
        have := Nat.div_mul_le_self (off + tot) BSIZE
        rw [hD]
        omega
      have hbn := h.ok.laid.index_lt alloc below
      have hr := h.ok.laid.full _ alloc _ below
      have own := h.ok.laid.own _ alloc _ (Image.dataRef_lt hbn) hr
      rw [hD] at hr own
      refine .gets (.call (bmap_read_sat h hl hbn hr) ?_)
      rintro b s₁ ⟨hb, h₁, only₁⟩
      rw [← hb] at own
      rw [h.dev hl]
      have len := h₁.inv.short
      refine .call (bread_sat h₁ own.2.1 (by simp only [Spare, NBUF, List.length_nil]; omega)) ?_
      rintro bp s₂ ⟨h₂, -, -, only₂⟩
      refine .call (data_sat h₂ List.mem_cons_self) ?_
      rintro _ s₂ ⟨rfl, rfl⟩
      have only := only₁.trans only₂
      obtain ⟨m, hm⟩ : ∃ m, m = min (BSIZE - (off + tot) % BSIZE) (n - tot) := ⟨_, rfl⟩
      rw [← hm]
      have hpos : 0 < m := by
        have := Nat.mod_lt (off + tot) (show 0 < BSIZE by decide)
        omega
      have src : ∀ j < m, ∀ x, V.rawByte (s.inode ip).d (off + tot + j) = some x →
          (s₂.view b).byte ((off + tot) % BSIZE + j) = x := by
        intro j hj x hx
        have hdiv : (off + tot + j) / BSIZE = (off + tot) / BSIZE := by
          simp only [BSIZE] at *
          omega
        have hmod : (off + tot + j) % BSIZE = (off + tot) % BSIZE + j := by
          simp only [BSIZE] at *
          omega
        rw [← hdiv] at hb
        rw [← hmod, hb]
        refine h₂.rawByte_eq ?_ hx
        rw [← hb]
        exact Nat.le_of_lt (Nat.lt_trans (by decide) own.1)
      -- after the copy the buffer is released, and the loop goes on if the copy has succeeded
      have next : ∀ (ok : Bool) (t : Vol), At o [(bp, b)] l V t → OnlyData s t →
          (ok = true → I (tot + m) t.user t.de) →
          (ok = false → userDst = true ∧ Refused dst n I) →
          Comp.Sat (brelse bp >>= fun _ => if ok = true
            then readiLoop ip userDst n fuel (tot + m) (off + tot + m) (dst + tot + m)
            else pure false) t E fun ok s' =>
              FsAt o [] l V D s' ∧ OnlyData s s' ∧ (ok = true → I n s'.user s'.de) ∧
                (ok = false → userDst = true ∧ Refused dst n I) := by
        intro ok t ht data hIt hok
        refine .call (brelse_sat ht) ?_
        rintro _ s₄ ⟨h₄, -, -, only₄⟩
        have data₄ := data.trans only₄.onlyData
        have at₄ : FsAt o [] l V D s₄ := ⟨h₄, data₄.inode ▸ h.ok⟩
        refine .ite (fun ht => ?_) fun hf => ?_
        · rw [Nat.add_assoc, Nat.add_assoc]
          refine (ih at₄ ⟨?_, ?_⟩ ?_ ?_ (by omega) (by omega) ?_).post ?_
          · rw [data₄.inode]
            exact hl.live
          · rw [data₄.inode]
            exact hl.valid
          · rwa [data₄.inode]
          · rw [only₄.onlyBlk.user, only₄.onlyBlk.de]
            exact hIt ht
          · rwa [data₄.inode]
          · rintro r s₅ ⟨h₅, data₅, hI₅, hr₅⟩
            exact ⟨h₅, data₄.trans data₅, hI₅, hr₅⟩
        · exact .pure ⟨at₄, data₄, by rintro ⟨⟩, fun _ => hok (by simpa using hf)⟩
      unfold copyOut
      refine .bind (.get (.ite (fun hu => ?_) fun hu => ?_))
      · refine .modify (.pure (next _ _ (h₂.congr rfl rfl) (only.onlyData.trans (.copied ..))
          (fun hok => ?_) fun hno => ⟨hu, ?_⟩))
        · rw [only.onlyBlk.user] at hok ⊢
          rw [only.onlyBlk.de]
          exact del.user hu tot m _ _ _ hI (by omega) src hok
        · rw [only.onlyBlk.user] at hno
          exact ⟨tot, m, _, _, _, hI, by omega, hno⟩
      · refine .modify (.pure (next _ _ (h₂.congr rfl rfl) (only.onlyData.trans (.copied ..))
          (fun hok => ?_) (by rintro ⟨⟩)))
        rw [only.onlyBlk.user, only.onlyBlk.de]
        exact del.kernel (by simpa using hu) tot m _ _ _ hI (by omega) src
    · have : tot = n := by omega
      subst this
      exact .pure ⟨h, .refl s, fun _ => hI, by rintro ⟨⟩⟩

/-- The number of bytes that `readi` is to copy. -/
def readCount (size off n : ℕ) : ℕ :=
  if size < off ∨ (off + n) % 2 ^ 64 < off then 0 else min n (size - off)

theorem readCount_le (size off n : ℕ) : readCount size off n ≤ size - off := by
  unfold readCount
  split
  · exact Nat.zero_le _
  · exact Nat.min_le_right _ _

theorem FsAt.size_le {held : List (Fin NBUF × ℕ)} (h : FsAt o held l V D s) (hl : Loaded s ip) :
    (s.inode ip).d.size.toNat ≤ MAXFILE * BSIZE := by
  rw [← h.loaded hl]
  exact h.ok.laid.size _ (h.alloc hl)

/-- A read copies as many bytes as there are, unless a copy to user memory fails. -/
theorem readi_sat {I : ℕ → UserMem → Bytes DIRENT_SIZE → Prop} {E : String → Vol → Prop}
    (h : FsAt o [] l V D s) (hl : Loaded s ip)
    (del : Delivers V (s.inode ip).d userDst off dst
      (readCount (s.inode ip).d.size.toNat off n) I) (hI : I 0 s.user s.de) :
    Comp.Sat (readi ip userDst dst off n) s E fun r s' =>
      FsAt o [] l V D s' ∧ OnlyData s s' ∧ (r = -1 ∧ userDst = true ∧
          Refused dst (readCount (s.inode ip).d.size.toNat off n) I ∨
        r = readCount (s.inode ip).d.size.toNat off n ∧
          I (readCount (s.inode ip).d.size.toNat off n) s'.user s'.de) := by
  have hsize := h.size_le hl
  unfold readi
  refine .gets (.ite (fun hout => ?_) fun hin => ?_)
  · rw [readCount, if_pos hout]
    exact .pure ⟨h, .refl s, Or.inr ⟨rfl, hI⟩⟩
  have count : (if (s.inode ip).d.size.toNat < off + n then (s.inode ip).d.size.toNat - off else n) =
      readCount (s.inode ip).d.size.toNat off n := by
    rw [readCount, if_neg hin]
    split <;> omega
  dsimp only
  rw [count]
  have le := readCount_le (s.inode ip).d.size.toNat off n
  refine .call (readiLoop_sat h hl del hI (Nat.zero_le _) (by omega) (by omega)) ?_
  rintro ok t ⟨ht, data, hIt, hok⟩
  refine .ite (fun h1 => .pure ⟨ht, data, Or.inr ⟨?_, hIt h1⟩⟩) fun h0 =>
    .pure ⟨ht, data, Or.inl ⟨rfl, hok (by simpa using h0)⟩⟩
  refine i32_of_small ?_
  simp only [MAXFILE, NDIRECT, NINDIRECT, BSIZE] at *
  omega

end EasyXv6.Fs.Vol
