import EasyXv6.Sys.Ownership

set_option autoImplicit false

/-!
# Reading never writes

No file has holes. A read finds all blocks of its range, so that it only moves buffers.
-/
namespace EasyXv6.Sys
open Lib Mem Proc Fs Vol

variable {N : ℕ → Node} {T : Dirs} {P Q R : List Ref} {L : List (Fin NINODE)} {s : System} {v : Vol}
  {ip : Fin NINODE} {i off n : ℕ} {tr : List (Event × System)} {Ly : Layout}

/-- Each block below the end of a file has its pointer. -/
def NoHoles (v : Vol) : Prop :=
  ∀ i n, v.Used i → n * BSIZE < (v.current i).size.toNat → v.pointer i (Image.dataRef n) ≠ 0

/-- No `readi` of the loaded inode in the slot `ip` does more than look up and release buffers, and
    copy to its destination. -/
def ReadsOnly (ip : Fin NINODE) (v : Vol) : Prop := ∀ userDst dst off n, ∃ r v',
  (readi ip userDst dst off n).run v = .ok r v' ∧ OnlyData v v' ∧ ∀ b, v'.InUse b ↔ v.InUse b

theorem Between.noHoles (h : Between N R L v) : NoHoles v := by
  intro i n used below
  obtain ⟨V, D, at', -⟩ := h.at0
  have alloc := at'.used_iff.mp used
  rw [at'.current_eq alloc.2.1] at below
  rw [at'.pointer_eq alloc]
  exact at'.ok.laid.full i alloc n below

theorem Between.readsOnly (h : Between N R L v) (hL : ip ∈ L) : ReadsOnly ip v := by
  intro userDst dst off n
  obtain ⟨V, D, at', -⟩ := h.at0
  have spec : Comp.Sat (readi ip userDst dst off n) v (fun _ _ => False) _ :=
    readi_sat (I := fun _ _ _ => True) at' (h.fsys.isLoaded hL) ⟨fun _ _ _ _ _ _ _ _ _ _ => trivial,
      fun _ _ _ _ _ _ _ _ _ => trivial⟩ trivial
  have known := known_low at'.ok.laid BITMAP (Nat.le_refl _)
  obtain ⟨r, v', hr, after, only, -⟩ := spec.returns fun _ _ no => no
  refine ⟨r, v', hr, only, fun b => ?_⟩
  rw [after.blk.inUse_iff known, at'.blk.inUse_iff known]

/-- The slots with references can be locked, and then read. -/
theorem Between.lockReads (h : Between N R L v) (live : 0 < (v.inode ip).ref) :
    ∃ v', (ilock ip).run v = .ok () v' ∧ Looked L v v' ∧ ReadsOnly ip v' := by
  rw [h.fsys.refs.count] at live
  obtain ⟨⟨jp, i⟩, hi, rfl⟩ := List.mem_map.mp (List.count_pos_iff.mp (Int.natCast_pos.mp live))
  have spec : Comp.Sat (ilock jp) v (fun _ _ => False) _ := ilock_sat h.fsys hi
  obtain ⟨r, v', hr, after, -, look⟩ := spec.returns fun _ _ no => no
  have between := h.looked (after.weaken fun jp hj => List.mem_cons_of_mem _ hj) look
  have locked : Between N R (jp :: L) v' := after.between between.logged between.clean
  exact ⟨v', hr, look, Between.readsOnly locked List.mem_cons_self⟩

/-- What reading does in a state: nothing but moving buffers, whether `readi` of a locked inode or
    `file_read` of an open file. -/
structure ReadingQuiet (t : Files) : Prop where
  noHoles : NoHoles t.vol
  readi : ∀ ip, 0 < (t.vol.inode ip).ref →
    ∃ v, (ilock ip).run t.vol = .ok () v ∧ v.blk.bio.disk = t.vol.blk.bio.disk ∧ ReadsOnly ip v
  fileRead : ∀ f addr n, 0 < (t.file f).ref → ∃ r u, (Files.fileRead f addr n).run t = .ok r u ∧
    u.vol.blk.ctx = t.vol.blk.ctx ∧ u.vol.blk.bio.disk = t.vol.blk.bio.disk ∧
      ∀ b, u.vol.InUse b ↔ t.vol.InUse b

theorem FsState.readingQuiet {t : Files} (h : FsState N T P Q L t) : ReadingQuiet t where
  noHoles := Between.noHoles h.between
  readi ip live := by
    obtain ⟨v, hr, look, reads⟩ := Between.lockReads h.between live
    exact ⟨v, hr, look.disk, reads⟩
  fileRead f addr n live := by
    have spec : Comp.Sat (Files.fileRead f addr n) t (fun _ _ => False) _ := fileRead_keeps h live
    obtain ⟨r, u, hr, -, look, -⟩ := spec.returns fun _ _ no => no
    exact ⟨r, u, hr, look.ctx, look.disk, InUse.congr (look.sure _ (Or.inr ⟨by decide, Nat.le_refl _⟩))⟩

/-- In every state of every run, and between the transactions of a call, no file has holes and reading
    writes nothing; so no read ends in a panic. -/
theorem reading_never_writes (start : Started s) (hr : Along (Step Ly) s tr) :
    ReadingQuiet (final s tr).files ∧
    ∀ p, ((final s tr).kernel.proc p).state = .running →
      (∀ t, Boundary p (final s tr) t → ReadingQuiet t) ∧
      ∀ mem fd addr n w t, (sysRead p fd addr n).run ((final s tr).withUser mem) ≠ .halt w t := by
  have ready := start.run hr
  obtain ⟨N, T, P, Q, L, hs⟩ := ready.fs
  refine ⟨hs.readingQuiet, fun p running => ⟨fun t ht => ?_, fun mem fd addr n w t hc => ?_⟩⟩
  · obtain ⟨N', T', P', Q', L', ht'⟩ := ready.boundary running ht
    exact ht'.readingQuiet
  · have during := ready.refs.during running
    have spec : Comp.Sat (sysRead p fd addr n) ((final s tr).withUser mem) (fun _ _ => False)
        fun _ _ => True := by
      refine withFile ⟨during.refs, during.closed, during.busy⟩ (.pure trivial) fun i f _ live => ?_
      exact onFiles_sat (fileRead_keeps (E := fun _ _ => False) (hs.user mem) live)
        (fun _ _ no => no.elim) fun _ _ _ => trivial
    exact spec.halted hc

theorem reading_never_writes_opened : ReadingQuiet
    ((sysOpen proczero 0 O_RDONLY).run (exampleSystem.withUser (stringMem [SLASH]))).state.files :=
  (reading_never_writes exampleSystem_started exampleSystem_opened).1

end EasyXv6.Sys
