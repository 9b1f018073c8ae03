import EasyXv6.Lib.Comp
import EasyXv6.Lib.Writes
import EasyXv6.Fs.Block

set_option autoImplicit false

/-!
# The buffer cache (bio.c)

The doubly linked LRU list is the list of its buffers from `head.next` to `head.prev`. The disk
performs each block write at once; `issued` records the writes since power-on, oldest first.
-/
namespace EasyXv6.Fs
open Lib

abbrev NBUF : ℕ := 30

structure Buf where
  valid : Bool
  dev : ℕ
  blockno : ℕ
  refcnt : ℕ
  data : Block

structure Bio where
  disk : ℕ → Block
  issued : List (ℕ × Block)
  buf : Fin NBUF → Buf
  lru : List (Fin NBUF)

namespace Bio

def modBuf (s : Bio) (i : Fin NBUF) (f : Buf → Buf) : Bio :=
  { s with buf := Function.update s.buf i (f (s.buf i)) }

/-- `virtio_disk_rw(b, 0)` -/
def diskRead (i : Fin NBUF) : Comp Bio Unit :=
  .modify fun s => s.modBuf i fun b => { b with data := s.disk b.blockno }

/-- `virtio_disk_rw(b, 1)` -/
def diskWrite (i : Fin NBUF) : Comp Bio Unit :=
  .modify fun s =>
    let w := ((s.buf i).blockno, (s.buf i).data)
    { s with disk := Function.update s.disk w.1 w.2, issued := s.issued ++ [w] }

/-- Memory at power-on, with the LRU list that `bio_init` builds by inserting each buffer at the
    head. -/
def bioInit (disk : ℕ → Block) : Bio where
  disk := disk
  issued := []
  buf := fun _ => ⟨false, 0, 0, 0, Block.zero⟩
  lru := (List.finRange NBUF).reverse

def bget (dev blockno : ℕ) : Comp Bio (Fin NBUF) := do
  if FSSIZE ≤ blockno then
    .halt "bget: blockno out of range"
  else
    let s ← .get
    match s.lru.find? (fun i => (s.buf i).dev = dev ∧ (s.buf i).blockno = blockno) with
    | some i =>
      .modify (·.modBuf i fun b => { b with refcnt := b.refcnt + 1 })
      return i
    | none =>
      -- from the tail: the least recently used buffer comes first
      match s.lru.reverse.find? (fun i => (s.buf i).refcnt = 0) with
      | some i =>
        .modify (·.modBuf i fun b =>
          { b with dev := dev, blockno := blockno, valid := false, refcnt := 1 })
        return i
      | none => .halt "bget: no buffers"

def bread (dev blockno : ℕ) : Comp Bio (Fin NBUF) := do
  let i ← bget dev blockno
  let s ← .get
  if (s.buf i).valid then
    return i
  else
    diskRead i
    .modify (·.modBuf i fun b => { b with valid := true })
    return i

def bwrite (i : Fin NBUF) : Comp Bio Unit := do
  let s ← .get
  if (s.buf i).refcnt < 1 then .halt "bwrite" else diskWrite i

def brelse (i : Fin NBUF) : Comp Bio Unit := do
  let s ← .get
  if (s.buf i).refcnt < 1 then
    .halt "brelse"
  else
    .modify (·.modBuf i fun b => { b with refcnt := b.refcnt - 1 })
    let s ← .get
    if (s.buf i).refcnt = 0 then
      .modify fun s => { s with lru := i :: s.lru.erase i }
    else
      return ()

def bpin (i : Fin NBUF) : Comp Bio Unit :=
  .modify (·.modBuf i fun b => { b with refcnt := b.refcnt + 1 })

def bunpin (i : Fin NBUF) : Comp Bio Unit :=
  .modify (·.modBuf i fun b => { b with refcnt := b.refcnt - 1 })

/-- `b->data` is read. -/
def data (i : Fin NBUF) : Comp Bio Block := .gets fun s => (s.buf i).data

/-- `b->data` is changed. -/
def setData (i : Fin NBUF) (f : Block → Block) : Comp Bio Unit :=
  .modify (·.modBuf i fun b => { b with data := f b.data })

@[simp] theorem modBuf_buf_self (s : Bio) (i : Fin NBUF) (f : Buf → Buf) :
    (s.modBuf i f).buf i = f (s.buf i) :=
  Function.update_self ..

theorem modBuf_buf_of_ne (s : Bio) {i j : Fin NBUF} (f : Buf → Buf) (h : j ≠ i) :
    (s.modBuf i f).buf j = s.buf j :=
  Function.update_of_ne h ..

@[simp] theorem modBuf_disk (s : Bio) (i : Fin NBUF) (f : Buf → Buf) :
    (s.modBuf i f).disk = s.disk := rfl
@[simp] theorem modBuf_issued (s : Bio) (i : Fin NBUF) (f : Buf → Buf) :
    (s.modBuf i f).issued = s.issued := rfl
@[simp] theorem modBuf_lru (s : Bio) (i : Fin NBUF) (f : Buf → Buf) :
    (s.modBuf i f).lru = s.lru := rfl

@[simp] theorem modBuf_modBuf (s : Bio) (i : Fin NBUF) (f g : Buf → Buf) :
    (s.modBuf i f).modBuf i g = s.modBuf i (fun b => g (f b)) := by
  simp [modBuf]

/-- Buffer `i` caches block `b`. -/
def Holds (s : Bio) (i : Fin NBUF) (b : ℕ) : Prop :=
  (s.buf i).dev = ROOTDEV ∧ (s.buf i).blockno = b

instance (s : Bio) (i : Fin NBUF) (b : ℕ) : Decidable (s.Holds i b) := by
  unfold Holds
  infer_instance

/-- What holds of the cache whenever no function of bio.c is running. -/
structure WF (s : Bio) : Prop where
  lru_nodup : s.lru.Nodup
  lru_all : ∀ i, i ∈ s.lru
  used : ∀ i, (s.buf i).dev = 0 ∧ (s.buf i).refcnt = 0 ∨
    (s.buf i).dev = ROOTDEV ∧ (s.buf i).valid = true ∧ (s.buf i).blockno < FSSIZE
  unique : ∀ i j b, s.Holds i b → s.Holds j b → i = j

theorem bioInit_WF (disk : ℕ → Block) : (bioInit disk).WF where
  lru_nodup := List.nodup_reverse.mpr (List.nodup_finRange _)
  lru_all := fun i => List.mem_reverse.mpr (List.mem_finRange i)
  used := fun _ => Or.inl ⟨rfl, rfl⟩
  unique := fun i _ _ hi => by simp [Holds, bioInit] at hi

section Steps

variable {s s' : Bio} {i : Fin NBUF} {b : ℕ}

theorem WF.valid_of_holds (wf : s.WF) (h : s.Holds i b) : (s.buf i).valid = true := by
  rcases wf.used i with hu | hu
  · exact absurd (hu.1.symm.trans h.1) (by decide)
  · exact hu.2.1

theorem WF.lt_of_holds (wf : s.WF) (h : s.Holds i b) : b < FSSIZE := by
  rcases wf.used i with hu | hu
  · exact absurd (hu.1.symm.trans h.1) (by decide)
  · exact h.2 ▸ hu.2.2

theorem WF.holds_of_refcnt (wf : s.WF) (h : 0 < (s.buf i).refcnt) : s.Holds i (s.buf i).blockno := by
  rcases wf.used i with hu | hu
  · omega
  · exact ⟨hu.1, rfl⟩

/-- Everything `bread` can do: take another reference on the buffer of the block, or reload an
    unreferenced buffer from the disk. -/
theorem bread_cases (wf : s.WF) (h : (bread ROOTDEV b).run s = .ok i s') :
    b < FSSIZE ∧
      (s.Holds i b ∧ s' = s.modBuf i (fun c => { c with refcnt := c.refcnt + 1 }) ∨
        (∀ j, ¬ s.Holds j b) ∧ (s.buf i).refcnt = 0 ∧
          s' = s.modBuf i (fun _ => ⟨true, ROOTDEV, b, 1, s.disk b⟩)) := by
  unfold bread bget at h
  by_cases hb : FSSIZE ≤ b
  · simp [hb, Comp.run_bind] at h
  · refine ⟨by omega, ?_⟩
    simp only [hb, ↓reduceIte, Comp.bind_assoc_run, Comp.bind_get_run] at h
    split at h
    · next j hj =>
      have hh : s.Holds j b := by simpa [Holds] using List.find?_some hj
      simp only [Comp.bind_assoc_run, Comp.bind_modify_run, Comp.bind_pure_run, Comp.bind_get_run,
        modBuf_buf_self, wf.valid_of_holds hh, ↓reduceIte, Comp.run_pure,
        Outcome.ok.injEq] at h
      obtain ⟨rfl, rfl⟩ := h
      exact Or.inl ⟨hh, rfl⟩
    · next hn =>
      have none : ∀ j, ¬ s.Holds j b := by
        intro j hj
        have := List.find?_eq_none.mp hn j (wf.lru_all j)
        simp only [decide_eq_true_eq] at this
        exact this hj
      split at h
      · next j hj =>
        have hr : (s.buf j).refcnt = 0 := by simpa using List.find?_some hj
        simp [Comp.bind_assoc_run, diskRead] at h
        obtain ⟨rfl, rfl⟩ := h
        exact Or.inr ⟨none, hr, rfl⟩
      · simp [Comp.run_bind] at h

/-- `bread` returns as soon as the block is cached or some buffer is unreferenced. -/
theorem bread_returns (wf : s.WF) (hb : b < FSSIZE)
    (room : (∃ j, s.Holds j b) ∨ ∃ j, (s.buf j).refcnt = 0) :
    ∃ i s', (bread ROOTDEV b).run s = .ok i s' := by
  unfold bread bget
  simp only [not_le.mpr hb, ↓reduceIte, Comp.bind_assoc_run, Comp.bind_get_run]
  split
  · next j hj =>
    have hh : s.Holds j b := by simpa [Holds] using List.find?_some hj
    simp [Comp.bind_assoc_run, wf.valid_of_holds hh]
  · next hn =>
    rcases room with ⟨j, hj⟩ | ⟨j, hj⟩
    · have := List.find?_eq_none.mp hn j (wf.lru_all j)
      simp only [decide_eq_true_eq] at this
      exact absurd hj this
    · split
      · simp [Comp.bind_assoc_run, diskRead]
      · next hf =>
        have := List.find?_eq_none.mp hf j (List.mem_reverse.mpr (wf.lru_all j))
        simp [hj] at this

theorem brelse_cases (h : (brelse i).run s = .ok () s') :
    0 < (s.buf i).refcnt ∧ s'.disk = s.disk ∧ s'.issued = s.issued ∧
      s'.buf = (s.modBuf i (fun c => { c with refcnt := c.refcnt - 1 })).buf ∧
      s'.lru = if (s.buf i).refcnt = 1 then i :: s.lru.erase i else s.lru := by
  unfold brelse at h
  by_cases hr : (s.buf i).refcnt < 1
  · simp only [Comp.bind_get_run, hr, ↓reduceIte, Comp.run_halt, reduceCtorEq] at h
  · have one : (s.buf i).refcnt - 1 = 0 ↔ (s.buf i).refcnt = 1 := by omega
    simp only [Comp.bind_get_run, hr, ↓reduceIte, Comp.bind_modify_run, Comp.run_ite,
      modBuf_buf_self, one, Comp.run_modify, Comp.run_pure, modBuf_lru] at h
    refine ⟨by omega, ?_⟩
    split at h <;> next h1 => cases h; simp [h1]

theorem brelse_returns (h : 0 < (s.buf i).refcnt) : ∃ s', (brelse i).run s = .ok () s' := by
  unfold brelse
  simp only [Comp.bind_get_run, show ¬ (s.buf i).refcnt < 1 by omega, ↓reduceIte,
    Comp.bind_modify_run, Comp.run_ite, Comp.run_modify, Comp.run_pure]
  split <;> exact ⟨_, rfl⟩

theorem bwrite_cases (h : (bwrite i).run s = .ok () s') :
    s' = { s with
      disk := Function.update s.disk (s.buf i).blockno (s.buf i).data
      issued := s.issued ++ [((s.buf i).blockno, (s.buf i).data)] } := by
  unfold bwrite at h
  by_cases hr : (s.buf i).refcnt < 1
  · simp only [Comp.bind_get_run, hr, ↓reduceIte, Comp.run_halt, reduceCtorEq] at h
  · simp only [Comp.bind_get_run, hr, ↓reduceIte, diskWrite, Comp.run_modify, Outcome.ok.injEq,
      true_and] at h
    exact h.symm

theorem bwrite_returns (h : 0 < (s.buf i).refcnt) : ∃ s', (bwrite i).run s = .ok () s' := by
  unfold bwrite
  simp [show (s.buf i).refcnt ≠ 0 by omega, diskWrite]

/-- Changing reference counts and contents of buffers in use keeps the cache well formed. -/
theorem WF.modBuf (wf : s.WF) (h : s.Holds i b) (f : Buf → Buf)
    (hf : ∀ c, (f c).dev = c.dev ∧ (f c).blockno = c.blockno ∧ (f c).valid = c.valid) :
    (s.modBuf i f).WF := by
  have same : ∀ j c, (s.modBuf i f).Holds j c ↔ s.Holds j c := by
    intro j c
    unfold Holds
    by_cases hj : j = i
    · subst hj
      rw [modBuf_buf_self, (hf _).1, (hf _).2.1]
    · rw [modBuf_buf_of_ne _ _ hj]
  refine ⟨wf.lru_nodup, wf.lru_all, ?_, ?_⟩
  · intro j
    by_cases hj : j = i
    · subst hj
      rw [modBuf_buf_self, (hf _).1, (hf _).2.1, (hf _).2.2]
      exact Or.inr ⟨h.1, wf.valid_of_holds h, h.2 ▸ wf.lt_of_holds h⟩
    · rw [modBuf_buf_of_ne _ _ hj]
      exact wf.used j
  · intro j k c hj hk
    exact wf.unique j k c ((same j c).mp hj) ((same k c).mp hk)

theorem bread_WF (wf : s.WF) (h : (bread ROOTDEV b).run s = .ok i s') : s'.WF := by
  obtain ⟨hb, ⟨hh, rfl⟩ | ⟨hn, hr, rfl⟩⟩ := bread_cases wf h
  · exact wf.modBuf hh _ (fun _ => ⟨rfl, rfl, rfl⟩)
  · refine ⟨wf.lru_nodup, wf.lru_all, ?_, ?_⟩
    · intro j
      by_cases hj : j = i
      · subst hj
        exact Or.inr (by simpa using hb)
      · rw [modBuf_buf_of_ne _ _ hj]
        exact wf.used j
    · intro j k c hj hk
      unfold Holds at hj hk
      by_cases hji : j = i <;> by_cases hki : k = i
      · rw [hji, hki]
      · subst hji
        rw [modBuf_buf_self] at hj
        rw [modBuf_buf_of_ne _ _ hki] at hk
        exact absurd ⟨hk.1, hk.2.trans hj.2.symm⟩ (hn k)
      · subst hki
        rw [modBuf_buf_self] at hk
        rw [modBuf_buf_of_ne _ _ hji] at hj
        exact absurd ⟨hj.1, hj.2.trans hk.2.symm⟩ (hn j)
      · rw [modBuf_buf_of_ne _ _ hji] at hj
        rw [modBuf_buf_of_ne _ _ hki] at hk
        exact wf.unique j k c hj hk

theorem bread_holds (wf : s.WF) (h : (bread ROOTDEV b).run s = .ok i s') : s'.Holds i b := by
  obtain ⟨_, ⟨hh, rfl⟩ | ⟨_, _, rfl⟩⟩ := bread_cases wf h
  · simpa [Holds] using hh
  · simp [Holds]

theorem brelse_WF (wf : s.WF) (h : (brelse i).run s = .ok () s') : s'.WF := by
  obtain ⟨hr, _, _, hb, hl⟩ := brelse_cases h
  have base := wf.modBuf (wf.holds_of_refcnt hr) (fun c => { c with refcnt := c.refcnt - 1 })
    (fun _ => ⟨rfl, rfl, rfl⟩)
  refine ⟨?_, ?_, ?_, ?_⟩
  · rw [hl]
    split
    · exact (List.perm_cons_erase (wf.lru_all i)).nodup_iff.mp wf.lru_nodup
    · exact wf.lru_nodup
  · intro j
    rw [hl]
    split
    · exact (List.perm_cons_erase (wf.lru_all i)).mem_iff.mp (wf.lru_all j)
    · exact wf.lru_all j
  · rw [hb]
    exact base.used
  · unfold Holds
    rw [hb]
    exact base.unique

end Steps

section Quiet

/-- No block is written to the disk. -/
def Quiet (s s' : Bio) : Prop := s'.disk = s.disk ∧ s'.issued = s.issued

theorem Quiet.refl (s : Bio) : Quiet s s := ⟨rfl, rfl⟩

theorem Quiet.trans (s t u : Bio) (h : Quiet s t) (h' : Quiet t u) : Quiet s u :=
  ⟨h'.1.trans h.1, h'.2.trans h.2⟩

theorem Quiet.modify {f : Bio → Bio} (h : ∀ s, Quiet s (f s)) :
    Comp.Always Quiet (.modify f) := h

theorem bget_quiet (dev b : ℕ) : Comp.Always Quiet (bget dev b) := by
  unfold bget
  refine .ite (.halt Quiet.refl _) (.bind Quiet.trans (.get Quiet.refl) fun s => ?_)
  split
  · exact .bind Quiet.trans (.modify fun _ => ⟨rfl, rfl⟩) fun _ => .pure Quiet.refl _
  split
  · exact .bind Quiet.trans (.modify fun _ => ⟨rfl, rfl⟩) fun _ => .pure Quiet.refl _
  · exact .halt Quiet.refl _

theorem bread_quiet (dev b : ℕ) : Comp.Always Quiet (bread dev b) := by
  unfold bread
  refine .bind Quiet.trans (bget_quiet dev b) fun i => ?_
  refine .bind Quiet.trans (.get Quiet.refl) fun s => .ite (.pure Quiet.refl _) ?_
  refine .bind Quiet.trans (.modify fun _ => ⟨rfl, rfl⟩) fun _ => ?_
  exact .bind Quiet.trans (.modify fun _ => ⟨rfl, rfl⟩) fun _ => .pure Quiet.refl _

theorem brelse_quiet (i : Fin NBUF) : Comp.Always Quiet (brelse i) := by
  unfold brelse
  refine .bind Quiet.trans (.get Quiet.refl) fun s => .ite (.halt Quiet.refl _) ?_
  refine .bind Quiet.trans (.modify fun _ => ⟨rfl, rfl⟩) fun _ => ?_
  refine .bind Quiet.trans (.get Quiet.refl) fun s => ?_
  exact .ite (.modify fun _ => ⟨rfl, rfl⟩) (.pure Quiet.refl _)

end Quiet

end Bio

end EasyXv6.Fs
