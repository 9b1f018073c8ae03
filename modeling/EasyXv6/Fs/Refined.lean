import EasyXv6.Fs.Transparent

set_option autoImplicit false

/-!
# The buffer cache refines the one with a list

The functions on the pointers compute what the functions on the list of the buffers compute, as
long as no count of references passes 64 bits.
-/
namespace EasyXv6.Fs.Bcache
open Lib

variable {c c' : Bcache} {l : List (Fin NBUF)} (issued : List (ℕ × Block)) {i : Fin NBUF} {dev b : ℕ}

/-- The cache whose list of buffers is `l`. -/
def toBio (c : Bcache) (issued : List (ℕ × Block)) (l : List (Fin NBUF)) : Bio :=
  ⟨c.disk, issued, c.buf, l⟩

theorem bget_toBio (h : c.Lru l) (count : ∀ j, (c.buf j).refcnt + 1 < 2 ^ 64)
    (hr : (bget dev b).run c = .ok i c') :
    (Bio.bget dev b).run (c.toBio issued l) = .ok i (c'.toBio issued l) := by
  have hb : b < FSSIZE := by
    by_contra large
    unfold bget at hr
    rw [if_pos (Nat.not_lt.mp large)] at hr
    cases hr
  rw [bget_run h hb] at hr
  unfold Bio.bget
  rw [if_neg (Nat.not_le.mpr hb), Comp.bind_get_run]
  have hit : (c.toBio issued l).lru.find? (fun j => decide (((c.toBio issued l).buf j).dev = dev ∧
      ((c.toBio issued l).buf j).blockno = b)) = l.find? (fun j => decide (c.Caches j dev b)) := rfl
  have unused : (c.toBio issued l).lru.reverse.find? (fun j => decide (((c.toBio issued l).buf j).refcnt = 0)) =
      l.reverse.find? (fun j => decide ((c.buf j).refcnt = 0)) := rfl
  rw [hit, unused]
  cases found : l.find? (fun j => decide (c.Caches j dev b)) with
  | some j =>
    rw [found] at hr
    cases hr
    dsimp only
    rw [Comp.bind_modify_run, Comp.run_pure]
    unfold Bio.modBuf modBuf toBio
    dsimp only
    rw [Nat.mod_eq_of_lt (count i)]
  | none =>
    rw [found] at hr
    dsimp only at hr ⊢
    cases free : l.reverse.find? (fun j => decide ((c.buf j).refcnt = 0)) with
    | some j =>
      rw [free] at hr
      cases hr
      rfl
    | none =>
      rw [free] at hr
      cases hr

theorem bread_toBio (h : c.Lru l) (count : ∀ j, (c.buf j).refcnt + 1 < 2 ^ 64)
    (hr : (bread dev b).run c = .ok i c') :
    (Bio.bread dev b).run (c.toBio issued l) = .ok i (c'.toBio issued l) := by
  obtain ⟨j, t, get, rest⟩ := (Comp.bind_ok_iff _ _ _ _ _).mp hr
  unfold Bio.bread
  rw [Comp.run_bind_of_ok (bget_toBio issued h count get), Comp.bind_get_run]
  rw [Comp.bind_get_run] at rest
  change (if (t.buf j).valid = true then _ else _ : Comp Bio (Fin NBUF)).run _ = _
  split at rest
  next valid =>
    cases rest
    rw [if_pos valid]
    rfl
  next invalid =>
    cases rest
    rw [if_neg invalid]
    rfl

theorem bwrite_toBio (hr : (bwrite i).run c = .ok () c') :
    (Bio.bwrite i).run (c.toBio issued l) =
      .ok () (c'.toBio (issued ++ [((c.buf i).blockno, (c.buf i).data)]) l) := by
  obtain ⟨pos, rfl⟩ := bwrite_cases hr
  unfold Bio.bwrite
  rw [Comp.bind_get_run]
  exact congrArg (fun m : Comp Bio Unit => m.run _) (if_neg (Nat.not_lt.mpr pos))

theorem brelse_toBio (h : c.Lru l) (hr : (brelse i).run c = .ok () c') :
    ∃ l', c'.Lru l' ∧ (Bio.brelse i).run (c.toBio issued l) = .ok () (c'.toBio issued l') := by
  obtain ⟨pos, rfl⟩ := brelse_cases hr
  have run : (Bio.brelse i).run (c.toBio issued l) =
      if (c.buf i).refcnt - 1 = 0 then
        .ok () ((c.modBuf i fun x => { x with refcnt := x.refcnt - 1 }).toBio issued (i :: l.erase i))
      else .ok () ((c.modBuf i fun x => { x with refcnt := x.refcnt - 1 }).toBio issued l) := by
    have referenced : ¬ ((c.toBio issued l).buf i).refcnt < 1 := Nat.not_lt.mpr pos
    unfold Bio.brelse
    rw [Comp.bind_get_run, Comp.run_ite, if_neg referenced, Comp.bind_modify_run, Comp.bind_get_run, Bio.modBuf_buf_self,
      Comp.run_ite]
    rfl
  rw [run]
  have order : (c.modBuf i fun x => { x with refcnt := x.refcnt - 1 }).Lru l := ⟨h.perm, h.cycle⟩
  split
  · exact ⟨_, order.release i, rfl⟩
  · exact ⟨l, order, rfl⟩

inductive BioStep : Bio → Op → Bio → Prop
  | bread {s t : Bio} {dev b : ℕ} {i : Fin NBUF} (hr : (Bio.bread dev b).run s = .ok i t) :
      BioStep s (.bread dev b i) t
  | bwrite {s t : Bio} {i : Fin NBUF} (hr : (Bio.bwrite i).run s = .ok () t) : BioStep s (.bwrite i) t
  | brelse {s t : Bio} {i : Fin NBUF} (hr : (Bio.brelse i).run s = .ok () t) : BioStep s (.brelse i) t
  | bpin {s t : Bio} {i : Fin NBUF} (hr : (Bio.bpin i).run s = .ok () t) : BioStep s (.bpin i) t
  | bunpin {s t : Bio} {i : Fin NBUF} (hr : (Bio.bunpin i).run s = .ok () t) : BioStep s (.bunpin i) t
  | store {s t : Bio} {i : Fin NBUF} {data : Block}
      (hr : (Bio.setData i fun _ => data).run s = .ok () t) : BioStep s (.store i data) t

/-- No count of references passes 64 bits, and none is decremented at 0. -/
def Counted (s : Cached) (op : Op) (_ : Cached) : Prop :=
  (∀ j, (s.cache.buf j).refcnt + 1 < 2 ^ 64) ∧ ∀ i, op = .bunpin i → 0 < (s.cache.buf i).refcnt

theorem step_toBio {s s' : Cached} {op : Op} (h : s.cache.Lru l) (hs : Step s op s')
    (counted : Counted s op s') : ∃ l' issued', s'.cache.Lru l' ∧
      BioStep (s.cache.toBio issued l) op (s'.cache.toBio issued' l') := by
  cases hs with
  | bread hr =>
    obtain ⟨-, x, hx, same⟩ := bread_cases h hr
    exact ⟨l, issued, same ▸ ⟨h.perm, h.cycle⟩, .bread (bread_toBio issued h counted.1 hr)⟩
  | bwrite hr =>
    obtain ⟨-, same⟩ := bwrite_cases hr
    exact ⟨l, _, same ▸ ⟨h.perm, h.cycle⟩, .bwrite (bwrite_toBio issued hr)⟩
  | brelse hr =>
    obtain ⟨l', order, run⟩ := brelse_toBio issued h hr
    exact ⟨l', issued, order, .brelse run⟩
  | @bpin i c hr =>
    refine ⟨l, issued, bpin_cases hr ▸ ⟨h.perm, h.cycle⟩, .bpin ?_⟩
    rw [bpin_cases hr]
    unfold Bio.bpin Bio.modBuf modBuf toBio
    dsimp only
    rw [Nat.mod_eq_of_lt (counted.1 i)]
    rfl
  | @bunpin i c hr =>
    refine ⟨l, issued, bunpin_cases hr ▸ ⟨h.perm, h.cycle⟩, .bunpin ?_⟩
    rw [bunpin_cases hr]
    unfold Bio.bunpin Bio.modBuf modBuf toBio
    dsimp only
    rw [if_neg (Nat.pos_iff_ne_zero.mp (counted.2 i rfl))]
    rfl
  | store => exact ⟨l, issued, ⟨h.perm, h.cycle⟩, .store rfl⟩

/-- A run of the cache is one of the cache with a list, from `bio_init` on. -/
theorem run_toBio (disk : ℕ → Block) (tr : List (Op × Cached))
    (run : Along Step (Cached.init disk) tr) (counted : Along Counted (Cached.init disk) tr) :
    ∃ tr' issued l, tr'.map Prod.fst = tr.map Prod.fst ∧ Along BioStep (Bio.bioInit disk) tr' ∧
      final (Bio.bioInit disk) tr' = (final (Cached.init disk) tr).cache.toBio issued l := by
  have start : (Cached.init disk).cache.toBio [] (List.finRange NBUF).reverse = Bio.bioInit disk := by
    unfold Cached.init toBio Bio.bioInit
    dsimp only
    unfold bioInit
    rw [(foldl_toFront _ _).1, (foldl_toFront _ _).2]
  rw [← start]
  have order : (Cached.init disk).cache.Lru (List.finRange NBUF).reverse := bioInit_lru disk
  generalize Cached.init disk = s at run counted order ⊢
  generalize [] = issued
  generalize (List.finRange NBUF).reverse = l at order ⊢
  induction tr generalizing s issued l with
  | nil => exact ⟨[], issued, l, rfl, trivial, rfl⟩
  | cons step rest ih =>
    obtain ⟨l', issued', order', hs⟩ := step_toBio issued order run.1 counted.1
    obtain ⟨tr', issued'', l'', ops, run', last⟩ := ih step.2 run.2 counted.2 issued' l' order'
    exact ⟨(step.1, _) :: tr', issued'', l'', congrArg (step.1 :: ·) ops, ⟨hs, run'⟩, last⟩

end EasyXv6.Fs.Bcache
