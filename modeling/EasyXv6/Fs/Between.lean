import EasyXv6.Fs.Calls
import EasyXv6.Fs.Formatted
import EasyXv6.Fs.Silent

set_option autoImplicit false

/-!
# The file system between two calls

A formatted disk that was mounted is such a state, and a transaction leads from one to the next.
-/
namespace EasyXv6.Fs
open Lib

section Formatted

variable {disk : ℕ → Block} {r : ℕ}

/-- The image of a disk of which no block is cached. -/
def whole (disk : ℕ → Block) : Image := fun c => some (disk c)

theorem alloc_formatted (h : Formatted disk r) {i : ℕ} : Alloc (whole disk).dino i ↔ i = ROOTINO := by
  constructor
  · rintro ⟨-, hi, used⟩
    by_contra hne
    exact used (h.free i hi hne)
  · rintro rfl
    refine ⟨Nat.le_refl _, by decide, ?_⟩
    change ((disk (INODES + ROOTINO / IPB)).dinode (ROOTINO % IPB)).type ≠ 0
    rw [h.root]
    exact (by decide : T_DIR ≠ 0)

theorem dino_root (h : Formatted disk r) : (whole disk).dino ROOTINO = rootDinode r := h.root

theorem addr_root (hr : r < FSSIZE) {k : ℕ} (hk : k ≤ NDIRECT) :
    (rootDinode r).addr k = if k = 0 then r else 0 := by
  have lt : r < 2 ^ 32 := Nat.lt_trans hr (by decide)
  unfold rootDinode Dinode.addr
  rw [dif_pos (Nat.lt_succ_of_le hk)]
  dsimp only
  split
  · rw [BitVec.toNat_ofNat, Nat.mod_eq_of_lt lt]
  · rfl

/-- The root has one block. -/
theorem ref_root (h : Formatted disk r) (k : ℕ) :
    (whole disk).ref (rootDinode r) k = if k = 0 then r else 0 := by
  by_cases hk : k ≤ NDIRECT
  · rw [Image.ref_direct hk, addr_root h.lt hk]
  · rw [Image.ref_entry_zero (by omega), if_neg (by omega)]
    rw [addr_root h.lt (Nat.le_refl _), if_neg (by decide)]

theorem bit_formatted (h : Formatted disk r) {b : ℕ} (hb : b < BPB) :
    (whole disk).bit b = decide (b ≤ BITMAP ∨ b = r) := h.bits b hb

theorem Formatted.laid (h : Formatted disk r) : Laid (whole disk) (whole disk).dino := by
  have lt : r < BPB := Nat.lt_trans h.lt (by decide)
  -- the root is the only inode, and `r` its only block
  have only : ∀ i, Alloc (whole disk).dino i → ∀ k, (whole disk).ref ((whole disk).dino i) k =
      if k = 0 then r else 0 := by
    intro i hi k
    rw [(alloc_formatted h).mp hi, dino_root h, ref_root h]
  refine ⟨nofun, fun b hb => ?_, fun i hi => Or.inl ?_, fun i hi => ?_, fun i hi k _ hk => ?_,
    fun i j hi hj k _ m _ hk he => ?_, fun i hi n hn => ?_, fun _ _ _ _ _ _ hn => by cases hn⟩
  · rw [bit_formatted h (Nat.lt_of_le_of_lt hb (by decide))]
    exact decide_eq_true (Or.inl hb)
  · rw [(alloc_formatted h).mp hi, dino_root h]
    rfl
  · rw [(alloc_formatted h).mp hi, dino_root h]
    exact (by decide : 48 ≤ MAXFILE * BSIZE)
  · rw [only i hi] at hk ⊢
    split at hk
    next h0 =>
      rw [if_pos h0, bit_formatted h lt]
      exact ⟨h.high, h.lt, decide_eq_true (Or.inr rfl)⟩
    next => exact absurd rfl hk
  · rw [only i hi] at hk he
    rw [only j hj] at he
    refine ⟨((alloc_formatted h).mp hi).trans ((alloc_formatted h).mp hj).symm, ?_⟩
    have := h.high
    split at hk
    next h0 =>
      rw [if_pos h0] at he
      split at he
      next h0' => exact h0.trans h0'.symm
      next => omega
    next => exact absurd rfl hk
  · have size : (rootDinode r).size.toNat = 48 := rfl
    rw [(alloc_formatted h).mp hi, dino_root h, size] at hn
    have zero : n = 0 := by
      simp only [BSIZE] at hn
      omega
    have := h.high
    rw [only i hi, zero, if_pos (by decide)]
    omega

theorem Formatted.ok {ic : Fin NINODE → Inode} (h : Formatted disk r) (refs : ∀ ip, (ic ip).ref = 0) :
    Ok (whole disk) (whole disk).dino ic := by
  have none : ∀ ip, ¬ 0 < (ic ip).ref := fun ip => by
    rw [refs]
    exact Int.lt_irrefl 0
  exact ⟨h.laid, fun ip => (refs ip).ge, fun ip hi => absurd hi (none ip),
    fun ip hi => absurd hi (none ip), fun ip _ hi => absurd hi (none ip),
    fun ip hi => absurd hi (none ip), fun _ _ _ => rfl, fun _ _ => .refl _⟩

/-- The tree whose only directory is an empty root. -/
def rootTree : Dirs := Function.update (fun _ => none) ROOTINO (some ⟨ROOTINO, []⟩)

theorem rootTree_some {d : ℕ} {x : Dir ℕ (List UInt8)} (h : rootTree d = some x) :
    d = ROOTINO ∧ x = ⟨ROOTINO, []⟩ := by
  unfold rootTree at h
  by_cases hd : d = ROOTINO
  · rw [hd, Function.update_self] at h
    exact ⟨hd, (Option.some.inj h).symm⟩
  · rw [Function.update_of_ne hd] at h
    cases h

theorem rootTree_wf : DirTree.Wf inums ROOTINO rootTree := by
  refine ⟨fun d hd => ?_, ⟨⟨ROOTINO, []⟩, Function.update_self .., rfl⟩, fun d x j y hd hj => ?_,
    fun j y hj hne => absurd (rootTree_some hj).1 hne, fun d x hd => ?_,
    ⟨fun _ => 0, fun j y hj hne => absurd (rootTree_some hj).1 hne⟩⟩
  · obtain ⟨x, hx⟩ := Option.ne_none_iff_exists'.mp hd
    rw [(rootTree_some hx).1]
    decide
  · rw [(rootTree_some hd).2] at hj
    exact absurd hj (Nat.lt_irrefl 0)
  · rw [(rootTree_some hd).2]
    rfl

theorem links_rootTree (j : ℕ) : rootTree.links j = if j = ROOTINO then 2 else 0 := by
  have links := Dirs.links_update (fun _ => none) (show ROOTINO ∈ inums by decide)
    (some ⟨ROOTINO, []⟩) j
  have none : Dirs.links (fun _ => none) j = if j = ROOTINO then 1 else 0 := by
    unfold Dirs.links DirTree.links DirTree.weight
    simp
  have weight : DirTree.weight (some (⟨ROOTINO, []⟩ : Dir ℕ (List UInt8))) j =
      if j = ROOTINO then 1 else 0 := by
    simp only [DirTree.weight, Option.elim_some, uses, List.countP_nil, Nat.zero_add, eq_comm]
  have zero : DirTree.weight (Option.none : Option (Dir ℕ (List UInt8))) j = 0 := rfl
  rw [none, weight, zero] at links
  unfold rootTree
  rw [Nat.add_zero] at links
  rw [links]
  split <;> rfl

/-- The directory entry at `off` of a block. -/
def entryAt (d : Block) (off : ℕ) : Bytes DIRENT_SIZE := fun j => d.byte (off + j.val)

theorem byte_entryAt (d : Block) (off : ℕ) {j : ℕ} (hj : j < DIRENT_SIZE) :
    (entryAt d off).byte j = d.byte (off + j) := by
  rw [Bytes.byte, dif_pos hj]
  rfl

theorem slotOf_entryAt (d : Block) (off : ℕ) : slotOf (entryAt d off) =
    if d.num off 8 = 0 then none
    else some (d.num off 8, cstr (fun i => d.byte (off + 8 + i)) DIRSIZ) := by
  have inum : direntInum (entryAt d off) = d.num off 8 := by
    refine leVal_congr fun j hj => ?_
    rw [Nat.zero_add, byte_entryAt d off (by simp only [DIRENT_SIZE]; omega)]
  have name : cstr (direntName (entryAt d off)) DIRSIZ =
      cstr (fun i => d.byte (off + 8 + i)) DIRSIZ := by
    refine cstr_congr fun j hj => ?_
    rw [direntName, byte_entryAt d off (by simp only [DIRENT_SIZE, DIRSIZ] at *; omega),
      Nat.add_assoc]
  rw [slotOf, inum, name]

/-- The root directory of a formatted disk lists itself. -/
theorem root_lists (h : Formatted disk r) :
    ((whole disk).node (rootDinode r)).Lists (entries ROOTINO ⟨ROOTINO, []⟩) := by
  have byte : ∀ q < 48, ((whole disk).node (rootDinode r)).byte q = some ((disk r).byte q) := by
    intro q hq
    have size : (rootDinode r).size.toNat = 48 := rfl
    have first : q / BSIZE = 0 := by
      simp only [BSIZE]
      omega
    have off : q % BSIZE = q := by
      simp only [BSIZE]
      omega
    change (whole disk).byteAt (rootDinode r) q = _
    rw [Image.byteAt, if_pos (by rwa [size]), Image.rawByte, first, off]
    change (whole disk ((whole disk).ref (rootDinode r) 0)).map _ = _
    rw [ref_root h]
    rfl
  refine ⟨rfl, fun m hm => ⟨entryAt (disk r) (DIRENT_SIZE * m), fun j hj => ?_, ?_⟩⟩
  · have two : m < 2 := hm
    rw [byte _ (by simp only [DIRENT_SIZE] at *; omega), byte_entryAt _ _ hj]
  · rw [slotOf_entryAt]
    have two : m = 0 ∨ m = 1 := by
      have : m < 2 := hm
      omega
    rcases two with rfl | rfl
    · rw [Nat.mul_zero, h.dot.1, if_neg (by decide), Nat.zero_add, h.dot.2]
      rfl
    · rw [Nat.mul_one, h.dotdot.1, if_neg (by decide), h.dotdot.2]
      rfl

theorem Formatted.tree (h : Formatted disk r) :
    Tree [] (nodes (whole disk) (whole disk).dino) rootTree := by
  have root : nodes (whole disk) (whole disk).dino ROOTINO = (whole disk).node (rootDinode r) := by
    rw [nodes_of_alloc ((alloc_formatted h).mpr rfl), dino_root h]
  refine ⟨rootTree_wf, fun d x hd => ?_, fun d x j nm hd hj => ?_, fun d x hd => ?_, fun j hj => ?_⟩
  · obtain ⟨rfl, rfl⟩ := rootTree_some hd
    rw [root]
    exact ⟨rfl, root_lists h⟩
  · rw [(rootTree_some hd).2] at hj
    cases hj
  · rw [(rootTree_some hd).2]
    exact distinct_dots d ROOTINO
  · have used : Alloc (whole disk).dino j := by
      by_contra hn
      rw [nodes_of_free hn] at hj
      exact hj rfl
    rw [(alloc_formatted h).mp used, root, links_rootTree]
    rfl

end Formatted

namespace Vol

variable {o : ℤ} {k : ℕ} {N : ℕ → Node} {R : List Ref} {L : List (Fin NINODE)} {s : Vol}
  {E : String → Vol → Prop}

/-- No transaction is open and the log is empty. -/
structure Between (N : ℕ → Node) (R : List Ref) (L : List (Fin NINODE)) (s : Vol) : Prop where
  fsys : Fsys 0 0 N R L s
  logged : Log.LogCtx.logged s.blk.ctx = []
  clean : (s.blk.bio.disk 2).headerN = 0

theorem Mounted.between (h : Mounted s) : ∃ N, Between N [] [] s ∧ World N rootTree [] [] := by
  obtain ⟨r, formatted⟩ := h.disk
  refine ⟨nodes (whole s.blk.bio.disk) (whole s.blk.bio.disk).dino, ⟨⟨⟨_, _, [], ⟨h.at0,
    formatted.ok h.refs⟩, rfl, .nil META⟩, ⟨h.refs, nofun, nofun⟩⟩, h.at0.inv.ctx.logged,
    formatted.header⟩, formatted.tree, fun i hi => Or.inl ?_⟩
  have used : Alloc (whole s.blk.bio.disk).dino i := by
    by_contra hn
    rw [nodes_of_free hn] at hi
    exact hi rfl
  rw [(alloc_formatted formatted).mp used, links_rootTree]
  decide

theorem Fsys.between (h : Fsys 0 0 N R L s) (logged : Log.LogCtx.logged s.blk.ctx = [])
    (clean : (s.blk.bio.disk 2).headerN = 0) : Between N R L s := ⟨h, logged, clean⟩

theorem Between.at0 (h : Between N R L s) :
    ∃ V D, FsAt 0 [] [] V D s ∧ nodes V D = N := by
  obtain ⟨V, D, l, at', nodes, -⟩ := h.fsys.shows
  have : l = [] := at'.blk.inv.ctx.logged.symm.trans h.logged
  subst this
  exact ⟨V, D, at', nodes⟩

/-- What only looks at the file system leaves it between two calls. -/
theorem Between.looked {R' : List Ref} {L' : List (Fin NINODE)} {s' : Vol} (h : Between N R L s)
    (fsys : Fsys 0 0 N R' L' s') (look : Looked L s s') : Between N R' L' s' :=
  ⟨fsys, by rw [look.ctx, h.logged], by rw [look.disk, h.clean]⟩

/-- The state once a transaction is open. -/
def begun (s : Vol) : Vol :=
  { s with blk := { s.blk with ctx := { s.blk.ctx with outstanding := 1 } } }

theorem beginOp_sat (h : Between N R L s) :
    Comp.Sat beginOp s E fun _ s' => Fsys 1 0 N R L s' ∧ s' = s.begun := by
  obtain ⟨V, D, at', rfl⟩ := h.at0
  have none : s.blk.ctx.lh.n = 0 := at'.blk.inv.ctx.n
  refine .of_run (Comp.zoom_run_of_ok (Log.beginOp_returns none at'.blk.outstanding
    at'.blk.committing)) ⟨⟨⟨V, D, [], ⟨?_, at'.ok⟩, rfl, .nil META⟩, h.fsys.refs⟩, rfl⟩
  exact ⟨⟨at'.blk.inv.bio, ⟨at'.blk.inv.ctx.dev, at'.blk.inv.ctx.start, at'.blk.inv.ctx.size,
    at'.blk.inv.ctx.n, at'.blk.inv.ctx.block⟩, at'.blk.inv.nodup, at'.blk.inv.home,
    at'.blk.inv.short, at'.blk.inv.disj⟩, at'.blk.holds, at'.blk.view, rfl, at'.blk.committing,
    at'.blk.sb⟩

/-- The end of a transaction writes the blocks that it has recorded, and changes nothing else. -/
structure Ended (s s' : Vol) : Prop where
  rest : s' = { s with blk := s'.blk }
  disk : ∀ b, ¬ Log.InLog b → s'.blk.bio.disk b =
    Log.committed (Log.LogCtx.logged s.blk.ctx) s.view s.blk.bio.disk b
  view : ∀ b, INODES ≤ b → b ≤ BITMAP → s'.view b = s.view b
  logged : ∀ b ∈ Log.LogCtx.logged s.blk.ctx, s'.view b = s.view b
  falls : ∀ b, ¬ Log.InLog b → b ∉ Log.LogCtx.logged s.blk.ctx → Log.Falls b s.blk s'.blk
  safe : Log.CrashSafe (fun d => Log.Recoverable s.blk.bio.disk d ∨ Log.Recoverable s'.blk.bio.disk d)
    s.blk s'.blk

theorem endOp_sat (h : Fsys 1 k N R L s) (clean : (s.blk.bio.disk 2).headerN = 0) :
    Comp.Sat endOp s E fun _ s' => Between N R L s' ∧ Ended s s' := by
  obtain ⟨V, D, l, at', rfl, -⟩ := h.shows
  have high : ∀ b ∈ V.unsure, ¬ Log.InLog b := fun b hb =>
    not_inLog_of_high (Nat.le_of_lt (Nat.lt_of_le_of_lt (by decide) (at'.ok.laid.known b hb)))
  obtain ⟨t, ws, run, inv, outstanding, committing, trace, issued, view, falls⟩ :=
    Log.endOp_returns at'.blk.inv high at'.blk.outstanding at'.blk.committing
  obtain ⟨crash, clean', disk⟩ := Log.crash_commit clean at'.blk.inv.short at'.blk.inv.home trace
  refine .of_run (Comp.zoom_run_of_ok run) ⟨⟨⟨⟨V, D, [], ⟨?_, at'.ok⟩, rfl, .nil META⟩, h.refs⟩,
    inv.ctx.logged, ?_⟩, rfl, fun b hb => ?_, fun b lo hi => ?_, fun b hl => ?_, fun b hb hl => ?_, ws, issued, fun k => ?_⟩
  · refine ⟨inv, nofun, fun c d hc hd => ?_, outstanding, committing, at'.blk.sb⟩
    rw [← at'.blk.view c d hc hd]
    exact view c hc fun hn => by simp [Image.unsure, hd] at hn
  · rw [issued.disk]
    exact clean'
  · rw [at'.blk.inv.ctx.logged]
    change t.bio.disk b = _
    rw [issued.disk]
    exact disk b hb
  · refine view b (not_inLog_of_high lo) fun hn => ?_
    have := at'.ok.laid.known b hn
    omega
  · rw [at'.blk.inv.ctx.logged] at hl
    exact view b (at'.blk.inv.home b hl).2 (at'.blk.inv.disj b hl)
  · refine falls b hb ?_
    rwa [at'.blk.inv.ctx.logged] at hl
  · have hk := crash k
    split at hk
    next =>
      refine Or.inr (hk.congr fun b hb => ?_)
      change _ = t.bio.disk b
      rw [issued.disk, disk b hb]
    next => exact Or.inl hk

/-- A transaction leads from one state between two calls to the next. -/
theorem transaction_sat {α : Type} {m : Comp Vol α}
    {Q : α → (ℕ → Node) → List Ref → List (Fin NINODE) → Vol → Prop} (h : Between N R L s)
    (silent : Silent m) (spec : Fsys 1 0 N R L s.begun → Comp.Sat m s.begun E fun a u =>
      ∃ k N' R' L', Fsys 1 k N' R' L' u ∧ Q a N' R' L' u) :
    Comp.Sat (beginOp >>= fun _ => m >>= fun a => endOp >>= fun _ => pure a) s E fun a s' =>
      ∃ N' R' L' u, Between N' R' L' s' ∧ Q a N' R' L' u ∧ Ended u s' := by
  refine .call (beginOp_sat h) ?_
  rintro _ _ ⟨ht, rfl⟩
  refine .call (silent.sat (spec ht)) ?_
  rintro a u ⟨⟨k, N', R', L', hu, hQ⟩, disk⟩
  refine .call (endOp_sat hu ?_) fun _ v hv => .pure ⟨N', R', L', u, hv.1, hQ, hv.2⟩
  rw [disk]
  exact h.clean

end Vol

end EasyXv6.Fs
