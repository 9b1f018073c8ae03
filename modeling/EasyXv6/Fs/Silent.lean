import EasyXv6.Fs.Names
import EasyXv6.Fs.Transaction

set_option autoImplicit false

/-!
# Nothing reaches the disk before the end of a transaction
-/
namespace EasyXv6.Fs.Vol
open Lib

/-- Nothing has been written to the disk. -/
def Quiet (s s' : Vol) : Prop := Log.Quiet s.blk s'.blk

theorem Quiet.refl (s : Vol) : Quiet s s := Log.Quiet.refl _

theorem Quiet.trans (s t u : Vol) (h : Quiet s t) (h' : Quiet t u) : Quiet s u :=
  Log.Quiet.trans _ _ _ h h'

/-- Whatever the outcome, nothing has been written to the disk. -/
def Silent {α : Type} (m : Comp Vol α) : Prop := Comp.Always Quiet m

namespace Silent

variable {α β : Type}

theorem pure (a : α) : Silent (Pure.pure a : Comp Vol α) :=
  Comp.Always.pure Quiet.refl a

theorem halt (w : String) : Silent (Comp.halt w : Comp Vol α) :=
  Comp.Always.halt Quiet.refl w

theorem modify {f : Vol → Vol} (h : ∀ s, (f s).blk = s.blk) : Silent (Comp.modify f) := fun s => by
  change Log.Quiet s.blk (f s).blk
  rw [h]
  exact Log.Quiet.refl _

theorem bind {m : Comp Vol α} {f : α → Comp Vol β} (hm : Silent m) (hf : ∀ a, Silent (f a)) :
    Silent (m >>= f) :=
  Comp.Always.bind Quiet.trans hm hf

theorem get {f : Vol → Comp Vol β} (h : ∀ s, Silent (f s)) :
    Silent ((Comp.get : Comp Vol Vol) >>= f) :=
  bind (Comp.Always.get Quiet.refl) h

theorem gets {g : Vol → α} {f : α → Comp Vol β} (h : ∀ a, Silent (f a)) :
    Silent ((Comp.gets g : Comp Vol α) >>= f) :=
  bind (Comp.Always.gets Quiet.refl g) h

theorem ite {c : Prop} [Decidable c] {m n : Comp Vol α} (hm : Silent m) (hn : Silent n) :
    Silent (if c then m else n) := Comp.Always.ite hm hn

theorem forUpTo {n : ℕ} {body : ℕ → Comp Vol Unit} (h : ∀ k, Silent (body k)) :
    Silent (Comp.forUpTo n body) :=
  Comp.Always.forUpTo Quiet.refl Quiet.trans h

theorem firstSome {f : β → Comp Vol (Option α)} (h : ∀ x, Silent (f x)) (xs : List β) :
    Silent (Comp.firstSome f xs) := by
  induction xs with
  | nil => exact pure _
  | cons x xs ih =>
    refine bind (h x) fun r => ?_
    cases r with
    | some a => exact pure _
    | none => exact ih

theorem map {f : α → β} {m : Comp Vol α} (h : Silent m) : Silent (f <$> m) :=
  bind h fun a => pure (f a)

theorem disk {m : Comp Vol α} (h : Silent m) {s t : Vol} {a : α} (run : m.run s = .ok a t) :
    t.blk.bio.disk = s.blk.bio.disk := by
  have quiet := h s
  rw [run] at quiet
  exact quiet.1

/-- What is known of an outcome, with the disk. -/
theorem sat {m : Comp Vol α} (h : Silent m) {s : Vol} {E : String → Vol → Prop} {Q : α → Vol → Prop}
    (spec : Comp.Sat m s E Q) :
    Comp.Sat m s E fun a t => Q a t ∧ t.blk.bio.disk = s.blk.bio.disk := by
  have quiet := h s
  cases hr : m.run s with
  | ok a t =>
    rw [hr] at quiet
    exact .of_run hr ⟨spec.ok hr, quiet.1⟩
  | halt w t =>
    have bad := spec.halted hr
    unfold Comp.Sat
    rw [hr]
    exact bad

end Silent

section Blocks

theorem onBlk_silent {α : Type} {m : Comp Blk α} (h : Comp.Always Log.Quiet m) : Silent (onBlk m) :=
  .zoom (fun _ _ hq => hq) h

theorem bread_silent (dev b : ℕ) : Silent (bread dev b) :=
  onBlk_silent (Log.quiet_liftBio (Bio.bread_quiet dev b))

theorem brelse_silent (bp : Fin NBUF) : Silent (brelse bp) :=
  onBlk_silent (Log.quiet_liftBio (Bio.brelse_quiet bp))

theorem data_silent (bp : Fin NBUF) : Silent (data bp) :=
  onBlk_silent (Comp.Always.gets (fun _ => Log.Quiet.refl _) _)

theorem setData_silent (bp : Fin NBUF) (f : Block → Block) : Silent (setData bp f) :=
  onBlk_silent (Log.quiet_liftBio (.modify fun _ => ⟨rfl, rfl⟩))

theorem logWrite_silent (bp : Fin NBUF) : Silent (logWrite bp) := onBlk_silent (Log.logWrite_quiet bp)

theorem modInode_silent (ip : Fin NINODE) (f : Inode → Inode) : Silent (modInode ip f) :=
  .modify fun _ => rfl

end Blocks

section Inodes

theorem fsAllocIn_silent (dev b : ℕ) : Silent (fsAllocIn dev b) := by
  unfold fsAllocIn
  refine .get fun s => .bind (bread_silent _ _) fun bp => .bind (data_silent _) fun d => ?_
  split
  · refine .bind (setData_silent _ _) fun _ => .bind (logWrite_silent _) fun _ => ?_
    refine .bind (brelse_silent _) fun _ => .bind (bread_silent _ _) fun zbp => ?_
    refine .bind (setData_silent _ _) fun _ => .bind (logWrite_silent _) fun _ => ?_
    exact .bind (brelse_silent _) fun _ => .pure _
  · exact .bind (brelse_silent _) fun _ => .pure _

theorem fsAlloc_silent (dev : ℕ) : Silent (fsAlloc dev) := by
  unfold fsAlloc
  refine .get fun s => .bind (.firstSome (fsAllocIn_silent dev) _) fun r => ?_
  split
  · exact .pure _
  · exact .halt _

theorem fsFree_silent (dev b : ℕ) : Silent (fsFree dev b) := by
  unfold fsFree
  refine .get fun s => .bind (bread_silent _ _) fun bp => .bind (data_silent _) fun d => ?_
  refine .ite (.halt _) (.bind (setData_silent _ _) fun _ => .bind (logWrite_silent _) fun _ => ?_)
  exact brelse_silent _

theorem iget_silent (dev inum : ℕ) : Silent (iget dev inum) := by
  unfold iget
  refine .get fun s => ?_
  split
  · exact .bind (modInode_silent _ _) fun _ => .pure _
  · split
    · exact .bind (modInode_silent _ _) fun _ => .pure _
    · exact .halt _

theorem idup_silent (ip : Fin NINODE) : Silent (idup ip) :=
  .bind (modInode_silent _ _) fun _ => .pure _

theorem iallocAt_silent (dev : ℕ) (type : BitVec 16) (inum : ℕ) : Silent (iallocAt dev type inum) := by
  unfold iallocAt
  refine .get fun s => .bind (bread_silent _ _) fun bp => .bind (data_silent _) fun d => ?_
  refine .ite ?_ (.bind (brelse_silent _) fun _ => .pure _)
  refine .bind (setData_silent _ _) fun _ => .bind (logWrite_silent _) fun _ => ?_
  refine .bind (brelse_silent _) fun _ => .bind (iget_silent _ _) fun ip => ?_
  exact .bind (modInode_silent _ _) fun _ => .pure _

theorem ialloc_silent (dev : ℕ) (type : BitVec 16) : Silent (ialloc dev type) := by
  unfold ialloc
  refine .get fun s => .bind (.firstSome (iallocAt_silent dev type) _) fun r => ?_
  split
  · exact .pure _
  · exact .halt _

theorem ilock_silent (ip : Fin NINODE) : Silent (ilock ip) := by
  unfold ilock
  refine .get fun s => .ite (.halt _) (.ite (.pure _) ?_)
  refine .bind (bread_silent _ _) fun bp => .bind (data_silent _) fun d => ?_
  refine .bind (brelse_silent _) fun _ => .bind (modInode_silent _ _) fun _ => ?_
  exact .ite (.halt _) (.pure _)

theorem iunlock_silent (ip : Fin NINODE) : Silent (iunlock ip) :=
  .get fun _ => .ite (.halt _) (.pure _)

theorem iupdate_silent (ip : Fin NINODE) : Silent (iupdate ip) := by
  unfold iupdate
  refine .get fun s => .bind (bread_silent _ _) fun bp => .bind (setData_silent _ _) fun _ => ?_
  exact .bind (logWrite_silent _) fun _ => brelse_silent _

theorem itrunc_silent (ip : Fin NINODE) : Silent (itrunc ip) := by
  have direct : ∀ k, Silent (itruncDirect ip k) := fun k =>
    .gets fun i => .ite (.bind (fsFree_silent _ _) fun _ => modInode_silent _ _) (.pure _)
  have entry : ∀ dev bp j, Silent (itruncEntry dev bp j) := fun dev bp j =>
    .bind (data_silent _) fun a => .ite (fsFree_silent _ _) (.pure _)
  have indirect : Silent (itruncIndirect ip) := by
    refine .gets fun i => .ite ?_ (.pure _)
    refine .bind (bread_silent _ _) fun bp => .bind (.forUpTo (entry _ bp)) fun _ => ?_
    refine .bind (brelse_silent _) fun _ => .bind (fsFree_silent _ _) fun _ => modInode_silent _ _
  refine .bind (.forUpTo direct) fun _ => .bind indirect fun _ => ?_
  exact .bind (modInode_silent _ _) fun _ => iupdate_silent _

theorem iput_silent (ip : Fin NINODE) : Silent (iput ip) := by
  have free : Silent (iputFree ip) := by
    refine .gets fun i => .ite (.bind (itrunc_silent _) fun _ => ?_) (.pure _)
    refine .bind (modInode_silent _ _) fun _ => .bind (iupdate_silent _) fun _ => modInode_silent _ _
  exact .gets fun i => .ite (modInode_silent _ _) (.bind free fun _ => modInode_silent _ _)

theorem iunlockput_silent (ip : Fin NINODE) : Silent (iunlockput ip) :=
  .bind (iunlock_silent _) fun _ => iput_silent _

end Inodes

section Contents

theorem bmapAddr_silent (ip : Fin NINODE) (k : ℕ) : Silent (bmapAddr ip k) := by
  refine .gets fun i => .ite (.bind (fsAlloc_silent _) fun addr => ?_) (.pure _)
  exact .bind (modInode_silent _ _) fun _ => .pure _

theorem bmap_silent (ip : Fin NINODE) (bn : ℕ) : Silent (bmap ip bn) := by
  unfold bmap
  refine .ite (bmapAddr_silent _ _) (.ite ?_ (.halt _))
  refine .bind (bmapAddr_silent _ _) fun ind => .gets fun i => .bind (bread_silent _ _) fun bp => ?_
  refine .bind (data_silent _) fun a => .ite ?_ (.bind (brelse_silent _) fun _ => .pure _)
  refine .bind (fsAlloc_silent _) fun addr => .bind (setData_silent _ _) fun _ => ?_
  exact .bind (logWrite_silent _) fun _ => .bind (brelse_silent _) fun _ => .pure _

theorem copyOut_silent (userDst : Bool) (dst : ℕ) (src : ℕ → UInt8) (m : ℕ) :
    Silent (copyOut userDst dst src m) := by
  unfold copyOut
  refine .get fun s => .ite ?_ ?_
  · exact .bind (.modify fun _ => rfl) fun _ => .pure _
  · exact .bind (.modify fun _ => rfl) fun _ => .pure _

theorem readi_silent (ip : Fin NINODE) (userDst : Bool) (dst off n : ℕ) :
    Silent (readi ip userDst dst off n) := by
  have loop : ∀ n fuel tot off dst, Silent (readiLoop ip userDst n fuel tot off dst) := by
    intro n fuel
    induction fuel with
    | zero => exact fun _ _ _ => .pure _
    | succ fuel ih =>
      intro tot off dst
      unfold readiLoop
      refine .ite (.gets fun i => .bind (bmap_silent _ _) fun addr => ?_) (.pure _)
      refine .bind (bread_silent _ _) fun bp => .bind (data_silent _) fun d => ?_
      refine .bind (copyOut_silent _ _ _ _) fun ok => .bind (brelse_silent _) fun _ => ?_
      exact .ite (ih _ _ _) (.pure _)
  unfold readi
  refine .gets fun i => .ite (.pure _) (.bind (loop _ _ _ _ _) fun ok => ?_)
  exact .ite (.pure _) (.pure _)

theorem writei_silent (ip : Fin NINODE) (userSrc : Bool) (src off n : ℕ) :
    Silent (writei ip userSrc src off n) := by
  have copy : ∀ src m, Silent (copyIn userSrc src m) := fun src m =>
    .get fun s => .ite (.pure _) (.pure _)
  have loop : ∀ fuel tot off src, Silent (writeiLoop ip userSrc n fuel tot off src) := by
    intro fuel
    induction fuel with
    | zero => exact fun _ _ _ => .pure _
    | succ fuel ih =>
      intro tot off src
      unfold writeiLoop
      refine .ite (.gets fun i => .bind (bmap_silent _ _) fun addr => ?_) (.pure _)
      refine .bind (bread_silent _ _) fun bp => .bind (copy _ _) fun c => ?_
      refine .bind (setData_silent _ _) fun _ => .ite ?_ (.bind (brelse_silent _) fun _ => .pure _)
      exact .bind (logWrite_silent _) fun _ => .bind (brelse_silent _) fun _ => ih _ _ _
  unfold writei
  refine .gets fun i => .ite (.pure _) (.ite (.pure _) (.bind (loop _ _ _ _) fun ok => ?_))
  refine .ite (.bind (modInode_silent _ _) fun _ => ?_) (.pure _)
  exact .bind (iupdate_silent _) fun _ => .pure _

end Contents

section Directories

theorem readDirent_silent (dp : Fin NINODE) (m : ℕ) (why : String) : Silent (readDirent dp m why) :=
  .bind (readi_silent _ _ _ _ _) fun _ => .ite (.halt _)
    (Comp.Always.gets Quiet.refl _)

theorem dirlookup_silent (dp : Fin NINODE) (name : List UInt8) : Silent (dirlookup dp name) := by
  have round : ∀ m, Silent (dirlookupAt dp name m) := by
    intro m
    refine .bind (readDirent_silent _ _ _) fun de => .ite (.pure _) (.ite ?_ (.pure _))
    exact .gets fun i => .bind (iget_silent _ _) fun ip => .pure _
  exact .gets fun i => .ite (.halt _) (.firstSome round _)

theorem dirlink_silent (dp : Fin NINODE) (name : List UInt8) (inum : ℕ) :
    Silent (dirlink dp name inum) := by
  have round : ∀ m, Silent (dirlinkAt dp m) := fun m =>
    .bind (readDirent_silent _ _ _) fun de => .ite (.pure _) (.pure _)
  refine .bind (dirlookup_silent _ _) fun r => ?_
  split
  · exact .bind (iput_silent _) fun _ => .pure _
  · refine .gets fun i => .bind (.firstSome round _) fun r => .bind (.modify fun _ => rfl) fun _ => ?_
    exact .bind (writei_silent _ _ _ _ _) fun r => .ite (.halt _) (.pure _)

theorem namexLoop_silent (parent : Bool) (ip : Fin NINODE) (path : List UInt8) :
    Silent (namexLoop parent ip path) := by
  induction hn : path.length using Nat.strong_induction_on generalizing ip path with
  | _ n ih =>
  subst hn
  unfold namexLoop
  split
  · exact .ite (.bind (iput_silent _) fun _ => .pure _) (.pure _)
  next rest name step =>
    refine .bind (ilock_silent _) fun _ => .gets fun i => .ite ?_ (.ite ?_ ?_)
    · exact .bind (iunlockput_silent _) fun _ => .pure _
    · exact .bind (iunlock_silent _) fun _ => .pure _
    · refine .bind (dirlookup_silent _ _) fun r => ?_
      split
      · exact .bind (iunlockput_silent _) fun _ => .pure _
      · exact .bind (iunlockput_silent _) fun _ => ih _ (skipelem_lt step) _ _ rfl

theorem namex_silent (parent : Bool) (path : List UInt8) : Silent (namex parent path) := by
  refine .bind (iget_silent _ _) fun ip => .bind (.ite (.pure _) (idup_silent _)) fun ip => ?_
  exact namexLoop_silent _ _ _

theorem namei_silent (path : List UInt8) : Silent (namei path) :=
  .bind (namex_silent _ _) fun _ => .pure _

end Directories

section Calls

theorem addLink_silent (ip : Fin NINODE) (by' : BitVec 16) : Silent (addLink ip by') :=
  .bind (modInode_silent _ _) fun _ => iupdate_silent _

theorem mustLink_silent (dp : Fin NINODE) (name : List UInt8) (inum : ℕ) (why : String) :
    Silent (mustLink dp name inum why) :=
  .bind (dirlink_silent _ _ _) fun _ => .ite (.halt _) (.pure _)

theorem createNew_silent (dp : Fin NINODE) (name : List UInt8) (type major minor : BitVec 16) :
    Silent (createNew dp name type major minor) := by
  have dots : ∀ ip, Silent (makeDots dp ip) := fun ip =>
    .bind (addLink_silent _ _) fun _ => .get fun s => .bind (mustLink_silent _ _ _ _) fun _ =>
      mustLink_silent _ _ _ _
  refine .gets fun d => .bind (ialloc_silent _ _) fun ip => .bind (ilock_silent _) fun _ => ?_
  refine .bind (modInode_silent _ _) fun _ => .bind (iupdate_silent _) fun _ => ?_
  refine .bind (.ite (dots ip) (.pure _)) fun _ => .gets fun i => ?_
  exact .bind (mustLink_silent _ _ _ _) fun _ => .bind (iunlockput_silent _) fun _ => .pure _

theorem create_silent (path : List UInt8) (type major minor : BitVec 16) :
    Silent (create path type major minor) := by
  refine .bind (namex_silent _ _) fun r => ?_
  split
  · exact .pure _
  · refine .bind (ilock_silent _) fun _ => .bind (dirlookup_silent _ _) fun r => ?_
    split
    · refine .bind (iunlockput_silent _) fun _ => .bind (ilock_silent _) fun _ => .gets fun i => ?_
      exact .ite (.pure _) (.bind (iunlockput_silent _) fun _ => .pure _)
    · exact .map (createNew_silent _ _ _ _ _)

theorem mkdir_silent (path : List UInt8) : Silent (mkdir path) := by
  refine .bind (create_silent _ _ _ _) fun r => ?_
  split
  · exact .pure _
  · exact .bind (iunlockput_silent _) fun _ => .pure _

theorem unlink_silent (path : List UInt8) : Silent (unlink path) := by
  have empty : ∀ dp, Silent (isdirempty dp) := fun dp =>
    .gets fun i => .bind (.firstSome (fun m => .bind (readDirent_silent _ _ _) fun de =>
      .ite (.pure _) (.pure _)) _) fun used => .pure _
  have entry : ∀ dp ip off, Silent (unlinkEntry dp ip off) := by
    intro dp ip off
    refine .bind (.modify fun _ => rfl) fun _ => .bind (writei_silent _ _ _ _ _) fun r => ?_
    refine .ite (.halt _) (.gets fun i => .bind (.ite (addLink_silent _ _) (.pure _)) fun _ => ?_)
    refine .bind (iunlockput_silent _) fun _ => .bind (addLink_silent _ _) fun _ => ?_
    exact iunlockput_silent _
  refine .bind (namex_silent _ _) fun r => ?_
  split
  · exact .pure _
  refine .bind (ilock_silent _) fun _ => .ite (.bind (iunlockput_silent _) fun _ => .pure _) ?_
  refine .bind (dirlookup_silent _ _) fun r => ?_
  split
  · exact .bind (iunlockput_silent _) fun _ => .pure _
  refine .bind (ilock_silent _) fun _ => .gets fun i => .ite (.halt _) ?_
  refine .bind (.ite (.map (empty _)) (.pure _)) fun full => .ite ?_ ?_
  · exact .bind (iunlockput_silent _) fun _ => .bind (iunlockput_silent _) fun _ => .pure _
  · exact .bind (entry _ _ _) fun _ => .pure _

theorem link_silent (oldpath newpath : List UInt8) : Silent (link oldpath newpath) := by
  have back : ∀ ip, Silent (unlinkBack ip) := fun ip =>
    .bind (ilock_silent _) fun _ => .bind (addLink_silent _ _) fun _ =>
      .bind (iunlockput_silent _) fun _ => .pure _
  refine .bind (namei_silent _) fun r => ?_
  split
  · exact .pure _
  refine .bind (ilock_silent _) fun _ => .gets fun i => .ite ?_ ?_
  · exact .bind (iunlockput_silent _) fun _ => .pure _
  refine .bind (addLink_silent _ _) fun _ => .bind (iunlock_silent _) fun _ => ?_
  refine .bind (namex_silent _ _) fun r => ?_
  split
  · exact back _
  refine .bind (ilock_silent _) fun _ => .gets fun d => ?_
  refine .bind (.ite (.pure _) (dirlink_silent _ _ _)) fun r => .ite ?_ ?_
  · exact .bind (iunlockput_silent _) fun _ => back _
  · exact .bind (iunlockput_silent _) fun _ => .bind (iput_silent _) fun _ => .pure _

end Calls

end EasyXv6.Fs.Vol
