import EasyXv6.Fs.Between
import EasyXv6.Lib.SlotMap

set_option autoImplicit false

/-!
# A directory is a finite map

Entries are added by `dirlink` and cleared the way `sys_unlink` does, each in a transaction.
-/
namespace EasyXv6.Fs.Vol
open Lib

/-- A name that a directory entry has room for, with its NUL. -/
structure Fitting (name : List UInt8) : Prop where
  short : name.length < DIRSIZ
  nul : 0 ∉ name

theorem Fitting.key {name : List UInt8} (h : Fitting name) : key name = name := by
  refine cstr_eq h.short (fun k hk => ?_) (fun c hc h0 => h.nul (h0 ▸ hc)) ?_
  · simp [nameOf, hk]
  · simp [nameOf]

/-- Write a zero entry where `dirlookup` has found the name. -/
def clearEntry (dp : Fin NINODE) (name : List UInt8) : Comp Vol ℤ := do
  match ← dirlookup dp name with
  | none => return -1
  | some (ip, off) =>
    .modify fun s => { s with de := Bytes.zero }
    let r ← writei dp false 0 off DIRENT_SIZE
    if r ≠ DIRENT_SIZE then
      .halt "unlink: writei"
    else
      iput ip
      return 0

inductive DirOp
  | link (name : List UInt8) (inum : ℕ)
  | clear (name : List UInt8)

namespace DirOp

def body (dp : Fin NINODE) : DirOp → Comp Vol ℤ
  | link name inum => dirlink dp name inum
  | clear name => clearEntry dp name

def run (dp : Fin NINODE) (op : DirOp) : Comp Vol ℤ := do
  beginOp
  let r ← op.body dp
  endOp
  return r

/-- The slots after the operation. -/
def effect : DirOp → List DirSlot → List DirSlot
  | link name inum, es => if lookup es name = none then addSlot (inum, name) es else es
  | clear name, es => match lookup es name with
    | none => es
    | some (_, m) => es.set m none

def result : DirOp → List DirSlot → ℤ
  | link name _, es => if lookup es name = none then 0 else -1
  | clear name, es => if lookup es name = none then -1 else 0

end DirOp

/-- An inode that an entry may name: it is in use and counts a link. -/
structure Linkable (N : ℕ → Node) (j : ℕ) : Prop where
  pos : j ≠ 0
  lt : j < NINODES
  type : (N j).type ≠ 0
  nlink : (N j).nlink ≠ 0 ∨ j = ROOTINO

/-- The names fit, and the inodes may be named. -/
def DirOp.Allowed (N : ℕ → Node) : DirOp → Prop
  | link name inum => Fitting name ∧ Linkable N inum
  | clear name => Fitting name

def runOps (dp : Fin NINODE) : List DirOp → Comp Vol (List ℤ)
  | [] => return []
  | op :: ops => do
    let r ← op.run dp
    let rs ← runOps dp ops
    return r :: rs

variable {k cap : ℕ} {full : Prop} {N : ℕ → Node} {R : List Ref} {L : List (Fin NINODE)} {s t : Vol}
  {dp : Fin NINODE} {i : ℕ} {es : List DirSlot} {name : List UInt8} {x : Node}

/-- A directory with the slots `es`, which names inodes that may be named, each name once. -/
structure Holding (N : ℕ → Node) (i : ℕ) (es : List DirSlot) : Prop where
  type : (N i).type = T_DIR
  lists : (N i).Lists es
  linkable : ∀ j nm, some (j, nm) ∈ es → Linkable N j
  distinct : Distinct es

section Step

/-- A write to the directory keeps what may be named. -/
theorem Linkable.update {j : ℕ} (h : Linkable N j) (same : SameMeta (N i) x) :
    Linkable (Function.update N i x) j := by
  by_cases hj : j = i
  · subst hj
    refine ⟨h.pos, h.lt, ?_, ?_⟩
    · rw [Function.update_self, same.type]
      exact h.type
    · rw [Function.update_self, same.nlink]
      exact h.nlink
  · refine ⟨h.pos, h.lt, ?_, ?_⟩
    · rw [Function.update_of_ne hj]
      exact h.type
    · rw [Function.update_of_ne hj]
      exact h.nlink

theorem clearEntry_sat (h : Fsys 1 k N R L s) (hk : k ≤ 11) (hi : (dp, i) ∈ R) (hL : dp ∈ L)
    (dir : Holding N i es) (hcap : used R ≤ cap) :
    Comp.Sat (clearEntry dp name) s (Limit cap full) fun r s' =>
      r = (DirOp.clear (key name)).result es ∧ ∃ y, SameMeta (N i) y ∧
        y.Lists ((DirOp.clear (key name)).effect es) ∧
          Fsys 1 (k + 3) (Function.update N i y) R L s' ∧ (r = -1 → y = N i) := by
  unfold clearEntry
  refine .call (dirlookup_sat h hi hL dir.type dir.lists
    (fun j nm hj => (dir.linkable j nm hj).type) hcap) ?_
  simp only [DirOp.effect, DirOp.result]
  rintro (_ | ⟨jp, off⟩) t ht
  · obtain ⟨none, ht, -⟩ := ht
    have none : lookup es (key name) = Option.none := none
    rw [none, if_pos rfl]
    refine .pure ⟨rfl, N i, ⟨rfl, rfl, rfl, rfl⟩, dir.lists, ?_, fun _ => rfl⟩
    rw [Function.update_eq_self]
    exact ht.mono (by omega)
  · obtain ⟨j, m, found, hoff, ht, -⟩ := ht
    have found : lookup es (key name) = some (j, m) := found
    have bound : m < es.length := (List.getElem?_eq_some_iff.mp (lookup_some found)).1
    have named := dir.linkable j _ (List.mem_of_getElem? (lookup_some found))
    rw [found, if_neg (by rintro ⟨⟩), hoff]
    refine .modify ?_
    have ht' : Fsys 1 k N ((jp, j) :: R) L { t with de := Bytes.zero } := by
      obtain ⟨V, D, l, at', nodes, fits⟩ := ht.shows
      exact ⟨⟨V, D, l, ⟨at'.blk.congr rfl rfl, at'.ok⟩, nodes, fits⟩, ht.refs⟩
    refine .call (writeDirent_sat ht' hk (List.mem_cons_of_mem _ hi) hL dir.lists
      (Nat.le_of_lt bound) slotOf_zero (Or.inr bound)) ?_
    rintro r u ⟨done, big, -⟩
    have ok : r = DIRENT_SIZE := by
      by_contra bad
      exact absurd (big bad).1 (Nat.ne_of_lt bound)
    obtain ⟨y, same, lists, hu⟩ := done ok
    rw [if_pos bound] at lists
    refine .ite (fun bad => absurd ok bad) fun _ => ?_
    refine .call (iput_keep_sat hu (M := L) (fun kp hkp => ⟨hkp, (h.refs.loaded kp hkp).1⟩)
      (Or.inr (named.update same).nlink)) ?_
    rintro _ v ⟨hv, -, -⟩
    exact .pure ⟨rfl, y, same, lists, hv, fun bad => absurd bad (by decide)⟩

/-- What an operation in the open transaction returns and leaves. -/
theorem body_sat (h : Fsys 1 k N R L s) (hk : k ≤ 11) (hi : (dp, i) ∈ R) (hL : dp ∈ L)
    (dir : Holding N i es) (hcap : used R ≤ cap) (hfull : full) (op : DirOp) (ok : op.Allowed N) :
    Comp.Sat (op.body dp) s (Limit cap full) fun r s' => r = op.result es ∧ ∃ y, SameMeta (N i) y ∧
      y.Lists (op.effect es) ∧ Fsys 1 (k + 3) (Function.update N i y) R L s' ∧
        (r = -1 → y = N i) := by
  cases op with
  | clear name =>
    have fit : key name = name := Fitting.key ok
    have spec : Comp.Sat (clearEntry dp name) s (Limit cap full) _ :=
      clearEntry_sat h hk hi hL dir hcap
    rwa [fit] at spec
  | link name j =>
    have fit : cstr (nameOf name) DIRSIZ = name := ok.1.key
    refine (dirlink_sat h hk hi hL dir.type dir.lists (fun j nm hj => (dir.linkable j nm hj).type)
      (fun j nm hj => (dir.linkable j nm hj).nlink) ok.2.pos ok.2.lt hcap hfull).post ?_
    rw [fit]
    simp only [DirOp.effect, DirOp.result]
    rintro r t (⟨rfl, there, ht, -⟩ | ⟨rfl, new, y, same, lists, ht⟩)
    · rw [if_neg there, if_neg there]
      refine ⟨rfl, N i, ⟨rfl, rfl, rfl, rfl⟩, dir.lists, ?_, fun _ => rfl⟩
      rw [Function.update_eq_self]
      exact ht.mono (by omega)
    · rw [if_pos new, if_pos new]
      exact ⟨rfl, y, same, lists, ht, fun bad => absurd bad (by decide)⟩

theorem body_silent (dp : Fin NINODE) (op : DirOp) : Silent (op.body dp) := by
  cases op with
  | link name j => exact dirlink_silent _ _ _
  | clear name =>
    refine .bind (dirlookup_silent _ _) fun r => ?_
    split
    · exact .pure _
    · refine .bind (.modify fun _ => rfl) fun _ => .bind (writei_silent _ _ _ _ _) fun r => ?_
      exact .ite (.halt _) (.bind (iput_silent _) fun _ => .pure _)

theorem Holding.effect (dir : Holding N i es) {op : DirOp} (ok : op.Allowed N)
    (same : SameMeta (N i) x) (lists : x.Lists (op.effect es)) :
    Holding (Function.update N i x) i (op.effect es) := by
  refine ⟨?_, ?_, fun j nm hj => Linkable.update ?_ same, ?_⟩
  · rw [Function.update_self, same.type, dir.type]
  · rwa [Function.update_self]
  · cases op with
    | link name k =>
      simp only [DirOp.effect] at hj
      split at hj
      · rcases mem_addSlot.mp hj with he | hj
        · cases he
          exact ok.2
        · exact dir.linkable j nm hj
      · exact dir.linkable j nm hj
    | clear name =>
      simp only [DirOp.effect] at hj
      split at hj
      · exact dir.linkable j nm hj
      · rcases List.mem_or_eq_of_mem_set hj with hj | he
        · exact dir.linkable j nm hj
        · cases he
  · cases op with
    | link name k =>
      simp only [DirOp.effect]
      split
      next new => exact dir.distinct.add (lookup_eq_none_iff.mp new)
      next => exact dir.distinct
    | clear name =>
      simp only [DirOp.effect]
      split
      · exact dir.distinct
      · exact dir.distinct.clear _

/-- One operation, as a transaction. -/
theorem run_sat (h : Between N R L s) (hi : (dp, i) ∈ R) (hL : dp ∈ L) (dir : Holding N i es)
    (op : DirOp) (ok : op.Allowed N) :
    Comp.Sat (op.run dp) s (Limit (used R) True) fun r s' => r = op.result es ∧ ∃ y,
      SameMeta (N i) y ∧ Holding (Function.update N i y) i (op.effect es) ∧
        Between (Function.update N i y) R L s' ∧ (r = -1 → y = N i) := by
  refine (transaction_sat (Q := fun r N' R' L' _ => r = op.result es ∧ R' = R ∧ L' = L ∧ ∃ y,
    SameMeta (N i) y ∧ y.Lists (op.effect es) ∧ N' = Function.update N i y ∧ (r = -1 → y = N i)) h
    (body_silent dp op) fun ht => ?_).post ?_
  · refine (body_sat ht (Nat.zero_le 11) hi hL dir (Nat.le_refl _) trivial op ok).post ?_
    rintro r u ⟨hr, y, same, lists, hu, kept⟩
    exact ⟨_, _, R, L, hu, hr, rfl, rfl, y, same, lists, rfl, kept⟩
  · rintro r u ⟨_, _, _, -, hu, ⟨hr, rfl, rfl, y, same, lists, rfl, kept⟩, -⟩
    exact ⟨hr, y, same, dir.effect ok same lists, hu, kept⟩

end Step

section Laws

/-- What `dirlink` does to the map. -/
structure LinkLaw (name : List UInt8) (inum : ℕ) (es es' : List DirSlot) (r : ℤ) : Prop where
  refused : r = -1 ↔ lookup es name ≠ none
  done : r = -1 ∨ r = 0 ∧ (lookup es' name).map Prod.fst = some inum
  kept : r = -1 → es' = es
  others : ∀ nm ≠ name, lookup es' nm = lookup es nm
  reuse : none ∈ es → es'.length = es.length

/-- What a clearing does to the map. -/
structure ClearLaw (name : List UInt8) (es es' : List DirSlot) : Prop where
  gone : lookup es' name = none
  others : ∀ nm ≠ name, lookup es' nm = lookup es nm

theorem linkLaw (h : Distinct es) (name : List UInt8) (inum : ℕ) :
    LinkLaw name inum es ((DirOp.link name inum).effect es) ((DirOp.link name inum).result es) := by
  simp only [DirOp.effect, DirOp.result]
  by_cases new : lookup es name = none
  · have absent := lookup_eq_none_iff.mp new
    rw [if_pos new, if_pos new]
    refine ⟨iff_of_false (by decide) fun there => there new, Or.inr ⟨rfl, ?_⟩, fun bad => absurd bad (by decide),
      fun nm hne => ?_,
      length_addSlot _⟩
    · rw [h.lookup_add_self absent]
      rfl
    · exact h.lookup_add_of_ne absent hne
  · rw [if_neg new, if_neg new]
    exact ⟨iff_of_true rfl new, Or.inl rfl, fun _ => rfl, fun _ _ => rfl, fun _ => rfl⟩

theorem clearLaw (h : Distinct es) (name : List UInt8) :
    ClearLaw name es ((DirOp.clear name).effect es) := by
  simp only [DirOp.effect]
  split
  next none => exact ⟨none, fun _ _ => rfl⟩
  next j m found =>
    have slot := lookup_some found
    exact ⟨h.lookup_clear_self slot, fun nm hne => h.lookup_clear_of_ne slot hne⟩

/-- The directory is a map from the names of its slots to inodes, which `dirlookup` reads and the
    operations change as they are to. -/
structure IsMap (N : ℕ → Node) (R : List Ref) (L : List (Fin NINODE)) (dp : Fin NINODE) (i : ℕ)
    (es : List DirSlot) (s : Vol) : Prop where
  distinct : Distinct es
  find : ∀ name, Fitting name → Comp.Sat (dirlookup dp name) s (Limit (used R) False) fun r t =>
    (r.map fun x => ((t.inode x.1).inum, x.2)) =
      (lookup es name).map fun x => (x.1, DIRENT_SIZE * x.2)
  slot : ∀ name j m, lookup es name = some (j, m) ↔ es[m]? = some (some (j, name))
  link : ∀ name j, Fitting name → Linkable N j →
    Comp.Sat ((DirOp.link name j).run dp) s (Limit (used R) True) fun r t => ∃ x es',
      Between (Function.update N i x) R L t ∧ x.Lists es' ∧ LinkLaw name j es es' r ∧
        (r = -1 → x = N i)
  clear : ∀ name, Fitting name →
    Comp.Sat ((DirOp.clear name).run dp) s (Limit (used R) True) fun _ t => ∃ x es',
      Between (Function.update N i x) R L t ∧ x.Lists es' ∧ ClearLaw name es es'

theorem Holding.isMap (dir : Holding N i es) (h : Between N R L s) (hi : (dp, i) ∈ R) (hL : dp ∈ L) :
    IsMap N R L dp i es s where
  distinct := dir.distinct
  find name fit := by
    refine (dirlookup_sat h.fsys hi hL dir.type dir.lists
      (fun j nm hj => (dir.linkable j nm hj).type) (Nat.le_refl _)).post ?_
    rw [show cstr (nameOf name) DIRSIZ = name from fit.key]
    rintro (_ | ⟨jp, off⟩) t ht
    · rw [show lookup es name = none from ht.1]
      rfl
    · obtain ⟨j, m, found, hoff, ht, -⟩ := ht
      rw [show lookup es name = some (j, m) from found, Option.map_some, Option.map_some, hoff]
      exact congrArg (fun n => some (n, DIRENT_SIZE * m)) (ht.inum List.mem_cons_self)
  slot _ _ _ := dir.distinct.lookup_iff
  link name j fit named := by
    refine (run_sat h hi hL dir (.link name j) ⟨fit, named⟩).post ?_
    rintro r t ⟨rfl, x, -, dir', ht, kept⟩
    have lists := dir'.lists
    rw [Function.update_self] at lists
    exact ⟨x, _, ht, lists, linkLaw dir.distinct name j, kept⟩
  clear name fit := by
    refine (run_sat h hi hL dir (.clear name) fit).post ?_
    rintro r t ⟨-, x, -, dir', ht, -⟩
    have lists := dir'.lists
    rw [Function.update_self] at lists
    exact ⟨x, _, ht, lists, clearLaw dir.distinct name⟩

/-- A history of operations, from any directory on. -/
theorem runOps_sat {ops : List DirOp} (h : Between N R L s) (hi : (dp, i) ∈ R) (hL : dp ∈ L)
    (dir : Holding N i es) (ok : ∀ op ∈ ops, op.Allowed N) :
    Comp.Sat (runOps dp ops) s (Limit (used R) True) fun _ t => ∃ x es', SameMeta (N i) x ∧
      Holding (Function.update N i x) i es' ∧ Between (Function.update N i x) R L t := by
  induction ops generalizing N es s with
  | nil =>
    refine .pure ⟨N i, es, ⟨rfl, rfl, rfl, rfl⟩, ?_, ?_⟩
    · rwa [Function.update_eq_self]
    · rwa [Function.update_eq_self]
  | cons op ops ih =>
    refine .call (run_sat h hi hL dir op (ok op List.mem_cons_self)) ?_
    rintro r t ⟨-, y, same, dir', ht, -⟩
    have ok' : ∀ op' ∈ ops, op'.Allowed (Function.update N i y) := by
      intro op' hop
      have old := ok op' (List.mem_cons_of_mem _ hop)
      cases op' with
      | link name j => exact ⟨old.1, old.2.update same⟩
      | clear name => exact old
    refine .call (ih ht dir' ok') ?_
    rintro rs u ⟨z, es', same', dir'', hu⟩
    rw [Function.update_self] at same'
    rw [Function.update_idem] at dir'' hu
    exact .pure ⟨z, es', ⟨same'.type.trans same.type, same'.major.trans same.major,
      same'.minor.trans same.minor, same'.nlink.trans same.nlink⟩, dir'', hu⟩

/-- Whatever was added to and cleared from an empty directory, it is a map. The calls return unless
    there is no room. -/
theorem directory_is_map {ops : List DirOp} (h : Between N R L s) (hi : (dp, i) ∈ R) (hL : dp ∈ L)
    (type : (N i).type = T_DIR) (empty : (N i).Lists []) (ok : ∀ op ∈ ops, op.Allowed N) :
    Comp.Sat (runOps dp ops) s (Limit (used R) True) fun _ t => ∃ x es, x.Lists es ∧
      IsMap (Function.update N i x) R L dp i es t := by
  have dir : Holding N i [] := ⟨type, empty, nofun, .nil⟩
  refine (runOps_sat h hi hL dir ok).post ?_
  rintro rs t ⟨x, es, same, dir', ht⟩
  have lists := dir'.lists
  rw [Function.update_self] at lists
  exact ⟨x, es, lists, dir'.isMap ht hi hL⟩

end Laws

section Example

/-- An inode that `ialloc` has just made a directory. -/
theorem exampleDir : ∃ (s : Vol) (N : ℕ → Node) (i : ℕ), Between N [(0, i)] [0] s ∧
    (N i).type = T_DIR ∧ (N i).Lists [] ∧ Linkable N ROOTINO := by
  obtain ⟨N, between, world⟩ := (ofDisk_mounted emptyDisk_formatted).between
  have value : ((beginOp >>= fun _ => ialloc ROOTDEV T_DIR >>= fun ip => endOp >>= fun _ =>
      pure ip).run (ofDisk emptyDisk)).value = some 0 := by
    decide +kernel
  have spec := transaction_sat (E := Limit 1 True) (Q := fun ip N' R' L' _ => ∃ i,
    N i = .free ∧ N' = Function.update N i (.fresh T_DIR) ∧ R' = [(ip, i)] ∧ L' = [ip]) between
    (ialloc_silent ROOTDEV T_DIR) fun ht => by
      refine (ialloc_sat ht (Nat.zero_le 14) (Or.inl rfl) (Nat.zero_le 1) trivial).post ?_
      rintro ip u ⟨i, -, -, free, -, hu⟩
      exact ⟨0, _, _, _, hu, i, free, rfl, rfl, rfl⟩
  obtain ⟨_, _, _, u, hs, ⟨i, free, rfl, rfl, rfl⟩, -⟩ := spec.ok (Outcome.eq_ok value)
  have root := world.tree.root_type
  have other : ROOTINO ≠ i := by
    rintro rfl
    rw [free] at root
    exact root rfl
  refine ⟨_, _, i, hs, ?_, ?_, ⟨by decide, by decide, ?_, Or.inr rfl⟩⟩
  · rw [Function.update_self]
    rfl
  · rw [Function.update_self]
    exact ⟨rfl, nofun⟩
  · rw [Function.update_of_ne other]
    exact root

/-- A name is added, cleared and added again. -/
theorem directory_is_map_three : ∃ (s : Vol) (N : ℕ → Node) (i : ℕ),
    Comp.Sat (runOps 0 [.link [97] ROOTINO, .clear [97], .link [97] ROOTINO]) s
      (Limit (used [(0, i)]) True) fun _ t => ∃ x es, x.Lists es ∧
        IsMap (Function.update N i x) [(0, i)] [0] 0 i es t := by
  obtain ⟨s, N, i, h, type, empty, root⟩ := exampleDir
  have fit : Fitting [97] := ⟨by decide, by decide⟩
  refine ⟨s, N, i, directory_is_map h List.mem_cons_self List.mem_cons_self type empty ?_⟩
  intro op hop
  simp only [List.mem_cons, List.not_mem_nil, or_false] at hop
  rcases hop with rfl | rfl | rfl
  · exact ⟨fit, root⟩
  · exact fit
  · exact ⟨fit, root⟩

end Example

end EasyXv6.Fs.Vol
