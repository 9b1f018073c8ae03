import EasyXv6.Fs.UserData
import EasyXv6.Sys.Descriptors

set_option autoImplicit false

/-!
# The file system under the open files

`FsState N T P Q L t` holds between two calls: the files are `N`, their tree is `T`, every open file
has a reference of `P`, and walks of relative paths have left the references of `Q` to the root.
-/
namespace EasyXv6.Sys
open Lib Mem Proc Fs Vol

/-- The open files that have their inode in the slot `ip`. -/
def slotUses (file : Fin NFILE → File) (ip : Fin NINODE) : ℕ :=
  ∑ f, if 0 < (file f).ref ∧ (file f).ip = some ip then 1 else 0

/-- A file that is open on an inode. Directories are open for reading only. -/
structure OpenOn (N : ℕ → Node) (P : List Ref) (x : File) : Prop where
  type : x.type = .inode
  slot : ∃ ip, x.ip = some ip ∧ ∀ i, (ip, i) ∈ P → x.writable = true → (N i).type ≠ T_DIR

/-- Every open file is one that `sys_open` has set up. -/
structure Opens (N : ℕ → Node) (P : List Ref) (file : Fin NFILE → File) : Prop where
  count : ∀ ip, (P.map Prod.fst).count ip = slotUses file ip
  file : ∀ f, 0 < (file f).ref → OpenOn N P (file f)

structure FsState (N : ℕ → Node) (T : Dirs) (P Q : List Ref) (L : List (Fin NINODE)) (t : Files) :
    Prop where
  between : Between N (P ++ Q) L t.vol
  world : World N T (P ++ Q) L
  strays : ∀ x ∈ Q, x.2 = ROOTINO
  held : ∀ x ∈ P, x.1 ∈ L
  opens : Opens N P t.file

section SlotUses

variable {file : Fin NFILE → File} {f : Fin NFILE} {x : File} {ip : Fin NINODE}

theorem slotUses_update (file : Fin NFILE → File) (f : Fin NFILE) (x : File) (ip : Fin NINODE) :
    slotUses (Function.update file f x) ip +
        (if 0 < (file f).ref ∧ (file f).ip = some ip then 1 else 0) =
      slotUses file ip + if 0 < x.ref ∧ x.ip = some ip then 1 else 0 := by
  have same : ∀ g, g ≠ f → (if 0 < (Function.update file f x g).ref ∧
      (Function.update file f x g).ip = some ip then 1 else 0) =
        if 0 < (file g).ref ∧ (file g).ip = some ip then 1 else 0 := by
    intro g hg
    rw [Function.update_of_ne hg]
  have := sum_add_of_differ same
  rw [Function.update_self] at this
  exact this

/-- A file that stays open, or closed, on its inode. -/
theorem slotUses_same (ref : 0 < x.ref ↔ 0 < (file f).ref) (slot : 0 < x.ref → x.ip = (file f).ip)
    (ip : Fin NINODE) : slotUses (Function.update file f x) ip = slotUses file ip := by
  have update := slotUses_update file f x ip
  have same : (0 < x.ref ∧ x.ip = some ip) ↔ 0 < (file f).ref ∧ (file f).ip = some ip := by
    constructor
    · rintro ⟨h, e⟩
      exact ⟨ref.mp h, (slot h).symm.trans e⟩
    · rintro ⟨h, e⟩
      exact ⟨ref.mpr h, (slot (ref.mpr h)).trans e⟩
  simp only [same] at update
  omega

end SlotUses

section Opens

variable {N N' : ℕ → Node} {P : List Ref} {file : Fin NFILE → File} {f : Fin NFILE} {x : File}
  {ip : Fin NINODE} {i : ℕ}

theorem slotUses_pos (live : 0 < (file f).ref) (slot : (file f).ip = some ip) :
    0 < slotUses file ip := by
  refine Finset.sum_pos' (fun _ _ => Nat.zero_le _) ⟨f, Finset.mem_univ f, ?_⟩
  rw [if_pos ⟨live, slot⟩]
  exact Nat.one_pos

/-- The slot of an open file is referenced. -/
theorem Opens.mem (h : Opens N P file) (live : 0 < (file f).ref) (slot : (file f).ip = some ip) :
    ∃ i, (ip, i) ∈ P := by
  have pos := slotUses_pos live slot
  rw [← h.count] at pos
  obtain ⟨⟨jp, i⟩, mem, rfl⟩ := List.mem_map.mp (List.count_pos_iff.mp pos)
  exact ⟨i, mem⟩

theorem OpenOn.kinds (h : OpenOn N P x) (kinds : Kinds P N N') : OpenOn N' P x := by
  obtain ⟨ip, hip, write⟩ := h.slot
  refine ⟨h.type, ip, hip, fun i mem hw => ?_⟩
  rw [kinds _ mem]
  exact write i mem hw

theorem Opens.kinds (h : Opens N P file) (kinds : Kinds P N N') : Opens N' P file :=
  ⟨h.count, fun f hf => (h.file f hf).kinds kinds⟩

/-- What does not concern the inode of an open file changes. -/
theorem Opens.set (h : Opens N P file) (ref : 0 < x.ref ↔ 0 < (file f).ref)
    (same : 0 < x.ref → x.type = (file f).type ∧ x.ip = (file f).ip ∧
      x.writable = (file f).writable) : Opens N P (Function.update file f x) := by
  refine ⟨fun ip => ?_, fun g hg => ?_⟩
  · rw [slotUses_same ref (fun hx => (same hx).2.1)]
    exact h.count ip
  · by_cases hgf : g = f
    · subst hgf
      rw [Function.update_self] at hg ⊢
      obtain ⟨type, slot, write⟩ := same hg
      have old := h.file g (ref.mp hg)
      exact ⟨type.trans old.type, by rw [slot, write]; exact old.slot⟩
    · rw [Function.update_of_ne hgf] at hg ⊢
      exact h.file g hg

/-- A free entry is set up on the inode in the slot `ip`. -/
theorem Opens.take (h : Opens N P file) (free : ¬ 0 < (file f).ref) (live : 0 < x.ref)
    (type : x.type = .inode) (slot : x.ip = some ip)
    (write : x.writable = true → (N i).type ≠ T_DIR) (sole : ∀ j, (ip, j) ∈ P → j = i) :
    Opens N ((ip, i) :: P) (Function.update file f x) := by
  refine ⟨fun jp => ?_, fun g hg => ?_⟩
  · have update := slotUses_update file f x jp
    rw [if_neg fun hh => free hh.1] at update
    rw [List.map_cons, List.count_cons, h.count, ← Nat.add_zero (slotUses (Function.update _ _ _) _),
      update]
    simp only [live, true_and, slot, Option.some.injEq, beq_iff_eq]
  · by_cases hgf : g = f
    · subst hgf
      rw [Function.update_self]
      refine ⟨type, ip, slot, fun j hj hw => ?_⟩
      rcases List.mem_cons.mp hj with e | hj
      · obtain rfl : j = i := (Prod.mk.inj e).2
        exact write hw
      · rw [sole j hj]
        exact write hw
    · rw [Function.update_of_ne hgf] at hg ⊢
      obtain ⟨jp, hjp, old⟩ := (h.file g hg).slot
      refine ⟨(h.file g hg).type, jp, hjp, fun j hj hw => ?_⟩
      rcases List.mem_cons.mp hj with e | hj
      · obtain ⟨rfl, rfl⟩ := Prod.mk.inj e
        obtain ⟨j', hj'⟩ := h.mem hg hjp
        rw [← sole j' hj']
        exact old j' hj' hw
      · exact old j hj hw

/-- The last reference of an open file goes. -/
theorem Opens.close (h : Opens N P file) (live : 0 < (file f).ref) (slot : (file f).ip = some ip)
    (closed : ¬ 0 < x.ref) : ∃ i P', P.Perm ((ip, i) :: P') ∧
      Opens N P' (Function.update file f x) := by
  have count : ∀ jp, slotUses (Function.update file f x) jp + (if ip = jp then 1 else 0) =
      slotUses file jp := by
    intro jp
    have update := slotUses_update file f x jp
    simp only [live, true_and, slot, Option.some.injEq, closed, false_and, if_false,
      Nat.add_zero] at update
    exact update
  obtain ⟨i, mem⟩ := h.mem live slot
  have perm := List.perm_cons_erase mem
  refine ⟨i, P.erase (ip, i), perm, fun jp => ?_, fun g hg => ?_⟩
  · have total := (perm.map Prod.fst).count_eq jp
    rw [List.map_cons, List.count_cons, h.count] at total
    have := count jp
    simp only [beq_iff_eq] at total
    omega
  · have hgf : g ≠ f := by
      rintro rfl
      rw [Function.update_self] at hg
      exact closed hg
    rw [Function.update_of_ne hgf] at hg ⊢
    obtain ⟨jp, hjp, write⟩ := (h.file g hg).slot
    exact ⟨(h.file g hg).type, jp, hjp, fun j hj => write j (List.mem_of_mem_erase hj)⟩

end Opens

/-- The panics that a call may end in. -/
abbrev Stops (many : Prop) (w : String) (t : Files) : Prop := Fails (NINODE + 4) True many w t.vol

theorem used_le (R : List Ref) : used R ≤ NINODE := by
  unfold used
  refine Nat.le_trans (Finset.card_le_univ _) ?_
  rw [Fintype.card_fin]

section FsState

variable {N N' : ℕ → Node} {T T' : Dirs} {P Q : List Ref} {L : List (Fin NINODE)} {t : Files}
  {f : Fin NFILE} {x : File} {ip : Fin NINODE} {i : ℕ}

theorem FsState.sub (h : FsState N T P Q L t) : ∀ jp ∈ L, jp ∈ (P ++ Q).map Prod.fst :=
  fun jp hj => (h.between.fsys.refs.loaded jp hj).1

theorem FsState.heldAll (h : FsState N T P Q L t) : ∀ x ∈ P ++ Q, x.1 ∈ L ∨ x.2 = ROOTINO :=
  fun x hx => (List.mem_append.mp hx).imp (h.held x) (h.strays x)

/-- The inode of an open file. -/
theorem FsState.slot (h : FsState N T P Q L t) (live : 0 < (t.file f).ref) :
    (t.file f).type = .inode ∧ ∃ ip i, (t.file f).ip = some ip ∧ (ip, i) ∈ P ∧ ip ∈ L ∧
      ((t.file f).writable = true → (N i).type ≠ T_DIR) := by
  have on := h.opens.file f live
  obtain ⟨ip, hip, write⟩ := on.slot
  obtain ⟨i, mem⟩ := h.opens.mem live hip
  exact ⟨on.type, ip, i, hip, mem, h.held _ mem, write i mem⟩

/-- Fields of an open file that do not concern its inode change. -/
theorem FsState.setFile (h : FsState N T P Q L t) (ref : 0 < x.ref ↔ 0 < (t.file f).ref)
    (same : 0 < x.ref → x.type = (t.file f).type ∧ x.ip = (t.file f).ip ∧
      x.writable = (t.file f).writable) : FsState N T P Q L (t.setFile f x) :=
  ⟨h.between, h.world, h.strays, h.held, h.opens.set ref same⟩

/-- The contents of a file change, but no directory. -/
theorem World.rewrite {R : List Ref} {y : Node} (h : World N T R L) (file : (N i).type ≠ T_DIR)
    (same : SameMeta (N i) y) : World (Function.update N i y) T R L := by
  have none : T i = none := h.tree.file file
  refine ⟨h.tree.update (Or.inl same.type) (fun hn => absurd none hn) (fun _ _ => rfl) fun hy => ?_,
    fun j hj => h.live j ?_⟩
  · rw [same.nlink]
    exact h.tree.nlink i (by rwa [← same.type])
  · by_cases hji : j = i
    · subst hji
      rwa [Function.update_self, same.type] at hj
    · rwa [Function.update_of_ne hji] at hj

theorem kinds_update {R : List Ref} {y : Node} (type : y.type = (N i).type) :
    Kinds R N (Function.update N i y) := by
  intro x _
  by_cases hx : x.2 = i
  · rw [hx, Function.update_self, type]
  · rw [Function.update_of_ne hx]

end FsState

end EasyXv6.Sys
