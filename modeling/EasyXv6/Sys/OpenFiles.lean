import EasyXv6.Sys.Run
import EasyXv6.Proc.Reap

set_option autoImplicit false

/-!
# Open files and the descriptors that hold them

`During p x s` holds inside a call of the process `p`: the reference count of an open file `f` is
the number of its descriptors and `x f` more.
-/
namespace EasyXv6.Sys
open Lib Mem Proc Fs

/-- The descriptors of a process that point to the file `f`. -/
def openFds (q : ProcT) (f : Fin NFILE) : ℕ := ∑ fd, if q.ofile fd = some f then 1 else 0

/-- The descriptors of all slots that point to the file `f`. -/
def holders (t : Table) (f : Fin NFILE) : ℕ := ∑ i, openFds (t i) f

/-- `p->ofile[fd] = o` -/
def withFd (q : ProcT) (fd : Fin NOFILE) (o : Option (Fin NFILE)) : ProcT :=
  { q with ofile := Function.update q.ofile fd o }

section Count

/-- Two families that differ in one place only. -/
theorem sum_add_of_differ {n : ℕ} {g h : Fin n → ℕ} {i : Fin n} (same : ∀ j, j ≠ i → h j = g j) :
    ∑ j, h j + g i = ∑ j, g j + h i := by
  have rest : ∑ j ∈ Finset.univ.erase i, h j = ∑ j ∈ Finset.univ.erase i, g j :=
    Finset.sum_congr rfl fun j hj => same j (Finset.ne_of_mem_erase hj)
  have hg := Finset.add_sum_erase _ g (Finset.mem_univ i)
  have hh := Finset.add_sum_erase _ h (Finset.mem_univ i)
  omega

theorem openFds_update (q : ProcT) (fd : Fin NOFILE) (o : Option (Fin NFILE)) (f : Fin NFILE) :
    openFds (withFd q fd o) f + (if q.ofile fd = some f then 1 else 0) =
      openFds q f + if o = some f then 1 else 0 := by
  have same : ∀ d, d ≠ fd → (if Function.update q.ofile fd o d = some f then 1 else 0) =
      if q.ofile d = some f then 1 else 0 := by
    intro d hd
    rw [Function.update_of_ne hd]
  have := sum_add_of_differ same
  rw [Function.update_self] at this
  exact this

theorem holders_update (t : Table) (i : Fin NPROC) (q : ProcT) (f : Fin NFILE) :
    holders (Function.update t i q) f + openFds (t i) f = holders t f + openFds q f := by
  have same : ∀ j, j ≠ i → openFds (Function.update t i q j) f = openFds (t j) f := by
    intro j hj
    rw [Function.update_of_ne hj]
  have := sum_add_of_differ same
  rwa [Function.update_self] at this

theorem openFds_congr {q r : ProcT} (h : r.ofile = q.ofile) (f : Fin NFILE) :
    openFds r f = openFds q f := by
  unfold openFds
  rw [h]

theorem holders_congr {t u : Table} (h : ∀ i, (u i).ofile = (t i).ofile) (f : Fin NFILE) :
    holders u f = holders t f :=
  Finset.sum_congr rfl fun i _ => openFds_congr (h i) f

/-- A file without descriptors is in no slot. -/
theorem holders_eq_zero {t : Table} {f : Fin NFILE} (h : holders t f = 0) (i : Fin NPROC)
    (fd : Fin NOFILE) : (t i).ofile fd ≠ some f := by
  intro hf
  have hi := Finset.sum_eq_zero_iff.mp h i (Finset.mem_univ i)
  have hfd := Finset.sum_eq_zero_iff.mp hi fd (Finset.mem_univ fd)
  rw [if_pos hf] at hfd
  exact absurd hfd (by decide)

end Count

/-- `x` with `d` more at the file `f`. -/
def bump (x : Fin NFILE → ℤ) (f : Fin NFILE) (d : ℤ) : Fin NFILE → ℤ :=
  Function.update x f (x f + d)

theorem bump_apply (x : Fin NFILE → ℤ) (f g : Fin NFILE) (d : ℤ) :
    bump x f d g = x g + if f = g then d else 0 := by
  unfold bump
  by_cases h : f = g
  · subst h
    rw [Function.update_self, if_pos rfl]
  · rw [Function.update_of_ne (Ne.symm h), if_neg h, add_zero]

theorem bump_cancel (x : Fin NFILE → ℤ) (f : Fin NFILE) {d e : ℤ} (h : d + e = 0) :
    bump (bump x f d) f e = x := by
  funext g
  rw [bump_apply, bump_apply]
  split <;> omega

/-- No slot without a process has a descriptor. -/
def Closed (t : Table) : Prop := ∀ i, Gone (t i) → ∀ fd, (t i).ofile fd = none

structure During (p : Fin NPROC) (x : Fin NFILE → ℤ) (s : System) : Prop where
  refs : ∀ f, (s.files.file f).ref = holders s.kernel.proc f + x f
  closed : Closed s.kernel.proc
  busy : ¬ Gone (s.kernel.proc p)

/-- The calls may halt anywhere. -/
def anyHalt (_ : String) (_ : System) : Prop := True

namespace During

variable {p : Fin NPROC} {x : Fin NFILE → ℤ} {s : System} {f : Fin NFILE} {α : Type}

/-- An operation that changes neither the table of files nor that of processes. -/
theorem vol (h : During p x s) (m : Comp Vol α) :
    Comp.Sat (onVol m) s anyHalt fun _ t => During p x t ∧ t.kernel = s.kernel := by
  refine Comp.Sat.zoom (F := fun _ _ => True) (P := fun _ t => t.file = s.files.file) ?_
    (fun _ _ _ => trivial) ?_
  · refine Comp.Sat.zoom (F := fun _ _ => True) (P := fun _ _ => True) ?_ (fun _ _ _ => trivial)
      fun _ _ _ => rfl
    unfold Comp.Sat
    split <;> trivial
  · intro _ t ht
    exact ⟨⟨fun f => by rw [ht]; exact h.refs f, h.closed, h.busy⟩, rfl⟩

/-- The file `f` has its reference count changed by `d`. -/
theorem file (h : During p x s) {t : Files} {d : ℤ}
    (self : (t.file f).ref = (s.files.file f).ref + d)
    (others : ∀ g, g ≠ f → (t.file g).ref = (s.files.file g).ref) :
    During p (bump x f d) { s with files := t } := by
  refine ⟨?_, h.closed, h.busy⟩
  intro g
  dsimp only
  rw [bump_apply]
  by_cases hg : g = f
  · subst hg
    rw [self, h.refs, if_pos rfl, add_assoc]
  · rw [others g hg, h.refs, if_neg (Ne.symm hg), add_zero]

theorem modFile (h : During p x s) (g : File → File) (d : ℤ) (hg : (g (s.files.file f)).ref =
    (s.files.file f).ref + d) : During p (bump x f d)
      { s with files := s.files.setFile f (g (s.files.file f)) } := by
  refine h.file (f := f) ?_ fun k hk => ?_
  · rw [Files.setFile_self, hg]
  · rw [Files.setFile_of_ne _ hk]

theorem allocFile (h : During p x s) : Comp.Sat (onFiles Files.allocFile) s anyHalt fun o t =>
    t.kernel = s.kernel ∧ match o with
      | none => During p x t
      | some f => During p (bump x f 1) t := by
  refine Comp.Sat.zoom (F := fun _ _ => True) (P := fun o t => match o with
    | none => t = s.files
    | some f => (s.files.file f).ref = 0 ∧ t = s.files.setFile f .taken) ?_ (fun _ _ _ => trivial) ?_
  · unfold Files.allocFile
    refine .get ?_
    split
    next f hf =>
      have hz : (s.files.file f).ref = 0 := by simpa using List.find?_some hf
      exact .modify (.pure ⟨hz, rfl⟩)
    next => exact .pure rfl
  · intro o t ht
    refine ⟨rfl, ?_⟩
    cases o with
    | none =>
      subst ht
      exact h
    | some f =>
      obtain ⟨hz, rfl⟩ := ht
      exact h.modFile (fun _ => .taken) 1 (by rw [hz]; rfl)

theorem fileDup (h : During p x s) : Comp.Sat (onFiles (Files.fileDup f)) s anyHalt fun _ t =>
    t.kernel = s.kernel ∧ During p (bump x f 1) t := by
  refine Comp.Sat.zoom (F := fun _ _ => True) (P := fun _ t =>
    t = s.files.setFile f { s.files.file f with ref := (s.files.file f).ref + 1 }) ?_
    (fun _ _ _ => trivial) ?_
  · unfold Files.fileDup
    refine .get (.ite (fun _ => .halt trivial) fun _ => ?_)
    exact .of_run rfl rfl
  · rintro _ t rfl
    exact ⟨rfl, h.modFile (fun y => { y with ref := y.ref + 1 }) 1 rfl⟩

/-- `file_close` drops one reference, whichever way it goes. -/
theorem fileClose_refs (t : Files) : Comp.Sat (Files.fileClose f) t (fun _ _ => True) fun _ u =>
    (u.file f).ref = (t.file f).ref - 1 ∧ ∀ g, g ≠ f → (u.file g).ref = (t.file g).ref := by
  have others : ∀ (y : File) g, g ≠ f → ((t.setFile f y).file g).ref = (t.file g).ref :=
    fun y g hg => by rw [Files.setFile_of_ne _ hg]
  unfold Files.fileClose
  refine .get (.ite (fun _ => .halt trivial) fun low => .modify ?_)
  refine .ite (fun _ => .pure ⟨by rw [Files.setFile_self], others _⟩) fun last => ?_
  have zero : (t.file f).ref = 1 := by omega
  refine .gets (.modify ?_)
  have done : ∀ y : File, ((((t.setFile f y).setFile f
      { (t.setFile f y).file f with ref := 0, type := .none }).file f).ref = (t.file f).ref - 1) ∧
      ∀ g, g ≠ f → (((t.setFile f y).setFile f
        { (t.setFile f y).file f with ref := 0, type := .none }).file g).ref = (t.file g).ref := by
    intro y
    refine ⟨by rw [Files.setFile_self, zero]; rfl, fun g hg => ?_⟩
    rw [Files.setFile_of_ne _ hg, Files.setFile_of_ne _ hg]
  refine .ite (fun _ => ?_) fun _ => .pure (done _)
  split
  next ip _ =>
    refine Comp.Sat.zoom (F := fun _ _ => True) (P := fun _ _ => True) ?_ (fun _ _ _ => trivial)
      fun _ _ _ => done _
    unfold Comp.Sat
    split <;> trivial
  next => exact .halt trivial

theorem fileClose (h : During p x s) : Comp.Sat (onFiles (Files.fileClose f)) s anyHalt fun _ t =>
    t.kernel = s.kernel ∧ During p (bump x f (-1)) t := by
  refine Comp.Sat.zoom (fileClose_refs s.files) (fun _ _ _ => trivial) ?_
  rintro _ t ⟨self, others⟩
  exact ⟨rfl, h.file (by rw [self]; rfl) others⟩

/-- A descriptor of a process changes from `old` to `o`. -/
theorem fd (h : During p x s) {i : Fin NPROC} (hi : ¬ Gone (s.kernel.proc i)) (fd : Fin NOFILE)
    {o old : Option (Fin NFILE)} (hold : (s.kernel.proc i).ofile fd = old) :
    Comp.Sat (setFd i fd o) s anyHalt fun _ t =>
      During p (fun f => x f + (if old = some f then 1 else 0) - if o = some f then 1 else 0) t ∧
        t.files = s.files ∧
        t.kernel.proc = Function.update s.kernel.proc i (withFd (s.kernel.proc i) fd o) := by
  refine .of_run rfl ⟨⟨?_, ?_, ?_⟩, rfl, rfl⟩
  · intro f
    have all := holders_update s.kernel.proc i (withFd (s.kernel.proc i) fd o) f
    have one := openFds_update (s.kernel.proc i) fd o f
    have refs := h.refs f
    rw [hold] at one
    change (s.files.file f).ref =
      (holders (Function.update s.kernel.proc i (withFd (s.kernel.proc i) fd o)) f : ℤ) +
        (x f + (if old = some f then 1 else 0) - if o = some f then 1 else 0)
    rw [refs]
    split_ifs at one ⊢ <;> omega
  · intro j hj
    change Gone (Function.update s.kernel.proc i _ j) at hj
    change ∀ d, (Function.update s.kernel.proc i _ j).ofile d = none
    by_cases hji : j = i
    · subst hji
      rw [Function.update_self] at hj
      exact absurd hj hi
    · rw [Function.update_of_ne hji] at hj ⊢
      exact h.closed j hj
  · change ¬ Gone (Function.update s.kernel.proc i _ p)
    by_cases hpi : p = i
    · subst hpi
      rw [Function.update_self]
      exact hi
    · rw [Function.update_of_ne hpi]
      exact h.busy

theorem fdalloc (h : During p x s) : Comp.Sat (fdalloc p f) s anyHalt fun o t =>
    t.files = s.files ∧ match o with
      | none => During p x t
      | some _ => During p (bump x f (-1)) t := by
  unfold Sys.fdalloc
  refine .get ?_
  split
  next fd hfd =>
    have free : (s.kernel.proc p).ofile fd = none := by simpa using List.find?_some hfd
    refine .call (h.fd h.busy fd free) ?_
    rintro _ t ⟨ht, files, -⟩
    refine .pure ⟨files, ?_⟩
    convert ht using 1
    funext g
    rw [bump_apply]
    simp only [reduceCtorEq, if_false, add_zero, Option.some.injEq]
    split <;> rfl
  next => exact .pure ⟨rfl, h⟩

/-- An operation on files that keeps all reference counts. -/
theorem sameRefs (h : During p x s) {m : Comp Files α}
    (hm : Comp.Always (fun t u : Files => ∀ f, (u.file f).ref = (t.file f).ref) m) :
    Comp.Sat (onFiles m) s anyHalt fun _ t => During p x t := by
  have same := hm s.files
  unfold Comp.Sat onFiles
  rw [Comp.run_zoom]
  cases hr : m.run s.files with
  | ok a t =>
    rw [hr] at same
    exact ⟨fun f => (same f).trans (h.refs f), h.closed, h.busy⟩
  | halt w t => trivial

end During

section Refs

/-- The reference counts of the open files. -/
def SameRefs (t u : Files) : Prop := ∀ f, (u.file f).ref = (t.file f).ref

theorem SameRefs.refl (t : Files) : SameRefs t t := fun _ => rfl

theorem SameRefs.trans (t u v : Files) (h : SameRefs t u) (h' : SameRefs u v) : SameRefs t v :=
  fun f => (h' f).trans (h f)

variable {f : Fin NFILE} {α : Type}

theorem onVol_sameRefs (m : Comp Vol α) : Comp.Always SameRefs (Files.onVol m) :=
  .zoom (S := fun _ _ => True) (fun _ _ _ _ => rfl) fun _ => trivial

theorem modFile_sameRefs {g : File → File} (hg : ∀ y, (g y).ref = y.ref) :
    Comp.Always SameRefs (Files.modFile f g) := by
  refine .modify fun t k => ?_
  by_cases hk : k = f
  · subst hk
    rw [Files.setFile_self, hg]
  · rw [Files.setFile_of_ne _ hk]

theorem inodeOf_sameRefs : Comp.Always SameRefs (Files.inodeOf f) := by
  refine .bind SameRefs.trans (.get SameRefs.refl) fun s => ?_
  split
  · exact .pure SameRefs.refl _
  · exact .halt SameRefs.refl _

theorem advance_sameRefs (r : ℤ) : Comp.Always SameRefs (Files.advance f r) :=
  .ite (modFile_sameRefs fun _ => rfl) (.pure SameRefs.refl _)

theorem fileRead_sameRefs (addr : ℕ) (n : ℤ) : Comp.Always SameRefs (Files.fileRead f addr n) := by
  refine .bind SameRefs.trans (.get SameRefs.refl) fun s => .ite (.pure SameRefs.refl _) ?_
  refine .ite ?_ (.halt SameRefs.refl _)
  refine .bind SameRefs.trans inodeOf_sameRefs fun ip => ?_
  refine .bind SameRefs.trans (onVol_sameRefs _) fun _ => ?_
  refine .bind SameRefs.trans (onVol_sameRefs _) fun r => ?_
  refine .bind SameRefs.trans (advance_sameRefs r) fun _ => ?_
  exact .bind SameRefs.trans (onVol_sameRefs _) fun _ => .pure SameRefs.refl _

theorem writeChunk_sameRefs (ip : Fin NINODE) (addr : ℕ) (n1 : ℤ) :
    Comp.Always SameRefs (Files.writeChunk f ip addr n1) := by
  refine .bind SameRefs.trans (onVol_sameRefs _) fun _ => ?_
  refine .bind SameRefs.trans (.gets SameRefs.refl _) fun size => ?_
  refine .bind SameRefs.trans (modFile_sameRefs fun y => by split <;> rfl) fun _ => ?_
  refine .bind SameRefs.trans (.get SameRefs.refl) fun s => ?_
  refine .bind SameRefs.trans (onVol_sameRefs _) fun r => ?_
  refine .bind SameRefs.trans (advance_sameRefs r) fun _ => ?_
  exact .bind SameRefs.trans (onVol_sameRefs _) fun _ => .pure SameRefs.refl _

theorem fileWriteLoop_sameRefs (ip : Fin NINODE) (addr : ℕ) (n : ℤ) (fuel : ℕ) (i : ℤ) :
    Comp.Always SameRefs (Files.fileWriteLoop f ip addr n fuel i) := by
  induction fuel generalizing i with
  | zero => exact .pure SameRefs.refl _
  | succ fuel ih =>
    refine .ite ?_ (.pure SameRefs.refl _)
    refine .bind SameRefs.trans (onVol_sameRefs _) fun _ => ?_
    refine .bind SameRefs.trans (writeChunk_sameRefs ip _ _) fun r => ?_
    refine .bind SameRefs.trans (onVol_sameRefs _) fun _ => ?_
    exact .ite (.pure SameRefs.refl _) (ih _)

theorem fileWrite_sameRefs (addr : ℕ) (n : ℤ) : Comp.Always SameRefs (Files.fileWrite f addr n) := by
  refine .bind SameRefs.trans (.get SameRefs.refl) fun s => .ite (.pure SameRefs.refl _) ?_
  refine .ite ?_ (.halt SameRefs.refl _)
  refine .bind SameRefs.trans inodeOf_sameRefs fun ip => ?_
  refine .bind SameRefs.trans (.ite ?_ (.pure SameRefs.refl _)) fun _ => ?_
  · refine .bind SameRefs.trans (onVol_sameRefs _) fun _ => ?_
    refine .bind SameRefs.trans (.gets SameRefs.refl _) fun size => ?_
    refine .bind SameRefs.trans (modFile_sameRefs fun _ => rfl) fun _ => ?_
    exact onVol_sameRefs _
  · exact .bind SameRefs.trans (fileWriteLoop_sameRefs ip addr n _ _) fun _ => .pure SameRefs.refl _

end Refs

end EasyXv6.Sys
