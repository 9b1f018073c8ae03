import EasyXv6.Sys.Ownership

set_option autoImplicit false

/-!
# Writes of several processes to one file

A call of `file_write` is taken apart into its transactions, which those of other processes may come
between. Each chunk goes where the one before has ended.
-/
namespace EasyXv6.Fs.Files
open Lib Mem Proc

/-- The state in which a process whose user memory is `mem` makes a call. -/
def withUser (t : Files) (mem : UserMem) : Files := { t with vol := { t.vol with user := mem } }

/-- Where a call of `file_write` is: before the chunk from byte `i` on, or at its end. -/
inductive WritePlace
  | chunk (ip : Fin NINODE) (i : ℤ)
  | done (ret : ℤ)
  deriving DecidableEq

/-- The loop head of `file_write`. -/
def loopAt (ip : Fin NINODE) (n i : ℤ) : WritePlace :=
  if i < n then .chunk ip i else .done (if i = n then n else -1)

/-- `file_write` up to its loop. -/
def enterWrite (f : Fin NFILE) (n : ℤ) : Comp Files WritePlace := do
  let s ← .get
  if (s.file f).writable = false then
    return .done (-1)
  else if (s.file f).type = .inode then
    let ip ← inodeOf f
    (if (s.file f).append then seekEnd f ip else pure ())
    return loopAt ip n 0
  else
    .halt "file_write"

/-- The bytes of the chunk from byte `i` on: `n1` in `file_write`. -/
def chunkLen (n i : ℤ) : ℤ := min (n - i) WRITE_MAX

/-- The transaction of the chunk from byte `i` on. -/
def chunkRound (f : Fin NFILE) (ip : Fin NINODE) (addr : ℕ) (n i : ℤ) : Comp Files ℤ := do
  onVol Vol.beginOp
  let r ← writeChunk f ip (u64 (addr + i)) (chunkLen n i)
  onVol Vol.endOp
  return r

/-- The place after a chunk of which `writei` has returned `r`. -/
def afterChunk (ip : Fin NINODE) (n i r : ℤ) : WritePlace :=
  if r ≠ chunkLen n i then .done (if i = n then n else -1) else loopAt ip n (i + r)

/-- What is left of a call of `file_write` that no other comes between. -/
def finishWrite (f : Fin NFILE) (addr : ℕ) (n : ℤ) : (fuel : ℕ) → WritePlace → Comp Files ℤ
  | 0, .chunk _ i => return if i = n then n else -1
  | 0, .done ret => return ret
  | fuel + 1, .chunk ip i => do
    let r ← chunkRound f ip addr n i
    finishWrite f addr n fuel (afterChunk ip n i r)
  | _ + 1, .done ret => return ret

section Alone

variable (f : Fin NFILE) (ip : Fin NINODE) (addr : ℕ) (n i : ℤ) (fuel : ℕ) (s : Files)

theorem finishWrite_done (ret : ℤ) : finishWrite f addr n fuel (.done ret) = pure ret := by
  cases fuel <;> rfl

theorem finishWrite_loop : (finishWrite f addr n fuel (loopAt ip n i)).run s =
    (fileWriteLoop f ip addr n fuel i >>= fun c => pure (if c = n then n else -1)).run s := by
  induction fuel generalizing i s with
  | zero =>
    unfold loopAt
    split <;> rfl
  | succ fuel ih =>
    unfold loopAt fileWriteLoop
    split
    next more =>
      simp only [finishWrite, chunkRound, Comp.run_bind, Comp.run_pure]
      rw [show min (n - i) WRITE_MAX = chunkLen n i from rfl]
      cases (onVol Vol.beginOp).run s with
      | halt w t => rfl
      | ok _ t =>
      dsimp only
      cases (writeChunk f ip (u64 (addr + i)) (chunkLen n i)).run t with
      | halt w u => rfl
      | ok r u =>
      dsimp only
      cases (onVol Vol.endOp).run u with
      | halt w v => rfl
      | ok _ v =>
      dsimp only
      unfold afterChunk
      split
      next => rw [finishWrite_done]; rfl
      next => rw [ih, Comp.run_bind]; rfl
    next => rfl

/-- Without interference the steps make up `file_write`. -/
theorem fileWrite_steps : (fileWrite f addr n).run s =
    (enterWrite f n >>= finishWrite f addr n n.toNat).run s := by
  have done : ∀ t, (finishWrite f addr n n.toNat (.done (-1))).run t = .ok (-1) t := by
    intro t
    rw [finishWrite_done]
    rfl
  unfold fileWrite enterWrite
  rw [Comp.run_bind _ (finishWrite f addr n n.toNat)]
  simp only [Comp.bind_get_run, Comp.run_ite]
  split
  next => exact (done s).symm
  next =>
  split
  next =>
    simp only [Comp.run_bind, Comp.run_pure]
    cases (inodeOf f).run s with
    | halt w t => rfl
    | ok ip t =>
    dsimp only
    cases (if (s.file f).append = true then seekEnd f ip else pure ()).run t with
    | halt w u => rfl
    | ok _ u => exact (finishWrite_loop f ip addr n 0 n.toNat u).symm
  next => rfl

end Alone

end EasyXv6.Fs.Files

namespace EasyXv6.Sys
open Lib Mem Proc Fs Vol Files

/-- A call of `file_write` that a process has begun. -/
structure WriteCall where
  file : Fin NFILE
  mem : UserMem
  addr : ℕ
  n : ℤ
  place : WritePlace

/-- Processes `ι` that write to files; `call p` is the last call of `p`. -/
structure Writers (ι : Type) where
  files : Files
  call : ι → Option WriteCall

/-- A `writei` of a chunk: `off` and `len` are where it writes, `ret` what it has returned. -/
structure Chunk where
  mem : UserMem
  addr : ℕ
  off : ℕ
  len : ℕ
  ret : ℤ

def Chunk.byte (c : Chunk) (j : ℕ) : UInt8 := userBytes c.mem c.addr j

inductive WriteEvent (ι : Type)
  | enter (p : ι)
  | chunk (p : ι) (c : Chunk)

/-- A chunk whose `writei` has succeeded. -/
def WriteEvent.written {ι : Type} : WriteEvent ι → List Chunk
  | .enter _ => []
  | .chunk _ c => if c.ret = c.len then [c] else []

def written {ι : Type} (tr : List (WriteEvent ι × Writers ι)) : List Chunk :=
  tr.flatMap fun e => e.1.written

/-- A process that is not in a call may begin one, to any file of `S`; one that is in a call may write
    its next chunk, at the offset that the file has then been moved past. -/
inductive WriteStep {ι : Type} [DecidableEq ι] (S : Set (Fin NFILE)) :
    Writers ι → WriteEvent ι → Writers ι → Prop
  | enter {w : Writers ι} {p : ι} {f : Fin NFILE} {mem : UserMem} {addr : ℕ} {n : ℤ} {place : WritePlace}
      {t : Files} (idle : ∀ c, w.call p = some c → ∃ ret, c.place = .done ret) (hf : f ∈ S)
      (h : (enterWrite f n).run (w.files.withUser mem) = .ok place t) :
      WriteStep S w (.enter p) ⟨t, Function.update w.call p (some ⟨f, mem, addr, n, place⟩)⟩
  | chunk {w : Writers ι} {p : ι} {c : WriteCall} {ip : Fin NINODE} {i r : ℤ} {t : Files}
      (hc : w.call p = some c) (hp : c.place = .chunk ip i)
      (h : (chunkRound c.file ip c.addr c.n i).run (w.files.withUser c.mem) = .ok r t) :
      WriteStep S w (.chunk p ⟨c.mem, u64 (c.addr + i), (t.file c.file).off - r.toNat,
          (chunkLen c.n i).toNat, r⟩)
        ⟨t, Function.update w.call p (some { c with place := afterChunk ip c.n i r })⟩

/-- The open files of `S` are on the inode in the slot `ip`, and either all in append mode or one and
    the same. -/
structure OnOne (S : Set (Fin NFILE)) (ip : Fin NINODE) (t : Files) : Prop where
  nonempty : S.Nonempty
  live : ∀ f ∈ S, 0 < (t.file f).ref
  slot : ∀ f ∈ S, (t.file f).ip = some ip
  mode : (∀ f ∈ S, (t.file f).append = true) ∨ ∃ f, S = {f}

/-- The chunks follow each other from `a` to `b`. -/
def Tiles : ℕ → List Chunk → ℕ → Prop
  | a, [], b => a = b
  | a, c :: cs, b => c.off = a ∧ Tiles (a + c.len) cs b

section Tiles

variable {a b : ℕ} {cs : List Chunk} {c : Chunk}

theorem Tiles.snoc (h : Tiles a cs b) (off : c.off = b) : Tiles a (cs ++ [c]) (b + c.len) := by
  induction cs generalizing a with
  | nil =>
    cases h
    exact ⟨off, rfl⟩
  | cons d ds ih => exact ⟨h.1, ih h.2⟩

theorem Tiles.le (h : Tiles a cs b) : a ≤ b := by
  induction cs generalizing a with
  | nil => exact Nat.le_of_eq h
  | cons d ds ih => exact Nat.le_trans (Nat.le_add_right ..) (ih h.2)

theorem Tiles.within (h : Tiles a cs b) (hc : c ∈ cs) : a ≤ c.off ∧ c.off + c.len ≤ b := by
  induction cs generalizing a with
  | nil => cases hc
  | cons d ds ih =>
    obtain ⟨off, rest⟩ := h
    rcases List.mem_cons.mp hc with rfl | hc
    · have := rest.le
      omega
    · have := ih rest hc
      omega

end Tiles

section Chunk

variable {N : ℕ → Node} {T : Dirs} {P Q : List Ref} {L : List (Fin NINODE)} {t : Files}
  {f g : Fin NFILE} {ip : Fin NINODE} {i addr : ℕ} {n k : ℤ} {x : File} {y z : Node} {mem : UserMem}
  {many : Prop}

/-- What the transaction of a chunk leaves of the file `z` of the inode `i`, which becomes `y`. -/
structure Round (f : Fin NFILE) (i : ℕ) (z y : Node) (addr n : ℕ) (r : ℤ) (t u : Files) : Prop where
  chunk : Chunked t.vol.user addr (chunkOff (t.file f) z.size) n z r y
  file : u.file = Function.update t.file f
    { t.file f with off := chunkOff (t.file f) z.size + r.toNat }
  shows : ∀ q a, q < chunkOff (t.file f) z.size → q / BSIZE = chunkOff (t.file f) z.size / BSIZE →
    q / BSIZE < MAXFILE → t.vol.Shows i q a → u.vol.Shows i q a ∧ (y.byte q = some a ∨ r = -1)

theorem chunkRound_sat (h : FsState N T P Q L t) (hi : (ip, i) ∈ P) (file : (N i).type ≠ T_DIR)
    (more : k < n) : Comp.Sat (chunkRound f ip addr n k) t (Stops many) fun r u => ∃ y,
      FsState (Function.update N i y) T P Q L u ∧
        Round f i (N i) y (u64 (addr + k)) (chunkLen n k).toNat r t u := by
  have pos : 0 < chunkLen n k := lt_min (by omega) (by decide)
  exact chunk_sat (k := pure) h hi file pos (min_le_right _ _) (fun _ _ stop _ => stop)
    fun r y u hu _ chunk shows' _ _ file _ => .pure ⟨y, hu, chunk, file, shows'⟩

theorem enterWrite_sat (h : FsState N T P Q L t) (live : 0 < (t.file f).ref)
    (slot : (t.file f).ip = some ip) {E : String → Files → Prop} :
    Comp.Sat (enterWrite f n) t E fun place u => FsState N T P Q L u ∧ Looked L t.vol u.vol ∧
      SameFile f t u ∧ ((t.file f).append = false → u.file = t.file) ∧
        ∀ jp k, place = .chunk jp k → jp = ip ∧ k < n ∧ (t.file f).writable = true := by
  obtain ⟨type, jp, i, slot', hi, -⟩ := h.slot live
  obtain rfl : jp = ip := Option.some.inj (slot'.symm.trans slot)
  unfold enterWrite
  refine .get (.ite (fun _ => .pure ⟨h, .refl L _, .refl f t, fun _ => rfl, nofun⟩) fun writable =>
    .ite (fun _ => ?_) fun bad => absurd type bad)
  refine .call (inodeOf_sat slot) ?_
  rintro _ t' ⟨rfl, same'⟩
  rw [same']
  refine .call (P := fun _ u => FsState N T P Q L u ∧ Looked L t.vol u.vol ∧ SameFile f t u ∧
    ((t.file f).append = false → u.file = t.file)) (.ite (fun app => ?_) fun _ =>
      .pure ⟨h, .refl L _, .refl f t, fun _ => rfl⟩) ?_
  · refine (seekEnd_keeps h hi).post ?_
    rintro _ u ⟨hu, wrote, look, -⟩
    exact ⟨hu, look, wrote.file, fun no => by cases app.symm.trans no⟩
  · rintro _ u ⟨hu, look, file, same⟩
    refine .pure ⟨hu, look, file, same, fun jp' k hk => ?_⟩
    unfold loopAt at hk
    split at hk
    next more =>
      cases hk
      exact ⟨rfl, more, by simpa using writable⟩
    next => cases hk

theorem SameFile.off {u : Files} (h : SameFile f t u) (g : Fin NFILE) :
    u.file g = { t.file g with off := (u.file g).off } := by
  by_cases hg : g = f
  · rw [hg]
    exact h.self
  · rw [h.others g hg]

theorem OnOne.congr {S : Set (Fin NFILE)} {u : Files} (h : OnOne S ip t) (same : SameFile f t u) :
    OnOne S ip u := by
  refine ⟨h.nonempty, fun g hg => ?_, fun g hg => ?_, h.mode.imp (fun app g hg => ?_) id⟩
  · rw [same.off g]
    exact h.live g hg
  · rw [same.off g]
    exact h.slot g hg
  · rw [same.off g]
    exact app g hg

theorem chunkOff_append (h : x.append = true) (size : ℕ) : chunkOff x size = size := if_pos h

/-- The next chunk goes to the same place through all the files. -/
theorem OnOne.next {S : Set (Fin NFILE)} {u : Files} {size b : ℕ} (h : OnOne S ip t)
    (same : SameFile f t u) (hf : f ∈ S) (hb : chunkOff (u.file f) size = b) :
    ∀ g ∈ S, chunkOff (u.file g) size = b := by
  intro g hg
  rcases (h.congr same).mode with app | ⟨e, rfl⟩
  · rw [chunkOff_append (app g hg), ← hb, chunkOff_append (app f hf)]
  · rw [Set.mem_singleton_iff.mp hg, ← Set.mem_singleton_iff.mp hf, hb]

section Chunked

variable {src len o : ℕ} {r : ℤ}

theorem Chunked.size_le (h : Chunked mem src o len z r y) : z.size ≤ y.size := by
  rcases h with ⟨-, -, rfl⟩ | ⟨-, ⟨-, w⟩ | ⟨-, -, -, w⟩⟩
  · exact Nat.le_refl _
  · rw [w.size]
    exact Nat.le_max_left _ _
  · exact Nat.le_of_eq w.size.symm

theorem Chunked.failed (h : Chunked mem src o len z r y) (bad : r ≠ len) : r = -1 := by
  rcases h with ⟨h, -⟩ | ⟨-, ⟨good, -⟩ | ⟨h, -⟩⟩
  · exact h
  · exact absurd good bad
  · exact h

theorem Chunked.wrote (h : Chunked mem src o len z r y) (good : r = len) :
    WrittenNode o len (userBytes mem src) z y := by
  rcases h with ⟨bad, -⟩ | ⟨-, ⟨-, w⟩ | ⟨bad, -⟩⟩
  · omega
  · exact w
  · omega

/-- A byte of another block that is known before the chunk is known after it. -/
theorem Chunked.before {q : ℕ} {a : UInt8} (h : Chunked mem src o len z r y) (before : q < o)
    (block : q / BSIZE ≠ o / BSIZE) (known : z.byte q = some a) : y.byte q = some a := by
  rcases h with ⟨-, -, rfl⟩ | ⟨-, ⟨-, w⟩ | ⟨-, -, -, w⟩⟩
  · exact known
  · exact w.old _ _ (Or.inl before) known
  · refine w.early _ _ (Nat.lt_of_le_of_ne ?_ block) known
    exact Nat.div_le_div_right (Nat.le_of_lt before)

end Chunked

/-- A byte before the chunk is known, or it is in the block that the next chunk begins in and the
    cache and the disk agree on it. -/
theorem Round.kept {src len o q : ℕ} {r : ℤ} {a : UInt8} {u : Files}
    (h : Round f i z y src len r t u) (here : chunkOff (t.file f) z.size = o) (before : q < o)
    (small : q / BSIZE < MAXFILE) (shown : z.byte q = some a → t.vol.Shows i q a)
    (kept : z.byte q = some a ∨ q / BSIZE = o / BSIZE ∧ t.vol.Shows i q a) :
    y.byte q = some a ∨ q / BSIZE = (o + r.toNat) / BSIZE ∧ u.vol.Shows i q a := by
  obtain ⟨chunk, -, shows'⟩ := h
  rw [here] at chunk shows'
  by_cases block : q / BSIZE = o / BSIZE
  · obtain ⟨still, byte | rfl⟩ := shows' q a before block small (kept.elim shown And.right)
    · exact Or.inl byte
    · exact Or.inr ⟨block, still⟩
  · exact Or.inl (chunk.before before block (kept.resolve_right fun hs => block hs.1))

theorem afterChunk_chunk {jp : Fin NINODE} {r m : ℤ} (h : afterChunk ip n k r = .chunk jp m) :
    jp = ip ∧ m < n := by
  unfold afterChunk loopAt at h
  split at h
  next => cases h
  next =>
    split at h
    next less =>
      cases h
      exact ⟨rfl, less⟩
    next => cases h

/-- The next chunk goes to the end of this one. -/
theorem Chunked.next {len src : ℕ} {r : ℤ} (h : Chunked mem src (chunkOff x z.size) len z r y) :
    chunkOff { x with off := chunkOff x z.size + r.toNat } y.size = chunkOff x z.size + r.toNat := by
  unfold chunkOff at h ⊢
  dsimp only at h ⊢
  split
  next hx =>
    rw [if_pos hx] at h
    rcases h with ⟨rfl, -, rfl⟩ | ⟨-, ⟨rfl, w⟩ | ⟨rfl, -, -, w⟩⟩
    · rfl
    · have := w.size
      rw [Int.toNat_natCast]
      omega
    · exact w.size
  next => rfl

end Chunk

section Run

variable {ι : Type} [DecidableEq ι] {N : ℕ → Node} {T : Dirs} {P Q : List Ref}
  {L : List (Fin NINODE)} {S : Set (Fin NFILE)} {ip : Fin NINODE} {i a b : ℕ} {cs : List Chunk}
  {w w' : Writers ι} {e : WriteEvent ι}

/-- The writes so far: the chunks `cs` are in the file from `a` on, and the next one goes to `b`. -/
structure Writing (S : Set (Fin NFILE)) (ip : Fin NINODE) (i a b : ℕ) (T : Dirs) (P Q : List Ref)
    (L : List (Fin NINODE)) (N : ℕ → Node) (cs : List Chunk) (w : Writers ι) : Prop where
  state : FsState N T P Q L w.files
  ref : (ip, i) ∈ P
  one : OnOne S ip w.files
  calls : ∀ p c, w.call p = some c → c.file ∈ S ∧ ∀ jp k, c.place = .chunk jp k →
    jp = ip ∧ k < c.n ∧ (w.files.file c.file).writable = true
  tiles : Tiles a cs b
  next : ∀ f ∈ S, chunkOff (w.files.file f) (N i).size = b
  kept : ∀ c ∈ cs, ∀ j < c.len, c.off + j < (N i).size ∧ ((N i).byte (c.off + j) = some (c.byte j) ∨
    (c.off + j) / BSIZE = b / BSIZE ∧ w.files.vol.Shows i (c.off + j) (c.byte j))

/-- A step of the process `p` that moves no offset but that of `f`. -/
theorem Writing.calls_update {f : Fin NFILE} {t : Files} {p : ι} {c : WriteCall}
    (h : Writing S ip i a b T P Q L N cs w) (same : SameFile f w.files t)
    (new : c.file ∈ S ∧ ∀ jp k, c.place = .chunk jp k →
      jp = ip ∧ k < c.n ∧ (w.files.file c.file).writable = true) :
    ∀ p' c', Function.update w.call p (some c) p' = some c' → c'.file ∈ S ∧
      ∀ jp k, c'.place = .chunk jp k → jp = ip ∧ k < c'.n ∧ (t.file c'.file).writable = true := by
  intro p' c' hc'
  by_cases hp : p' = p
  · rw [hp, Function.update_self] at hc'
    cases Option.some.inj hc'
    refine ⟨new.1, fun jp k hk => ?_⟩
    rw [same.off c.file]
    exact new.2 jp k hk
  · rw [Function.update_of_ne hp] at hc'
    obtain ⟨mem', chunk⟩ := h.calls p' c' hc'
    refine ⟨mem', fun jp k hk => ?_⟩
    rw [same.off c'.file]
    exact chunk jp k hk

/-- A process begins a call. -/
theorem Writing.enter {f : Fin NFILE} {mem : UserMem} {addr : ℕ} {n : ℤ} {place : WritePlace} {t : Files}
    {p : ι} (h : Writing S ip i a b T P Q L N cs w) (hf : f ∈ S)
    (run : (enterWrite f n).run (w.files.withUser mem) = .ok place t) :
    Writing S ip i a b T P Q L N cs
      ⟨t, Function.update w.call p (some ⟨f, mem, addr, n, place⟩)⟩ := by
  have start : FsState N T P Q L (w.files.withUser mem) := h.state.user mem
  have spec : Comp.Sat (enterWrite f n) (w.files.withUser mem) (fun _ _ => False) _ :=
    enterWrite_sat start (h.one.live f hf) (h.one.slot f hf)
  obtain ⟨state, look, same', still, at'⟩ := spec.ok run
  have same : SameFile f w.files t := ⟨same'.others, same'.self⟩
  have hL := start.held _ h.ref
  have hiR := List.mem_append_left Q h.ref
  refine ⟨state, h.ref, h.one.congr same, h.calls_update same ⟨hf, at'⟩, h.tiles, fun g hg => ?_,
    fun c hc j hj => ⟨(h.kept c hc j hj).1, (h.kept c hc j hj).2.imp id fun ⟨hdiv, hs⟩ => ⟨hdiv, ?_⟩⟩⟩
  · have before := h.next g hg
    by_cases app : (w.files.file g).append = true
    · rw [chunkOff_append app] at before
      rw [chunkOff_append, before]
      rw [same.off g]
      exact app
    · have file : t.file g = w.files.file g := by
        by_cases hgf : g = f
        · rw [hgf] at app
          rw [still (eq_false_of_ne_true app)]
          rfl
        · exact same.others g hgf
      rw [file, before]
  · exact start.between.fsys.shows_looked hiR hL state.between.fsys hiR hL look ⟨hs.view, hs.disk⟩

/-- A process writes a chunk. -/
theorem Writing.chunk {p : ι} {c : WriteCall} {jp : Fin NINODE} {k r : ℤ} {t : Files}
    (h : Writing S ip i a b T P Q L N cs w) (hc : w.call p = some c) (hp : c.place = .chunk jp k)
    (run : (chunkRound c.file jp c.addr c.n k).run (w.files.withUser c.mem) = .ok r t) :
    ∃ y b', Writing S ip i a b' T P Q L (Function.update N i y)
      (cs ++ WriteEvent.written (.chunk p ⟨c.mem, u64 (c.addr + k), (t.file c.file).off - r.toNat,
        (chunkLen c.n k).toNat, r⟩))
      ⟨t, Function.update w.call p (some { c with place := afterChunk jp c.n k r })⟩ := by
  obtain ⟨hf, at'⟩ := h.calls p c hc
  obtain ⟨rfl, more, writable⟩ := at' jp k hp
  have start : FsState N T P Q L (w.files.withUser c.mem) := h.state.user c.mem
  obtain ⟨-, jp', i', slot, hi, hL, file⟩ := start.slot (h.one.live c.file hf)
  obtain rfl : jp' = jp := Option.some.inj (slot.symm.trans (h.one.slot c.file hf))
  obtain rfl : i' = i := start.between.fsys.inum_eq (List.mem_append_left Q hi)
    (List.mem_append_left Q h.ref)
  have spec : Comp.Sat (chunkRound c.file jp' c.addr c.n k) (w.files.withUser c.mem)
      (Stops False) _ := chunkRound_sat start hi (file writable) more
  obtain ⟨y, state, round⟩ := spec.ok run
  have here : chunkOff ((w.files.withUser c.mem).file c.file) (N i').size = b := h.next c.file hf
  have next := round.chunk.next
  have chunk := round.chunk
  have files := round.file
  rw [here] at chunk files next
  have off : t.file c.file = { w.files.file c.file with off := b + r.toNat } := by
    rw [files, Function.update_self]
    rfl
  have same : SameFile c.file w.files t := .of_off files
  obtain ⟨len, hlen⟩ : ∃ len, len = (chunkLen c.n k).toNat := ⟨_, rfl⟩
  rw [← hlen] at chunk round ⊢
  have used : (N i').type ≠ 0 := (start.between.fsys.alloc (List.mem_append_left Q hi)).2.2
  have most := start.between.fsys.size_le (List.mem_append_left Q hi) hL
  have old : ∀ d ∈ cs, ∀ j < d.len, d.off + j < y.size ∧ (y.byte (d.off + j) = some (d.byte j) ∨
      (d.off + j) / BSIZE = (b + r.toNat) / BSIZE ∧ t.vol.Shows i' (d.off + j) (d.byte j)) := by
    intro d hd j hj
    obtain ⟨below, kept⟩ := h.kept d hd j hj
    refine ⟨Nat.lt_of_lt_of_le below chunk.size_le, ?_⟩
    refine round.kept here ?_ ?_ (fun known => start.between.shows known used) ?_
    · have := (h.tiles.within hd).2
      omega
    · simp only [BSIZE] at *
      omega
    · exact kept.imp id fun ⟨hdiv, hs⟩ => ⟨hdiv, hs.view, hs.disk⟩
  have update : Function.update N i' y i' = y := Function.update_self ..
  refine ⟨y, b + r.toNat, ⟨state, h.ref, h.one.congr same, ?_, ?_, ?_, ?_⟩⟩
  · exact h.calls_update same ⟨hf, fun jp m hm => ⟨(afterChunk_chunk hm).1, (afterChunk_chunk hm).2,
      writable⟩⟩
  · unfold WriteEvent.written
    dsimp only
    split
    next done =>
      have : b + r.toNat = b + len := by rw [done, Int.toNat_natCast]
      rw [this, off]
      exact h.tiles.snoc (Nat.add_sub_cancel ..)
    next failed =>
      rw [List.append_nil, chunk.failed failed]
      exact h.tiles
  · rw [update]
    refine h.one.next same hf ?_
    rw [off]
    exact next
  · rw [update]
    intro d hd j hj
    rcases List.mem_append.mp hd with hd | hd
    · exact old d hd j hj
    · unfold WriteEvent.written at hd
      dsimp only at hd
      split at hd
      next done =>
        have wr := chunk.wrote done
        rw [List.mem_singleton.mp hd] at hj ⊢
        rw [off]
        dsimp only at hj ⊢
        rw [Nat.add_sub_cancel]
        refine ⟨?_, Or.inl (wr.new j hj)⟩
        rw [wr.size]
        omega
      next => cases hd

theorem Writing.step (h : Writing S ip i a b T P Q L N cs w) (step : WriteStep S w e w') :
    ∃ N' b', Writing S ip i a b' T P Q L N' (cs ++ e.written) w' := by
  cases step with
  | enter _ hf run =>
    refine ⟨N, b, ?_⟩
    rw [WriteEvent.written, List.append_nil]
    exact h.enter hf run
  | chunk hc hp run =>
    obtain ⟨y, b', h'⟩ := h.chunk hc hp run
    exact ⟨_, b', h'⟩

theorem Writing.run {ws : List (WriteEvent ι × Writers ι)} (h : Writing S ip i a b T P Q L N cs w)
    (run : Along (WriteStep S) w ws) :
    ∃ N' b', Writing S ip i a b' T P Q L N' (cs ++ written ws) (final w ws) := by
  induction ws generalizing w cs N b with
  | nil =>
    refine ⟨N, b, ?_⟩
    rw [written, List.flatMap_nil, List.append_nil]
    exact h
  | cons head rest ih =>
    obtain ⟨N', b', h'⟩ := h.step run.1
    obtain ⟨N'', b'', h''⟩ := ih h' run.2
    refine ⟨N'', b'', ?_⟩
    rw [written, List.flatMap_cons, ← List.append_assoc]
    exact h''

/-- Where the next chunk through the file `f` of the inode `i` goes. -/
def nextOff (t : Files) (i : ℕ) (f : Fin NFILE) : ℕ := chunkOff (t.file f) (t.vol.file i).size

def Writers.idle (ι : Type) (t : Files) : Writers ι := ⟨t, fun _ => none⟩

end Run

section Example

/-- The only process makes the file `/a`, in append mode. -/
def exampleAppend : Outcome System ℤ :=
  (sysOpen proczero 0 (O_CREATE ||| O_RDWR ||| O_APPEND)).run
    (exampleSystem.withUser (stringMem [SLASH, 97]))

theorem exampleAppend_opened : Along (Step exampleLayout) exampleSystem
    [(.call proczero (stringMem [SLASH, 97]) (.open 0 (O_CREATE ||| O_RDWR ||| O_APPEND)) 0,
      exampleAppend.state)] :=
  ⟨.call rfl (Outcome.eq_ok (by decide +kernel)), trivial⟩

theorem exampleAppend_one : OnOne {0} 1 exampleAppend.state.files := by
  have ref : (exampleAppend.state.files.file 0).ref = 1 := by decide +kernel
  have slot : (exampleAppend.state.files.file 0).ip = some 1 := by decide +kernel
  refine ⟨⟨0, rfl⟩, ?_, ?_, Or.inr ⟨0, rfl⟩⟩
  · rintro _ rfl
    rw [ref]
    decide
  · rintro _ rfl
    exact slot

end Example

end EasyXv6.Sys
