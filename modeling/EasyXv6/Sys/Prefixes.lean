import EasyXv6.Fs.Recovered
import EasyXv6.Sys.Contents

set_option autoImplicit false

/-!
# A crash during a large write

Every chunk of `file_write` is a transaction, so that a crash leaves the file with a number of whole
chunks applied. What an earlier write has left in the cache alone is lost by the crash.
-/
namespace EasyXv6.Sys
open Lib Mem Proc Fs Vol Files

/-- The contents of a file. -/
def Flat.of (x : Node) : Flat := ⟨x.size, x.byte⟩

/-- `k` bytes are all of `n`, or those of whole chunks. -/
def WholeChunks (n : ℤ) (k : ℕ) : Prop := (k : ℤ) = n ∨ (k : ℤ) ≤ n ∧ WRITE_MAX ∣ (k : ℤ)

/-- The contents of the inode `i` once `k` bytes of a write through `f` are applied. -/
def applied (t : Files) (f : Fin NFILE) (i addr k : ℕ) : Flat :=
  (Flat.of (t.vol.file i)).splice (nextOff t i f) k (userBytes t.vol.user addr)

/-- A call of `file_write` applies whole chunks: at a crash, when it returns `n` and when it fails. -/
structure AppliesChunks (f : Fin NFILE) (i addr : ℕ) (n : ℤ) (t : Files) : Prop where
  crash : ∃ ws, ((fileWrite f addr n).run t).state.vol.blk.bio.issued = t.vol.blk.bio.issued ++ ws ∧
    ∀ done, done <+: ws → ∃ k, WholeChunks n k ∧
      (∃ v, Log.Recovers (applyWrites done t.vol.blk.bio.disk) v) ∧
      ∀ v, Log.Recovers (applyWrites done t.vol.blk.bio.disk) v →
        Flat.of (fileOn v.bio.disk i) = applied t f i addr k
  returned : ∀ r u, (fileWrite f addr n).run t = .ok r u → ∃ k, WholeChunks n k ∧
    (r = n ∧ (k : ℤ) = n ∨ r = -1) ∧ Flat.of (u.vol.file i) = applied t f i addr k ∧
      Flat.of (fileOn u.vol.blk.bio.disk i) = applied t f i addr k ∧
        (u.file f).off = nextOff t i f + k

section Flat

variable {x : Flat} {o c m : ℕ} {bytes : ℕ → UInt8}

theorem Flat.splice_zero (h : o ≤ x.size) : x.splice o 0 bytes = x := by
  refine Flat.ext (Nat.max_eq_left h) (funext fun q => ?_)
  exact if_neg (by omega)

/-- Two writes, one after the other. -/
theorem Flat.splice_splice : (x.splice o c bytes).splice (o + c) m (fun j => bytes (c + j)) =
    x.splice o (c + m) bytes := by
  unfold Flat.splice
  refine Flat.ext ?_ (funext fun q => ?_)
  · dsimp only
    omega
  · dsimp only
    by_cases late : o + c ≤ q ∧ q < o + c + m
    · rw [if_pos late, if_pos (by omega)]
      congr 2
      omega
    · rw [if_neg late]
      by_cases early : o ≤ q ∧ q < o + c
      · rw [if_pos early, if_pos (by omega)]
      · rw [if_neg early, if_neg (by omega)]

end Flat

section Chunk

variable {N N' : ℕ → Node} {R R' : List Ref} {L L' : List (Fin NINODE)} {s s' : Vol}
  {i off n : ℕ} {bytes : ℕ → UInt8}

theorem Between.fileOn_eq (h : Between N R L s) (used : (N i).type ≠ 0) (clean : s.Clean i)
    {d : ℕ → Block} (same : ∀ b, ¬ Log.InLog b → d b = s.blk.bio.disk b) :
    Flat.of (fileOn d i) = Flat.of (s.file i) := by
  have disk := Between.fileOn_onDisk h (h.used_iff.mpr used) same
  exact Flat.ext disk.size ((disk.contents_iff fun _ => byte_fileOn_none d).mpr clean)

theorem Between.clean_of_fileOn (h : Between N R L s) (used : (N i).type ≠ 0) {d : ℕ → Block}
    (same : ∀ b, ¬ Log.InLog b → d b = s.blk.bio.disk b)
    (eq : (Flat.of (fileOn d i)).byte = (Flat.of (s.file i)).byte) : s.Clean i :=
  ((Between.fileOn_onDisk h (h.used_iff.mpr used) same).contents_iff fun _ => byte_fileOn_none d).mp eq

/-- A file of which every byte is shown as before, or as it has been written. -/
theorem splice_of_shows (size : (s'.file i).size = max (s.file i).size (off + n))
    (new : ∀ j < n, s'.Shows i (off + j) (bytes j)) (inside : off ≤ (s.file i).size)
    (old : ∀ q a, q < off ∨ off + n ≤ q → q < (s.file i).size → s.Shows i q a → s'.Shows i q a)
    (clean : s.Clean i) :
    Flat.of (s'.file i) = (Flat.of (s.file i)).splice off n bytes ∧ s'.Clean i := by
  have shows' : ∀ q, off ≤ q ∧ q < off + n → s'.Shows i q (bytes (q - off)) := by
    intro q hq
    have := new (q - off) (by omega)
    rwa [Nat.add_sub_cancel' hq.1] at this
  refine ⟨Flat.ext size (funext fun q => ?_), fun q hq => ?_⟩
  · change (s'.file i).byte q = if off ≤ q ∧ q < off + n then _ else (s.file i).byte q
    split
    next within => exact (shows' q within).file (by omega)
    next out =>
      by_cases hq : q < (s.file i).size
      · obtain ⟨a, hs⟩ := clean q hq
        rw [hs.file hq]
        exact (old q a (by omega) hq hs).file (by omega)
      · rw [s.byte_none hq, s'.byte_none (by omega)]
  · by_cases within : off ≤ q ∧ q < off + n
    · exact ⟨_, shows' q within⟩
    · obtain ⟨a, hs⟩ := clean q (by omega)
      exact ⟨a, old q a (by omega) (by omega) hs⟩

/-- A file of which every byte is shown as before. -/
theorem same_of_shows (size : (s'.file i).size = (s.file i).size)
    (old : ∀ q a, q < (s.file i).size → s.Shows i q a → s'.Shows i q a) (clean : s.Clean i) :
    Flat.of (s'.file i) = Flat.of (s.file i) ∧ s'.Clean i := by
  have none : ∀ j < 0, s'.Shows i (0 + j) ((fun _ => 0 : ℕ → UInt8) j) :=
    fun j hj => absurd hj (Nat.not_lt_zero j)
  have step := splice_of_shows (by rw [size]; exact (Nat.max_eq_left (Nat.zero_le _)).symm) none
    (Nat.zero_le _) (fun q a _ hq => old q a hq) clean
  rwa [Flat.splice_zero (Nat.zero_le _)] at step

end Chunk

section Loop

variable {N : ℕ → Node} {T : Dirs} {P Q : List Ref} {L : List (Fin NINODE)} {t₀ t u : Files}
  {f : Fin NFILE} {ip : Fin NINODE} {i addr c : ℕ} {n : ℤ}

/-- A disk from which recovery leaves whole chunks applied. -/
def LeavesChunks (f : Fin NFILE) (i addr : ℕ) (n : ℤ) (t : Files) (d : ℕ → Block) : Prop :=
  ∃ k D, WholeChunks n k ∧ Log.Recoverable D d ∧
    ∀ e, (∀ b, ¬ Log.InLog b → e b = D b) → Flat.of (fileOn e i) = applied t f i addr k

/-- The loop of `file_write` before the chunk from byte `c` on, the call having begun in `t₀`. -/
structure Applied (t₀ : Files) (f : Fin NFILE) (ip : Fin NINODE) (i addr : ℕ) (n : ℤ) (T : Dirs)
    (P Q : List Ref) (L : List (Fin NINODE)) (N : ℕ → Node) (c : ℕ) (t : Files) : Prop where
  state : FsState N T P Q L t
  ref : (ip, i) ∈ P
  file : (N i).type ≠ T_DIR
  clean : t.vol.Clean i
  whole : WholeChunks n c
  contents : Flat.of (t.vol.file i) = applied t₀ f i addr c
  off : (t.file f).off = nextOff t₀ i f + c
  next : nextOff t i f = nextOff t₀ i f + c
  user : t.vol.user = t₀.vol.user
  safe : Log.CrashSafe (LeavesChunks f i addr n t₀) t₀.vol.blk t.vol.blk

theorem leaves_of_contents {k : ℕ} (h : FsState N T P Q L t) (hi : (ip, i) ∈ P) (clean : t.vol.Clean i)
    (whole : WholeChunks n k) (contents : Flat.of (t.vol.file i) = applied t₀ f i addr k)
    {d : ℕ → Block} (hd : Log.Recoverable t.vol.blk.bio.disk d) : LeavesChunks f i addr n t₀ d := by
  have used := (h.between.fsys.alloc (List.mem_append_left Q hi)).2.2
  exact ⟨k, _, whole, hd, fun e same => (Between.fileOn_eq h.between used clean same).trans contents⟩

theorem Applied.leaves (h : Applied t₀ f ip i addr n T P Q L N c t) {d : ℕ → Block}
    (hd : Log.Recoverable t.vol.blk.bio.disk d) : LeavesChunks f i addr n t₀ d :=
  leaves_of_contents h.state h.ref h.clean h.whole h.contents hd

/-- The loop goes on to byte `c'`. -/
theorem Applied.advance {N' : ℕ → Node} {c' : ℕ} (h : Applied t₀ f ip i addr n T P Q L N c t)
    (le : c ≤ c') (state : FsState N' T P Q L u) (type : (N' i).type = (N i).type)
    (contents : Flat.of (u.vol.file i) = applied t₀ f i addr c' ∧ u.vol.Clean i)
    (whole : WholeChunks n c')
    (file : u.file = Function.update t.file f { t.file f with off := nextOff t₀ i f + c' })
    (user : u.vol.user = t.vol.user)
    (safe : Log.CrashSafe (fun d => Log.Recoverable t.vol.blk.bio.disk d ∨
      Log.Recoverable u.vol.blk.bio.disk d) t.vol.blk u.vol.blk) :
    Applied t₀ f ip i addr n T P Q L N' c' u := by
  have moved : u.file f = { t.file f with off := nextOff t₀ i f + c' } := by
    rw [file, Function.update_self]
  refine ⟨state, h.ref, type ▸ h.file, contents.2, whole, contents.1, by rw [moved], ?_,
    user.trans h.user, h.safe.trans (safe.imp fun d hd => hd.elim h.leaves
      (leaves_of_contents state h.ref contents.2 whole contents.1))⟩
  have size : (t.vol.file i).size = max (t₀.vol.file i).size (nextOff t₀ i f + c) :=
    congrArg Flat.size h.contents
  have size' : (u.vol.file i).size = max (t₀.vol.file i).size (nextOff t₀ i f + c') :=
    congrArg Flat.size contents.1
  have next : chunkOff (t.file f) (t.vol.file i).size = nextOff t₀ i f + c := h.next
  change chunkOff (u.file f) (u.vol.file i).size = _
  unfold chunkOff at next ⊢
  rw [moved]
  dsimp only
  split
  next app =>
    rw [if_pos app] at next
    omega
  next => rfl

/-- The whole buffer is mapped. -/
def FullyMapped (mem : UserMem) (addr : ℕ) (n : ℤ) : Prop := ∀ k : ℕ, (k : ℤ) < n → mem.byteAt (addr + k) ≠ none

theorem FullyMapped.src (h : FullyMapped t.vol.user addr n) (hc : (c : ℤ) < n) :
    u64 ((addr : ℤ) + c) = addr + c := by
  have low : addr + c < MAXVA := by
    by_contra high
    exact h c hc (if_pos (by omega))
  refine u64_of_small ?_ ?_
  · omega
  · have : (MAXVA : ℤ) ≤ 2 ^ 64 := by decide
    omega

theorem WholeChunks.next (h : WholeChunks n c) (more : (c : ℤ) < n) {n1 : ℕ}
    (hn : (n1 : ℤ) = chunkLen n c) : WholeChunks n (c + n1) := by
  obtain whole | ⟨-, whole⟩ := h
  · omega
  · unfold chunkLen at hn
    rcases min_cases (n - c) WRITE_MAX with ⟨all, -⟩ | ⟨some, less⟩
    · left
      omega
    · right
      rw [Nat.cast_add, hn, some]
      exact ⟨by omega, dvd_add whole (dvd_refl _)⟩

/-- A chunk of a mapped buffer is applied as a whole, or not at all. -/
theorem Applied.chunk {r : ℤ} {y : Node} {n1 : ℕ} (h : Applied t₀ f ip i addr n T P Q L N c t)
    (mapped : FullyMapped t₀.vol.user addr n) (hn : (n1 : ℤ) = chunkLen n c) (more : (c : ℤ) < n)
    (state : FsState (Function.update N i y) T P Q L u) (same : SameMeta (N i) y)
    (chunk : Chunked t.vol.user (u64 (addr + c)) (chunkOff (t.file f) (N i).size) n1 (N i) r y)
    (still : StillShows i (N i).size (chunkOff (t.file f) (N i).size) n1 t.vol u.vol)
    (safe : Log.CrashSafe (fun d => Log.Recoverable t.vol.blk.bio.disk d ∨
      Log.Recoverable u.vol.blk.bio.disk d) t.vol.blk u.vol.blk)
    (file : u.file = Function.update t.file f
      { t.file f with off := chunkOff (t.file f) (N i).size + r.toNat })
    (user : u.vol.user = t.vol.user) :
    r = -1 ∧ Applied t₀ f ip i addr n T P Q L (Function.update N i y) c u ∨
      r = n1 ∧ Applied t₀ f ip i addr n T P Q L (Function.update N i y) (c + n1) u := by
  have hiR := List.mem_append_left Q h.ref
  have used := (h.state.between.fsys.alloc hiR).2.2
  have self : Function.update N i y i = y := Function.update_self ..
  have used' : (Function.update N i y i).type ≠ 0 := by
    rw [self, same.type]
    exact used
  have size : (t.vol.file i).size = (N i).size :=
    (h.state.between.file (h.state.between.used_iff.mpr used)).2.2.1
  have size' : (u.vol.file i).size = y.size := by
    rw [(state.between.file (state.between.used_iff.mpr used')).2.2.1, self]
  have type : (Function.update N i y i).type = (N i).type := by rw [self, same.type]
  have here : chunkOff (t.file f) (N i).size = nextOff t₀ i f + c := by
    rw [← size]
    exact h.next
  have grown : (t.vol.file i).size = max (t₀.vol.file i).size (nextOff t₀ i f + c) :=
    congrArg Flat.size h.contents
  have mapped' : FullyMapped t.vol.user addr n := h.user ▸ mapped
  rw [here] at chunk still file
  rw [mapped'.src more] at chunk
  rcases chunk with ⟨rfl, range, rfl⟩ | ⟨inRange, ⟨rfl, w⟩ | ⟨-, bad, -⟩⟩
  · have old : ∀ q a, q < (t.vol.file i).size → t.vol.Shows i q a → u.vol.Shows i q a :=
      fun q a hq => still q a (Or.inl range) (size ▸ hq)
    obtain ⟨contents, clean⟩ := same_of_shows (size'.trans size.symm) old h.clean
    exact Or.inl ⟨rfl, h.advance (Nat.le_refl c) state type ⟨contents.trans h.contents, clean⟩ h.whole
      file user safe⟩
  · have new : ∀ j < n1, u.vol.Shows i (nextOff t₀ i f + c + j) (userBytes t₀.vol.user addr (c + j)) := by
      intro j hj
      refine state.between.shows ?_ used'
      rw [self, w.new j hj, h.user, userBytes, Nat.add_assoc]
      rfl
    obtain ⟨contents, clean⟩ := splice_of_shows (by rw [size', w.size, size]) new
      (by omega) (fun q a out hq => still q a (Or.inr out) (size ▸ hq)) h.clean
    rw [h.contents, applied, Flat.splice_splice] at contents
    refine Or.inr ⟨rfl, h.advance (Nat.le_add_right c n1) state type ⟨contents, clean⟩
      (h.whole.next more hn) ?_ user safe⟩
    rw [file, Int.toNat_natCast, Nat.add_assoc]
  · have upTo : (c : ℤ) + n1 ≤ n := by
      rw [hn]
      unfold chunkLen
      omega
    refine absurd (fun _ k m hkm => (UserMem.copyin_copied _ _ _).all.mpr fun j hj => ?_) bad
    have := mapped' (c + (k + j)) (by omega)
    rwa [Nat.add_assoc, Nat.add_assoc]

theorem fileWriteLoop_applies {fuel : ℕ} (h : Applied t₀ f ip i addr n T P Q L N c t)
    (mapped : FullyMapped t₀.vol.user addr n) :
    Comp.Sat (fileWriteLoop f ip addr n fuel c) t
      (fun _ u => Log.CrashSafe (LeavesChunks f i addr n t₀) t₀.vol.blk u.vol.blk)
      fun r u => ∃ N' k, r = (k : ℕ) ∧ Applied t₀ f ip i addr n T P Q L N' k u := by
  induction fuel generalizing N c t with
  | zero => exact .pure ⟨N, c, rfl, h⟩
  | succ fuel ih =>
    unfold fileWriteLoop
    refine .ite (fun more => ?_) fun _ => .pure ⟨N, c, rfl, h⟩
    have pos : 0 < chunkLen n c := lt_min (by omega) (by decide)
    obtain ⟨n1, hn⟩ : ∃ n1 : ℕ, (n1 : ℤ) = chunkLen n c := ⟨_, Int.toNat_of_nonneg pos.le⟩
    have clean : Log.Recoverable t.vol.blk.bio.disk t.vol.blk.bio.disk :=
      .of_clean h.state.between.clean fun _ _ => rfl
    have stop : ∀ w u, Stops True w u → Unwritten t u →
        Log.CrashSafe (LeavesChunks f i addr n t₀) t₀.vol.blk u.vol.blk :=
      fun w u _ quiet => h.safe.trans (.of_same (h.leaves clean) quiet.1 quiet.2)
    refine chunk_sat h.state h.ref h.file pos (min_le_right _ _) stop ?_
    intro r y u state same chunk _ still safe file user
    change (n1 : ℤ) = min (n - c) WRITE_MAX at hn
    rw [← hn] at chunk still ⊢
    rcases h.chunk mapped hn more state same chunk still safe file user with
      ⟨rfl, next⟩ | ⟨rfl, next⟩
    · exact .ite (fun _ => .pure ⟨_, c, rfl, next⟩) fun bad => absurd bad (by omega)
    · refine .ite (fun bad => absurd rfl bad) fun _ => ?_
      rw [← Nat.cast_add]
      exact ih next

theorem LeavesChunks.recovers {d : ℕ → Block} (h : LeavesChunks f i addr n t d) :
    ∃ k, WholeChunks n k ∧ (∃ v, Log.Recovers d v) ∧
      ∀ v, Log.Recovers d v → Flat.of (fileOn v.bio.disk i) = applied t f i addr k := by
  obtain ⟨k, D, whole, hd, contents⟩ := h
  exact ⟨k, whole, hd.returns, fun v r => contents _ (hd.disk r)⟩

/-- The call before its loop. -/
theorem Applied.start (h : FsState N T P Q L t) (hi : (ip, i) ∈ P) (file : (N i).type ≠ T_DIR)
    (nonneg : 0 ≤ n) (inside : nextOff t i f ≤ (t.vol.file i).size) (clean : t.vol.Clean i)
    (hu : FsState N T P Q L u) (look : Looked L t.vol u.vol) (quiet : Unwritten t u)
    (off : (u.file f).off = nextOff t i f) (next : ∀ size, (u.vol.file i).size = size →
      size = (t.vol.file i).size → chunkOff (u.file f) size = nextOff t i f)
    (user : u.vol.user = t.vol.user) : Applied t f ip i addr n T P Q L N 0 u := by
  have hiR := List.mem_append_left Q hi
  have hL := h.held _ hi
  have used := (h.between.fsys.alloc hiR).2.2
  have size : (u.vol.file i).size = (t.vol.file i).size := by
    rw [(h.between.file (h.between.used_iff.mpr used)).2.2.1,
      (hu.between.file (hu.between.used_iff.mpr used)).2.2.1]
  have shows' : ∀ q a, t.vol.Shows i q a → u.vol.Shows i q a :=
    fun q a => h.between.fsys.shows_looked hiR hL hu.between.fsys hiR hL look
  obtain ⟨contents, clean'⟩ := same_of_shows size (fun q a _ => shows' q a) clean
  have whole : WholeChunks n 0 := Or.inr ⟨nonneg, dvd_zero _⟩
  have none : Flat.of (t.vol.file i) = applied t f i addr 0 := (Flat.splice_zero inside).symm
  have safe : LeavesChunks f i addr n t t.vol.blk.bio.disk :=
    leaves_of_contents h hi clean whole none (.of_clean h.between.clean fun _ _ => rfl)
  exact ⟨hu, hi, file, clean', whole, contents.trans none, off, next _ rfl size, user,
    .of_same safe quiet.1 quiet.2⟩

theorem fileWrite_applies (h : FsState N T P Q L t) (live : 0 < (t.file f).ref)
    (slot : (t.file f).ip = some ip) (hi : (ip, i) ∈ P) (writable : (t.file f).writable = true)
    (nonneg : 0 ≤ n) (inside : nextOff t i f ≤ (t.vol.file i).size) (clean : t.vol.Clean i)
    (mapped : FullyMapped t.vol.user addr n) : AppliesChunks f i addr n t := by
  obtain ⟨type, jp, j, slot', hj, hL, notDir⟩ := h.slot live
  obtain rfl : jp = ip := Option.some.inj (slot'.symm.trans slot)
  obtain rfl : j = i := h.between.fsys.inum_eq (List.mem_append_left Q hj) (List.mem_append_left Q hi)
  have spec : Comp.Sat (fileWrite f addr n) t
      (fun _ u => Log.CrashSafe (LeavesChunks f j addr n t) t.vol.blk u.vol.blk)
      fun r u => ∃ N', ∃ k : ℕ, (r = n ∧ (k : ℤ) = n ∨ r = -1) ∧ Applied t f jp j addr n T P Q L N' k u := by
    unfold fileWrite
    refine .get (.ite (fun no => absurd no (by rw [writable]; decide)) fun _ =>
      .ite (fun _ => ?_) fun bad => absurd type bad)
    refine .call (inodeOf_sat slot) ?_
    rintro jp' t' ⟨same, same'⟩
    rw [same, same']
    refine .call (P := fun _ u => Applied t f jp j addr n T P Q L N 0 u) (.ite (fun app => ?_) fun fixed =>
      .pure ?_) ?_
    · have seek := (seekEnd_keeps (E := fun _ _ => False) (f := f) h hi).always (seekEnd_silent f jp)
      refine seek.imp (fun _ _ no => no.1.elim) ?_
      rintro _ u ⟨⟨hu, wrote, look, off⟩, quiet⟩
      have size := (h.between.file (h.between.used_iff.mpr (h.between.fsys.alloc
        (List.mem_append_left Q hi)).2.2)).2.2.1
      have here : nextOff t j f = (t.vol.file j).size := chunkOff_append app _
      refine .start h hi (notDir writable) nonneg inside clean hu look quiet (off.trans (size.symm.trans here.symm)) (fun k _ hk => ?_) wrote.user
      rw [here, ← hk]
      refine chunkOff_append ?_ k
      rw [wrote.file.self]
      exact app
    · have here : nextOff t j f = (t.file f).off := if_neg (by simpa using fixed)
      exact .start h hi (notDir writable) nonneg inside clean h (.refl L _) (.refl t) here.symm
        (fun k _ hk => hk ▸ rfl) rfl
    rintro _ u start
    refine .call (fileWriteLoop_applies start mapped) ?_
    rintro r v ⟨N', k, rfl, done⟩
    refine .pure ⟨N', k, ?_, done⟩
    split
    next all => exact Or.inl ⟨rfl, all⟩
    next => exact Or.inr rfl
  have safe : Log.CrashSafe (LeavesChunks f j addr n t) t.vol.blk ((fileWrite f addr n).run t).state.vol.blk := by
    cases hr : (fileWrite f addr n).run t with
    | ok r u =>
      obtain ⟨_, _, _, done⟩ := spec.ok hr
      exact done.safe
    | halt w u => exact spec.halted hr
  refine ⟨?_, fun r u hr => ?_⟩
  · obtain ⟨ws, issued, all⟩ := safe
    refine ⟨ws, issued.issued, fun done hd => ?_⟩
    rw [List.prefix_iff_eq_take.mp hd]
    exact (all _).recovers
  · obtain ⟨N', k, ret, done⟩ := spec.ok hr
    have used := (done.state.between.fsys.alloc (List.mem_append_left Q hi)).2.2
    exact ⟨k, done.whole, ret, done.contents,
      (Between.fileOn_eq done.state.between used done.clean fun _ _ => rfl).trans done.contents, done.off⟩

/-- A write of no bytes, cut off at once, shows what the disk has of the file. -/
theorem clean_of_applies (h : FsState N T P Q L t) (hi : (ip, i) ∈ P)
    (inside : nextOff t i f ≤ (t.vol.file i).size) (all : AppliesChunks f i addr 0 t) :
    t.vol.Clean i := by
  have used := (h.between.fsys.alloc (List.mem_append_left Q hi)).2.2
  obtain ⟨ws, -, crash⟩ := all.crash
  obtain ⟨k, whole, ⟨v, hv⟩, contents⟩ := crash [] List.nil_prefix
  have zero : k = 0 := by
    rcases whole with all | ⟨upTo, -⟩
    · exact Int.natCast_eq_zero.mp all
    · omega
  have clean : Log.Recoverable t.vol.blk.bio.disk t.vol.blk.bio.disk :=
    .of_clean h.between.clean fun _ _ => rfl
  have eq := contents v hv
  rw [zero, applied, Flat.splice_zero inside] at eq
  exact Between.clean_of_fileOn h.between used (clean.disk hv) (congrArg Flat.byte eq)

end Loop

section Run

variable {Ly : Layout} {s : System} {tr : List (Event × System)} {f : Fin NFILE} {ip : Fin NINODE}

/-- Every write through an open file applies whole chunks exactly when each byte of the file is the same
    in the cache and on the disk, so that no write that failed part way has left its bytes in a buffer. -/
theorem write_applies_chunks (start : Started s) (run : Along (Step Ly) s tr)
    (live : 0 < ((final s tr).files.file f).ref) (slot : ((final s tr).files.file f).ip = some ip)
    (writable : ((final s tr).files.file f).writable = true)
    (place : ((final s tr).files.file f).append = true ∨ ((final s tr).files.file f).off ≤
      ((final s tr).files.vol.file ((final s tr).files.vol.inode ip).inum).size) :
    (∀ mem addr n, 0 ≤ n → FullyMapped mem addr n →
      AppliesChunks f ((final s tr).files.vol.inode ip).inum addr n ((final s tr).files.withUser mem)) ↔
    (final s tr).files.vol.Clean ((final s tr).files.vol.inode ip).inum := by
  obtain ⟨N, T, P, Q, L, hs⟩ := (start.run run).fs
  obtain ⟨-, jp, i, slot', hi, -⟩ := hs.slot live
  obtain rfl : jp = ip := Option.some.inj (slot'.symm.trans slot)
  rw [hs.between.fsys.inum (List.mem_append_left Q hi)] at place ⊢
  have inside : nextOff (final s tr).files i f ≤ ((final s tr).files.vol.file i).size := by
    unfold nextOff chunkOff
    split
    next => exact Nat.le_refl _
    next fixed => exact place.resolve_left fixed
  constructor
  · intro all
    exact clean_of_applies hs hi inside
      (all (final s tr).files.vol.user 0 0 (Int.le_refl 0) fun k hk => absurd hk (by omega))
  · intro clean mem addr n nonneg mapped
    exact fileWrite_applies (hs.user mem) live slot hi writable nonneg inside
      (fun q hq => (clean q hq).imp fun a hs => ⟨hs.view, hs.disk⟩) mapped

end Run

section Example

theorem write_applies_chunks_new :
    (∀ mem addr n, 0 ≤ n → FullyMapped mem addr n →
      AppliesChunks 0 (exampleAppend.state.files.vol.inode 1).inum addr n
        (exampleAppend.state.files.withUser mem)) ↔
    exampleAppend.state.files.vol.Clean (exampleAppend.state.files.vol.inode 1).inum := by
  have one := exampleAppend_one
  exact write_applies_chunks exampleSystem_started exampleAppend_opened (one.live 0 rfl) (one.slot 0 rfl)
    (by decide +kernel) (Or.inl (by decide +kernel))

/-- The process makes the file `/a`, writes two bytes to it, and opens it again. -/
def exampleNew : Outcome System ℤ :=
  (sysOpen proczero 0 (O_CREATE ||| O_RDWR)).run (exampleSystem.withUser (stringMem [SLASH, 97]))

def exampleFilled : Outcome System ℤ :=
  (sysWrite proczero 0 0 2).run (exampleNew.state.withUser (stringMem [97, 98]))

def exampleAgain : Outcome System ℤ :=
  (sysOpen proczero 0 O_RDWR).run (exampleFilled.state.withUser (stringMem [SLASH, 97]))

/-- A memory of one page. -/
def pageMem (a : UInt8) : UserMem := fun va => if va = 0 then some fun _ => a else none

/-- A write of the last byte of the page and of one that is not mapped. -/
def exampleTorn : Outcome System ℤ :=
  (sysWrite proczero 1 4095 2).run (exampleAgain.state.withUser (pageMem 99))

theorem exampleTorn_values : exampleNew.value = some 0 ∧ exampleFilled.value = some 2 ∧
    exampleAgain.value = some 1 ∧ exampleTorn.value = some (-1) ∧
    (exampleNew.state.kernel.proc proczero).state = .running ∧
    (exampleFilled.state.kernel.proc proczero).state = .running ∧
    (exampleAgain.state.kernel.proc proczero).state = .running := by
  decide +kernel

theorem exampleTorn_run : Along (Step exampleLayout) exampleSystem
    [(.call proczero (stringMem [SLASH, 97]) (.open 0 (O_CREATE ||| O_RDWR)) 0, exampleNew.state),
      (.call proczero (stringMem [97, 98]) (.write 0 0 2) 2, exampleFilled.state),
      (.call proczero (stringMem [SLASH, 97]) (.open 0 O_RDWR) 1, exampleAgain.state),
      (.call proczero (pageMem 99) (.write 1 4095 2) (-1), exampleTorn.state)] := by
  obtain ⟨new, filled, again, torn, run₁, run₂, run₃⟩ := exampleTorn_values
  exact ⟨.call rfl (Outcome.eq_ok new), .call run₁ (Outcome.eq_ok filled),
    .call run₂ (Outcome.eq_ok again), .call run₃ (Outcome.eq_ok torn), trivial⟩

/-- The byte that the failed write has put into the buffer is read from the file, and a crash loses it. -/
theorem failed_write_shows : 0 < (exampleTorn.state.files.file 1).ref ∧
    (exampleTorn.state.files.file 1).ip = some 1 ∧ (exampleTorn.state.files.file 1).writable = true ∧
    (exampleTorn.state.files.file 1).off ≤ (exampleTorn.state.files.vol.file 2).size ∧
    (exampleTorn.state.files.vol.inode 1).inum = 2 ∧
    (exampleTorn.state.files.vol.file 2).byte 0 = some 99 ∧
    (fileOn exampleTorn.state.files.vol.blk.bio.disk 2).byte 0 = some 97 ∧
    ¬ AppliesChunks 1 2 0 0 exampleTorn.state.files := by
  have facts : (exampleTorn.state.files.file 1).ref = 1 ∧ (exampleTorn.state.files.file 1).ip = some 1 ∧
      (exampleTorn.state.files.file 1).writable = true ∧ (exampleTorn.state.files.file 1).off = 0 ∧
      (exampleTorn.state.files.file 1).append = false ∧ (exampleTorn.state.files.vol.inode 1).inum = 2 ∧
      (exampleTorn.state.files.vol.file 2).byte 0 = some 99 ∧
      (fileOn exampleTorn.state.files.vol.blk.bio.disk 2).byte 0 = some 97 := by
    decide +kernel
  obtain ⟨ref, slot, writable, off, fixed, inum, cached, stored⟩ := facts
  have live : 0 < (exampleTorn.state.files.file 1).ref := by
    rw [ref]
    decide
  refine ⟨live, slot, writable, by rw [off]; exact Nat.zero_le _, inum, cached, stored,
    fun all => ?_⟩
  obtain ⟨N, T, P, Q, L, hs⟩ := (exampleSystem_started.run exampleTorn_run).fs
  obtain ⟨-, jp, i, slot', hi, -⟩ := hs.slot live
  obtain rfl : jp = 1 := Option.some.inj (slot'.symm.trans slot)
  obtain rfl : i = 2 := (hs.between.fsys.inum (List.mem_append_left Q hi)).symm.trans inum
  have inside : nextOff exampleTorn.state.files 2 1 ≤ (exampleTorn.state.files.vol.file 2).size := by
    rw [nextOff, chunkOff, fixed, off]
    exact Nat.zero_le _
  have clean := clean_of_applies hs hi inside all
  have used := (hs.between.fsys.alloc (List.mem_append_left Q hi)).2.2
  have same := Between.fileOn_eq hs.between used clean fun _ _ => rfl
  have byte : (fileOn exampleTorn.state.files.vol.blk.bio.disk 2).byte 0 =
      (exampleTorn.state.files.vol.file 2).byte 0 := congrArg (fun x : Flat => x.byte 0) same
  rw [cached, stored] at byte
  exact absurd byte (by decide)

end Example

end EasyXv6.Sys
