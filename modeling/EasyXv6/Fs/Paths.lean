import EasyXv6.Fs.Between

set_option autoImplicit false

/-!
# What a path resolves to

The names in a path are looked up one after another from the root on.
-/
namespace EasyXv6.Fs
open Lib

/-- The names in a path: its longest runs of bytes other than '/', each cut to the bytes that a
    directory entry has room for. -/
def names (path : List UInt8) : List (List UInt8) :=
  ((path.splitOn SLASH).filter (· ≠ [])).map (·.take (DIRSIZ - 1))

/-- Look up one name in the directory `i`. -/
def lookIn (T : Dirs) (i : ℕ) (name : List UInt8) : Option ℕ :=
  (T i).bind fun x => (lookup (entries i x) name).map Prod.fst

/-- What the names lead to from the inode `i`. -/
def reach (T : Dirs) (i : ℕ) (ns : List (List UInt8)) : Option ℕ := ns.foldlM (lookIn T) i

/-- The directory that all names but the last lead to from the root, and the last name. -/
def parentOf (T : Dirs) (ns : List (List UInt8)) : Option (ℕ × List UInt8) :=
  ns.getLast?.bind fun name =>
    (reach T ROOTINO ns.dropLast).bind fun d => (T d).map fun _ => (d, name)

section Names

variable {path run rest : List UInt8}

theorem names_append_slash (run rest : List UInt8) :
    names (run ++ SLASH :: rest) = names run ++ names rest := by
  unfold names
  rw [List.splitOn_append_cons_self, List.filter_append, List.map_append]

theorem names_slash (rest : List UInt8) : names (SLASH :: rest) = names rest :=
  names_append_slash [] rest

theorem names_run (hne : run ≠ []) (pure : SLASH ∉ run) : names run = [run.take (DIRSIZ - 1)] := by
  unfold names
  rw [List.splitOn_eq_singleton pure]
  simp [hne]

/-- Leading slashes are no part of a name. -/
theorem names_dropWhile (path : List UInt8) : names (path.dropWhile (· = SLASH)) = names path := by
  induction path with
  | nil => rfl
  | cons c path ih =>
    by_cases hc : c = SLASH
    · rw [List.dropWhile_cons_of_pos (by simpa using hc), ih, hc, names_slash]
    · rw [List.dropWhile_cons_of_neg (by simpa using hc)]

/-- What follows a run of other bytes is empty or starts with a slash. -/
theorem names_takeWhile {s : List UInt8} (hne : s.takeWhile (· ≠ SLASH) ≠ []) :
    names s = (s.takeWhile (· ≠ SLASH)).take (DIRSIZ - 1) :: names (s.dropWhile (· ≠ SLASH)) := by
  have pure : SLASH ∉ s.takeWhile (· ≠ SLASH) := fun h => by simpa using List.mem_takeWhile_imp h
  conv_lhs => rw [← List.takeWhile_append_dropWhile (p := (· ≠ SLASH)) (l := s)]
  cases hrest : s.dropWhile (· ≠ SLASH) with
  | nil => rw [List.append_nil, names_run hne pure]; rfl
  | cons c rest =>
    have head := List.head?_dropWhile_not (p := (· ≠ SLASH)) s
    rw [hrest] at head
    have hc : c = SLASH := by simpa using head
    rw [hc, names_append_slash, names_run hne pure, names_slash]
    rfl

/-- Repeated `skipelem` gives the names in order. -/
theorem elements_eq (path : List UInt8) : elements path = names path := by
  induction path using elements.induct with
  | case1 path stop =>
    rw [elements_none stop, ← names_dropWhile]
    unfold skipelem at stop
    dsimp only at stop
    split at stop
    next none => rw [none]; rfl
    next => cases stop
  | case2 path rest name next ih =>
    rw [elements_some next, ih, ← names_dropWhile path]
    unfold skipelem at next
    dsimp only at next
    split at next
    · cases next
    next start =>
      cases next
      have head := List.head_dropWhile_not (p := (· = SLASH)) start
      have run : (path.dropWhile (· = SLASH)).takeWhile (· ≠ SLASH) ≠ [] := by
        obtain ⟨c, cs, hs⟩ := List.exists_cons_of_ne_nil start
        rw [hs, List.takeWhile_cons_of_pos]
        · exact nofun
        · simpa [hs] using head
      rw [names_takeWhile run, names_dropWhile]

theorem skipelem_sub {name : List UInt8} (h : skipelem path = some (rest, name)) :
    (∀ c ∈ name, c ∈ path) ∧ (∀ c ∈ rest, c ∈ path) ∧ name.length < DIRSIZ := by
  unfold skipelem at h
  dsimp only at h
  split at h
  · cases h
  cases h
  have sub := List.dropWhile_sublist (p := (· = SLASH)) (l := path)
  refine ⟨fun c hc => ?_, fun c hc => ?_, ?_⟩
  · exact sub.subset ((List.takeWhile_sublist _).subset (List.mem_of_mem_take hc))
  · exact sub.subset ((List.dropWhile_sublist _).subset ((List.dropWhile_sublist _).subset hc))
  · rw [List.length_take]
    exact Nat.lt_of_le_of_lt (Nat.min_le_left _ _) (by decide)

/-- The names of a path without NUL are what a directory entry holds of them. -/
theorem key_of_mem {name : List UInt8} (nul : 0 ∉ path) (h : name ∈ elements path) :
    key name = name := by
  induction path using elements.induct with
  | case1 path stop =>
    rw [elements_none stop] at h
    cases h
  | case2 path rest first next ih =>
    obtain ⟨inName, inRest, short⟩ := skipelem_sub next
    rw [elements_some next] at h
    rcases List.mem_cons.mp h with rfl | h
    · refine cstr_eq short (fun k hk => ?_) (fun c hc h0 => nul (h0 ▸ inName c hc)) ?_
      · simp [nameOf, hk]
      · simp [nameOf]
    · exact ih (fun h0 => nul (inRest 0 h0)) h

end Names

section Walk

variable {T : Dirs} {i : ℕ} {ns : List (List UInt8)}

theorem walk_false (keys : ∀ name ∈ ns, key name = name) :
    (walk T false i ns).map Prod.fst = reach T i ns := by
  induction ns generalizing i with
  | nil => rfl
  | cons name ns ih =>
    unfold walk reach lookIn
    rw [List.foldlM_cons]
    cases hi : T i with
    | none => rfl
    | some x =>
      dsimp only [Option.bind_some]
      rw [if_neg (by simp), keys name List.mem_cons_self]
      cases lookup (entries i x) name with
      | none => rfl
      | some jm => exact ih fun nm hm => keys nm (List.mem_cons_of_mem _ hm)

theorem walk_true (keys : ∀ name ∈ ns, key name = name) : walk T true i ns =
    ns.getLast?.bind fun name => (reach T i ns.dropLast).bind fun d => (T d).map fun _ => (d, name) := by
  induction ns generalizing i with
  | nil => rfl
  | cons name ns ih =>
    unfold walk
    cases ns with
    | nil =>
      cases hi : T i with
      | none => simp [reach, hi]
      | some x => simp [reach, hi]
    | cons next ns =>
      have rest := fun j => @ih j fun nm hm => keys nm (List.mem_cons_of_mem _ hm)
      rw [List.getLast?_cons_cons, List.dropLast_cons_cons]
      unfold reach at rest ⊢
      rw [List.foldlM_cons]
      unfold lookIn at rest ⊢
      cases hi : T i with
      | none => simp
      | some x =>
        dsimp only [Option.bind_some]
        rw [if_neg (by simp), keys name List.mem_cons_self]
        cases lookup (entries i x) name with
        | none => simp
        | some jm => exact rest jm.1

end Walk

namespace Vol

/-- What `create` and `sys_unlink` do with a path: its last name in its parent directory. -/
def lookLast (path : List UInt8) : Comp Vol (Option (Fin NINODE)) := do
  match ← nameiparent path with
  | none => return none
  | some (dp, name) =>
    ilock dp
    let r ← dirlookup dp name
    return r.map Prod.fst

/-- The number of the inode in a slot. -/
abbrev inumOf (s : Vol) (ip : Fin NINODE) : ℕ := (s.inode ip).inum

variable {o : ℤ} {k : ℕ} {N : ℕ → Node} {R : List Ref} {L : List (Fin NINODE)} {s : Vol} {T : Dirs}
  {path : List UInt8}

/-- The panics of a walk: no slot is free for the next inode. -/
abbrev NoSlot (R : List Ref) : String → Vol → Prop := Limit (used R + 2) False

theorem namei_resolves (h : Fsys o k N R L s) (tree : Tree [] N T) (nul : 0 ∉ path) :
    Comp.Sat (namei path) s (NoSlot R) fun r s' =>
      r.map s'.inumOf = reach T ROOTINO (names path) := by
  refine (namei_sat tree (Nat.zero_le 3) (fun jp hj => (h.refs.loaded jp hj).1) (Nat.le_refl _)
    h).post ?_
  rw [← elements_eq, ← walk_false fun name hn => key_of_mem nul hn]
  rintro (_ | jp) t ⟨-, rp, ht⟩
  · rw [ht.1]
    rfl
  · obtain ⟨j, name, found, -, ht⟩ := ht
    rw [found, Option.map_some, Option.map_some]
    exact congrArg some (ht.inum List.mem_cons_self)

theorem nameiparent_resolves (h : Fsys o k N R L s) (tree : Tree [] N T) (nul : 0 ∉ path) :
    Comp.Sat (nameiparent path) s (NoSlot R) fun r s' =>
      r.map (fun x => (s'.inumOf x.1, x.2)) = parentOf T (names path) := by
  refine (namex_sat tree (Nat.zero_le 3) (fun jp hj => (h.refs.loaded jp hj).1) (Nat.le_refl _)
    h).post ?_
  unfold parentOf
  rw [← elements_eq, ← walk_true fun name hn => key_of_mem nul hn]
  rintro (_ | ⟨jp, name⟩) t ⟨-, rp, ht⟩
  · rw [ht.1]
    rfl
  · obtain ⟨j, found, -, ht⟩ := ht
    rw [found, Option.map_some]
    exact congrArg (fun i => some (i, name)) (ht.inum List.mem_cons_self)

/-- The last name looked up in the parent is what the whole path leads to. -/
theorem reach_parentOf {ns : List (List UInt8)} (hne : ns ≠ []) :
    reach T ROOTINO ns = (parentOf T ns).bind fun x => lookIn T x.1 x.2 := by
  obtain ⟨init, last, rfl⟩ := List.eq_nil_or_concat ns |>.resolve_left hne
  unfold parentOf reach
  simp only [List.concat_eq_append, List.foldlM_append, List.getLast?_append, List.getLast?_singleton,
    Option.some_or, Option.bind_some, List.dropLast_concat, List.foldlM_cons, List.foldlM_nil,
    bind_pure, Option.bind_assoc]
  refine congrArg (Option.bind _) (funext fun d => ?_)
  unfold lookIn
  cases hd : T d with
  | none => rfl
  | some x => simp [hd]

theorem lookLast_resolves (h : Fsys o k N R L s) (tree : Tree [] N T) (nul : 0 ∉ path)
    (hne : names path ≠ []) : Comp.Sat (lookLast path) s (NoSlot R) fun r s' =>
      r.map s'.inumOf = reach T ROOTINO (names path) := by
  rw [reach_parentOf hne]
  unfold parentOf
  rw [← elements_eq, ← walk_true fun name hn => key_of_mem nul hn]
  unfold lookLast
  refine .call (namex_sat tree (Nat.zero_le 3) (fun jp hj => (h.refs.loaded jp hj).1)
    (Nat.le_refl _) h) ?_
  rintro (_ | ⟨dp, name⟩) t ⟨-, rp, ht⟩
  · rw [ht.1]
    exact .pure rfl
  obtain ⟨d, found, -, ht⟩ := ht
  obtain ⟨x, hd⟩ := walk_parent found
  rw [found, Option.bind_some]
  have short : key name = name := by
    rw [walk_true fun name hn => key_of_mem nul hn] at found
    obtain ⟨last, hlast, found⟩ := Option.bind_eq_some_iff.mp found
    obtain ⟨d', -, found⟩ := Option.bind_eq_some_iff.mp found
    obtain ⟨x', -, found⟩ := Option.map_eq_some_iff.mp found
    cases found
    exact key_of_mem nul (List.mem_of_getLast? hlast)
  have dir := tree.dir d x hd
  refine .call (ilock_sat ht List.mem_cons_self) ?_
  rintro _ u ⟨hu, -, -⟩
  have room : used ((dp, d) :: (leak rp path ++ R)) ≤ used R + 2 := by
    have := used_cons_le (dp, d) (leak rp path ++ R)
    have := used_append_le (leak rp path) R
    have := leak_length_le rp path
    omega
  refine .call (dirlookup_sat hu List.mem_cons_self List.mem_cons_self dir.1 dir.2 (tree.named hd)
    room) ?_
  have look : lookIn T d name = (lookup (entries d x) (key name)).map Prod.fst := by
    rw [lookIn, hd, short]
    rfl
  rw [look]
  rintro (_ | ⟨jp, off⟩) v hv
  · refine .pure ?_
    rw [show lookup (entries d x) (key name) = none from hv.1]
    rfl
  · obtain ⟨j, m, hfound, -, hv, -⟩ := hv
    refine .pure ?_
    rw [show lookup (entries d x) (key name) = some (j, m) from hfound]
    exact congrArg some (hv.inum List.mem_cons_self)

/-- Path resolution. A walk returns unless no slot of the cache of inodes is free. -/
theorem path_resolution (h : Fsys o k N R L s) (tree : Tree [] N T) (nul : 0 ∉ path) :
    elements path = names path ∧
    Comp.Sat (namei path) s (NoSlot R)
      (fun r s' => r.map s'.inumOf = reach T ROOTINO (names path)) ∧
    Comp.Sat (nameiparent path) s (NoSlot R)
      (fun r s' => r.map (fun x => (s'.inumOf x.1, x.2)) = parentOf T (names path)) ∧
    (names path ≠ [] → Comp.Sat (lookLast path) s (NoSlot R)
      (fun r s' => r.map s'.inumOf = reach T ROOTINO (names path)) ∧
      ∀ r t r' t', (namei path).run s = .ok r t → (lookLast path).run s = .ok r' t' →
        r.map t.inumOf = r'.map t'.inumOf) := by
  refine ⟨elements_eq path, namei_resolves h tree nul, nameiparent_resolves h tree nul,
    fun hne => ⟨lookLast_resolves h tree nul hne, ?_⟩⟩
  intro r t r' t' run run'
  exact ((namei_resolves h tree nul).ok run).trans ((lookLast_resolves h tree nul hne).ok run').symm

/-- The path "/a//b/" on an empty file system. -/
theorem path_resolution_empty : elements [47, 97, 47, 47, 98, 47] = [[97], [98]] ∧
    Comp.Sat (namei [47, 97, 47, 47, 98, 47]) (ofDisk emptyDisk) (NoSlot []) fun r _ => r = none := by
  obtain ⟨N, between, world⟩ := (ofDisk_mounted emptyDisk_formatted).between
  obtain ⟨names', walk, -, -⟩ := path_resolution between.fsys world.tree
    (show (0 : UInt8) ∉ [47, 97, 47, 47, 98, 47] by decide)
  have two : names [47, 97, 47, 47, 98, 47] = [[97], [98]] := by decide
  refine ⟨names'.trans two, walk.post fun r t hr => ?_⟩
  have stop : reach rootTree ROOTINO (names [47, 97, 47, 47, 98, 47]) = none := by
    rw [two]
    decide
  rw [stop] at hr
  exact Option.map_eq_none_iff.mp hr

end Vol

end EasyXv6.Fs
