import EasyXv6.Fs.Linked
import EasyXv6.Sys.Ownership

set_option autoImplicit false

/-!
# The life of an inode

An inode lives as long as it has a name or a reference. With the last of them go all its blocks.
-/
namespace EasyXv6.Sys
open Lib Mem Proc Fs Vol

variable {N N' : ℕ → Node} {T : Dirs} {P Q R R' : List Ref} {L L' : List (Fin NINODE)} {s : System}
  {t : Files} {u v : Vol} {ip : Fin NINODE} {i k b : ℕ} {f : Fin NFILE} {tr : List (Event × System)}
  {Ly : Layout}

/-- No linked directory has an entry for the inode. -/
def Nameless (v : Vol) (i : ℕ) : Prop := ∀ d m name, v.LinkedDir d → ¬ v.Entry d m i name

/-- Open files and names keep inodes alive, and nothing else does. -/
structure InodesLive (t : Files) : Prop where
  opened : ∀ f, 0 < (t.file f).ref → (t.file f).type = .inode → ∃ ip, (t.file f).ip = some ip ∧
    0 < (t.vol.inode ip).ref ∧ t.vol.Used (t.vol.inode ip).inum ∧
      (t.vol.onDisk (t.vol.inode ip).inum).type ≠ 0
  blocks : ∀ i k, t.vol.Used i → k < NREF → t.vol.pointer i k ≠ 0 → t.vol.InUse (t.vol.pointer i k)
  slot : ∀ ip jp, 0 < (t.vol.inode ip).ref → 0 < (t.vol.inode jp).ref →
    (t.vol.inode ip).dev = (t.vol.inode jp).dev → (t.vol.inode ip).inum = (t.vol.inode jp).inum → ip = jp
  nameless : ∀ i, Nameless t.vol i →
    (t.vol.Used i ↔ ∃ ip, 0 < (t.vol.inode ip).ref ∧ (t.vol.inode ip).inum = i)

/-- Where an inode has come to its end, all its blocks have been freed. -/
def Reclaims (u v : Vol) : Prop := ∀ i, u.Used i → ¬ v.Used i → ∀ k < NREF, u.pointer i k ≠ 0 →
  ¬ v.InUse (u.pointer i k)

/-- A transaction in which `create` has got the new inode in the slot `ip` from `ialloc`. -/
structure Allocates (u : Vol) (ip : Fin NINODE) (v : Vol) : Prop where
  run : ∃ path dp name type u₁ u₂, (type = T_DIR ∨ type = T_FILE) ∧
    (beginOp >>= fun _ => nameiparent path).run u = .ok (some (dp, name)) u₁ ∧
    (ilock dp >>= fun _ => dirlookup dp name).run u₁ = .ok none u₂ ∧
    (ialloc (u₂.inode dp).dev type).run u₂ = .ok ip v

section States

theorem Tree.nameless {s : Vol} (h : Between N R L s) (tree : Tree [] N T) (none : Nameless s i) :
    T.links i = 0 := by
  by_contra pos
  rcases tree.wf.links_cases (Nat.pos_of_ne_zero pos) with hd | ⟨d, x, hx, used⟩
  · obtain ⟨x, hx⟩ := Option.ne_none_iff_exists'.mp hd
    exact none i 0 DOT ((h.linkedDir_iff tree).mpr hd) ((h.entry_iff tree hx).mpr rfl)
  · obtain ⟨name, mem⟩ := uses_pos.mp used
    obtain ⟨m, slot⟩ := List.mem_iff_getElem?.mp mem
    have linked : s.LinkedDir d := (h.linkedDir_iff tree).mpr (by rw [hx]; exact nofun)
    exact none d (m + 2) name linked ((h.entry_iff tree hx).mpr slot)

theorem FsState.inodesLive (h : FsState N T P Q L t) : InodesLive t := by
  have refs := h.between.fsys.refs
  have live : ∀ {ip i}, (ip, i) ∈ P ++ Q → 0 < (t.vol.inode ip).ref ∧ (t.vol.inode ip).inum = i ∧
      t.vol.Used i := by
    intro ip i hi
    exact ⟨refs.live (mem_slots hi), refs.inum _ hi,
      h.between.used_iff.mpr (h.between.fsys.alloc hi).2.2⟩
  refine ⟨fun f hf _ => ?_, fun i k used hk hp =>
    ((Between.exclusive h.between).own i k used hk hp).2.2, fun ip jp hi hj _ same => ?_,
    fun i none => ⟨fun used => ?_, ?_⟩⟩
  · obtain ⟨-, ip, i, slot, mem, -⟩ := h.slot hf
    obtain ⟨ref, inum, used⟩ := live (List.mem_append_left Q mem)
    have alloc := h.between.fsys.alloc (List.mem_append_left Q mem)
    refine ⟨ip, slot, ref, by rwa [inum], ?_⟩
    rw [inum, h.between.type_onDisk alloc.1 alloc.2.1]
    exact alloc.2.2
  · have first := refs.mem hi
    have second := refs.mem hj
    rw [← same] at second
    exact h.between.fsys.slot_eq first second
  · rcases h.world.live i (h.between.used_iff.mp used) with linked | ⟨ip, -, mem⟩
    · rw [Tree.nameless h.between h.world.tree none] at linked
      exact absurd linked (Nat.lt_irrefl 0)
    · exact ⟨ip, (live mem).1, (live mem).2.1⟩
  · rintro ⟨ip, ref, rfl⟩
    exact (live (refs.mem ref)).2.2

end States

section Ends

/-- The pointers of an inode that the kernel has loaded. -/
theorem Between.owns (h : Between N R L v) (hl : Loaded v ip) (hk : k < NREF)
    (hp : v.pointer (v.inode ip).inum k ≠ 0) : Owns v ip (v.pointer (v.inode ip).inum k) := by
  obtain ⟨V, D, at', -⟩ := h.at0
  have alloc := at'.alloc hl
  rw [at'.pointer_eq alloc] at hp ⊢
  exact (at'.owns_iff hl).mpr ⟨hp, k, hk, rfl⟩

/-- An inode that has been used and is no more. -/
theorem Between.ended (h : Between N R L u) (h' : Between N' R' L' v) (used : u.Used i)
    (free : ¬ v.Used i) : (N i).type ≠ 0 ∧ (N' i).type = 0 := by
  rw [h.used_iff] at used
  rw [h'.used_iff, not_not] at free
  exact ⟨used, free⟩

/-- A slot that was loaded since holds what the inode was. -/
theorem Between.owns_looked (h : Between N R (loadedSlots u) u) (look : Looked (loadedSlots u) u.begun v)
    (loaded : Loaded v ip) (sole : Sole u ip (v.inode ip).inum) (used : u.Used (v.inode ip).inum)
    (hk : k < NREF) (hp : u.pointer (v.inode ip).inum k ≠ 0) :
    Owns v ip (u.pointer (v.inode ip).inum k) := by
  by_cases old : Loaded u ip ∧ (u.inode ip).inum = (v.inode ip).inum
  · obtain ⟨hl, same⟩ := old
    have owns := look.owns ip (mem_loadedSlots.mpr hl) (u.pointer (v.inode ip).inum k)
    rw [owns]
    rw [← same] at hp ⊢
    have here : Owns u ip (u.pointer (u.inode ip).inum k) := Between.owns h hl hk hp
    exact here
  -- no slot of the cache held the inode, so that its copy was read from its block
  obtain ⟨V, D, at', -⟩ := h.at0
  have alloc := at'.used_iff.mp used
  rcases look.fresh ip loaded with ⟨hl, same, -⟩ | ⟨hi, copy⟩
  · exact absurd ⟨⟨hl.live, hl.valid⟩, same.symm⟩ old
  have stored : D (v.inode ip).inum = V.dino (v.inode ip).inum := by
    refine at'.ok.cached.stored _ hi fun jp live valid inum => old ?_
    obtain rfl := sole jp live inum
    exact ⟨⟨live, valid⟩, inum⟩
  have sameD : (v.inode ip).d = D (v.inode ip).inum := by
    rw [copy, stored, ← at'.onDisk_eq hi, ← at'.stored_eq hi]
    rfl
  have view : ∀ c, BITMAP < c → V c ≠ none → v.view c = u.view c := by
    intro c hc known
    have clean : u.view c = u.blk.bio.disk c := at'.blk.inv.bio.view_of_clean List.not_mem_nil known
    rcases look.fall c with e | e
    · exact e
    · rw [e, clean]
      rfl
  rw [at'.pointer_eq alloc] at hp ⊢
  refine ⟨hp, k, hk, ?_⟩
  rw [sameD]
  by_cases low : k ≤ NDIRECT
  · rw [Image.ref_direct low, Image.ref_direct low]
  by_cases h0 : (D (v.inode ip).inum).addr NDIRECT = 0
  · rw [Image.ref_entry_zero (by omega) h0, Image.ref_entry_zero (by omega) h0]
  · have own := at'.ok.laid.addr_own alloc (Nat.le_refl _) h0
    have sure := at'.ok.laid.indirect_sure alloc h0
    rw [Image.ref_entry (by omega) h0, Image.ref_entry (by omega) h0, Image.block_of rfl,
      view _ own.1 sure, at'.blk.block_eq (Nat.le_of_lt (Nat.lt_trans (by decide) own.1)) sure]

/-- `file_close` with the last reference to an inode without a name. -/
theorem FsState.close_reclaims {c : Unit} {t' : Files} (h : FsState N T P Q L t)
    (live : 0 < (t.file f).ref) (run : (Files.fileClose f).run t = .ok c t') :
    Reclaims t.vol t'.vol := by
  have spec : Comp.Sat (Files.fileClose f) t (Stops True) _ := fileClose_keeps h live
  obtain ⟨N', P', L', h', -, -, ⟨-, rfl, -, -⟩ | ⟨ip, i, slot, perm, drop⟩⟩ := spec.ok run
  · intro j used free
    obtain ⟨old, new⟩ := Between.ended h.between h'.between used free
    exact absurd new old
  rcases drop with ⟨rfl, -⟩ | ⟨rfl, -, -, bits⟩
  · intro j used free
    obtain ⟨old, new⟩ := Between.ended h.between h'.between used free
    exact absurd new old
  intro j used free k hk hp
  obtain ⟨old, new⟩ := Between.ended h.between h'.between used free
  have same : j = i := by
    by_contra other
    rw [Function.update_of_ne other] at new
    exact old new
  have mem := List.mem_append_left Q (perm.symm.subset List.mem_cons_self)
  have inum := h.between.fsys.inum mem
  have loaded := h.between.fsys.isLoaded (h.held _ (perm.symm.subset List.mem_cons_self))
  rw [same, ← inum] at hp ⊢
  exact fun use => ((bits _).mp use).2 (Between.owns h.between loaded hk hp)

/-- `sys_unlink` of the last name of an inode without references. -/
theorem FsState.unlink_reclaims {ptr : ℕ} {r : ℤ} {s' : System} (h : FsState N T P Q L s.files)
    (run : (sysUnlink ptr).run s = .ok r s') : Reclaims s.files.vol s'.files.vol := by
  have all := h.complete
  have cap := room (P ++ Q)
  have spec : Comp.Sat (sysUnlink ptr) s (fun w u => Stops (∃ j, 2 ^ 15 ≤ T.links j) w u.files)
      fun r s' => PathCall s ptr r s' fun _ _ N' R' _ u => N' = N ∨ ∃ ip v,
        Looked (loadedSlots s.files.vol) s.files.vol.begun v ∧ Loaded v ip ∧
          Sole s.files.vol ip (v.inode ip).inum ∧ Unnamed N N' R' ip (v.inode ip).inum v u.files.vol := by
    refine withPath_fs all.between fun path fsys => ?_
    have body : Comp.Sat (unlink path) s.files.vol.begun
        (Fails (NINODE + 4) True (∃ j, 2 ^ 15 ≤ T.links j)) _ :=
      unlink_sat fsys all.world all.sub all.heldAll (by omega)
    refine onVol_sat ((unlink_silent path).sat body) (fun _ _ bad => bad) ?_
    rintro r v ⟨⟨Qc, -, ⟨-, hv, -⟩ | ⟨-, N', T', ip, j, w, -, hv, look, loaded, rfl, -, sole, gone⟩⟩, disk⟩
    · exact ⟨disk, 0, N, _, _, hv, Or.inl rfl⟩
    · exact ⟨disk, 3, N', _, _, hv, Or.inr ⟨ip, w, look, loaded, sole, gone⟩⟩
  rcases spec.ok run with ⟨-, -, rfl⟩ | ⟨path, N', R', L', u, -, done, -, between, ended⟩
  · exact fun i used free => absurd used free
  intro j used free k hk hp
  obtain ⟨old, new⟩ := Between.ended all.between between used free
  rcases done with rfl | ⟨ip, v, look, loaded, sole, gone⟩
  · exact absurd new old
  have same : j = (v.inode ip).inum := by
    by_contra other
    rw [gone.others j other] at new
    exact old new
  subst same
  have freed := (gone.freed new).2 _ (Between.owns_looked all.between look loaded sole used hk hp)
  exact fun use => freed ((InUse.congr (ended.view BITMAP (by decide) (Nat.le_refl _)) _).mp use)

end Ends

section Alloc

/-- `ialloc` finds an inode that no open file uses. -/
theorem FsState.alloc_unused {jp : Fin NINODE} (h : FsState N T P Q L t) (alloc : Allocates t.vol ip v)
    (live : 0 < (t.file f).ref) (slot : (t.file f).ip = some jp) :
    ip ≠ jp ∧ (v.inode ip).inum ≠ (t.vol.inode jp).inum := by
  have cap := room (P ++ Q)
  have tree := h.world.tree
  obtain ⟨-, jp', i, slot', mem, -⟩ := h.slot live
  obtain rfl : jp' = jp := Option.some.inj (slot'.symm.trans slot)
  have memR := List.mem_append_left Q mem
  obtain ⟨path, dp, name, type, u₁, u₂, ht, first, second, third⟩ := alloc.run
  have walk : Comp.Sat (beginOp >>= fun _ => nameiparent path) t.vol (Limit (NINODE + 4) True)
      fun r u => ∃ rp, Walked 1 0 N T true path (leak rp path ++ (P ++ Q)) L r u := by
    refine .call (beginOp_sat h.between) ?_
    rintro _ u ⟨hu, -⟩
    exact (namex_sat tree (by decide) h.sub (by omega) hu).post fun _ _ hr => hr.2
  obtain ⟨rp, d, found, -, h₁⟩ := walk.ok first
  obtain ⟨x, hx⟩ := walk_parent found
  have dir := tree.dir d x hx
  have room₁ := used_append_le (leak rp path) (P ++ Q)
  have short := leak_length_le rp path
  have room₂ := used_cons_le (dp, d) (leak rp path ++ (P ++ Q))
  have look : Comp.Sat (ilock dp >>= fun _ => dirlookup dp name) u₁ (Limit (NINODE + 4) True)
      fun r u => r = none → Fsys 1 0 N ((dp, d) :: (leak rp path ++ (P ++ Q))) (dp :: L) u := by
    refine .call (ilock_sat h₁ List.mem_cons_self) ?_
    rintro _ u ⟨hu, -, -⟩
    refine (dirlookup_sat hu List.mem_cons_self List.mem_cons_self dir.1 dir.2 (tree.named hx)
      (by omega)).post ?_
    rintro r w hw rfl
    exact hw.2.1
  have h₂ := look.ok second rfl
  rw [h₂.dev List.mem_cons_self] at third
  have spec : Comp.Sat (ialloc ROOTDEV type) u₂ (Limit (NINODE + 4) True) _ :=
    ialloc_sat h₂ (Nat.zero_le _) ht (by omega) trivial
  obtain ⟨j, -, -, free, out, h₃⟩ := spec.ok third
  have old : (jp', i) ∈ (dp, d) :: (leak rp path ++ (P ++ Q)) :=
    List.mem_cons_of_mem _ (List.mem_append_right _ memR)
  refine ⟨fun same => out (same ▸ mem_slots old), fun same => ?_⟩
  rw [h₃.inum List.mem_cons_self, h.between.fsys.inum memR] at same
  have used := (h.between.fsys.alloc memR).2.2
  rw [← same, free] at used
  exact used rfl

end Alloc

section Runs

/-- In every state of every run, and between the transactions of a call, an inode without a name lives
    exactly as long as it has references, and no open file is on a free inode or on a free block; with
    the last reference its blocks are freed, each once; and no inode in use is given out again. -/
theorem inodes_outlive_uses (start : Started s) (hr : Along (Step Ly) s tr) :
    InodesLive (final s tr).files ∧
    ∀ p, ((final s tr).kernel.proc p).state = .running →
      (∀ t, Boundary p (final s tr) t → InodesLive t ∧ BlocksExclusive t.vol ∧
        ∀ f c t', 0 < (t.file f).ref → (Files.fileClose f).run t = .ok c t' → Reclaims t.vol t'.vol) ∧
      (∀ mem ptr r s', (sysUnlink ptr).run ((final s tr).withUser mem) = .ok r s' →
        Reclaims (final s tr).files.vol s'.files.vol) ∧
      (∀ ip v f jp, Allocates (final s tr).files.vol ip v → 0 < ((final s tr).files.file f).ref →
        ((final s tr).files.file f).ip = some jp →
          ip ≠ jp ∧ (v.inode ip).inum ≠ ((final s tr).files.vol.inode jp).inum) ∧
      (∀ (mem : UserMem) (c : Call) w t, (c.comp p).run ((final s tr).withUser mem) = .halt w t →
        w ≠ "fs_free: block not in use") ∧
      ∀ k w t, (Comp.forUpTo k (exitFd p)).run (final s tr) = .halt w t →
        w ≠ "fs_free: block not in use" := by
  have ready := start.run hr
  obtain ⟨N, T, P, Q, L, hs⟩ := ready.fs
  have none : "fs_free: block not in use" ∉ roomPanics := by decide
  refine ⟨hs.inodesLive, fun p running => ⟨fun t ht => ?_, fun mem ptr r s' run => ?_,
    fun ip v f jp alloc live slot => hs.alloc_unused alloc live slot, fun mem c w t hc => ?_,
    fun k w t hc => ?_⟩⟩
  · obtain ⟨N', T', P', Q', L', ht'⟩ := ready.boundary running ht
    exact ⟨ht'.inodesLive, Between.exclusive ht'.between, fun f c t' live run =>
      ht'.close_reclaims live run⟩
  · exact (hs.user mem).unlink_reclaims (s := (final s tr).withUser mem) run
  · rintro rfl
    exact none ((ready.panics running).1 mem c _ t hc)
  · rintro rfl
    exact none ((ready.panics running).2 k _ t hc)

theorem inodes_outlive_uses_opened : InodesLive
    ((sysOpen proczero 0 O_RDONLY).run (exampleSystem.withUser (stringMem [SLASH]))).state.files :=
  (inodes_outlive_uses exampleSystem_started exampleSystem_opened).1

end Runs

end EasyXv6.Sys
