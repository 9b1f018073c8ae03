import EasyXv6.Sys.Kept

set_option autoImplicit false

/-!
# Transactions fit into the log

The transactions of a call are one for a path, one for each chunk of a write, and one for each file
that is closed for good.
-/
namespace EasyXv6.Sys
open Lib Mem Proc Fs Vol

variable {N : ℕ → Node} {T : Dirs} {P Q R : List Ref} {L : List (Fin NINODE)} {s : System} {t : Files}
  {v : Vol} {p : Fin NPROC} {f : Fin NFILE} {ip : Fin NINODE} {i k : ℕ} {o : ℤ}
  {tr : List (Event × System)} {Ly : Layout}

/-- The volume when a transaction of the process `p`, which makes a call in the state `s`, has come to
    its `end_op`. -/
inductive Transacted (p : Fin NPROC) (s : System) : Vol → Prop
  | open {mem : UserMem} {omode : BitVec 32} {path : List UInt8} {r : ℤ} {u : System}
      (run : (onVol beginOp >>= fun _ => openBody p omode path).run (s.withUser mem) = .ok r u) :
      Transacted p s u.files.vol
  | mkdir {path : List UInt8} {r : ℤ} {v : Vol}
      (run : (beginOp >>= fun _ => mkdir path).run s.files.vol = .ok r v) : Transacted p s v
  | unlink {path : List UInt8} {r : ℤ} {v : Vol}
      (run : (beginOp >>= fun _ => unlink path).run s.files.vol = .ok r v) : Transacted p s v
  | link {oldpath newpath : List UInt8} {r : ℤ} {v : Vol}
      (run : (beginOp >>= fun _ => link oldpath newpath).run s.files.vol = .ok r v) : Transacted p s v
  | chunk {t u : Files} {f : Fin NFILE} {ip : Fin NINODE} {addr : ℕ} {n r : ℤ}
      (start : Boundary p s t) (live : 0 < (t.file f).ref) (slot : (t.file f).ip = some ip)
      (writable : (t.file f).writable = true) (some : 0 < n) (most : n ≤ Files.WRITE_MAX)
      (run : (Files.onVol beginOp >>= fun _ => Files.writeChunk f ip addr n).run t = .ok r u) :
      Transacted p s u.vol
  | close {t : Files} {v : Vol} {f : Fin NFILE} {ip : Fin NINODE} (start : Boundary p s t)
      (live : 0 < (t.file f).ref) (slot : (t.file f).ip = some ip)
      (run : (beginOp >>= fun _ => iput ip).run t.vol = .ok () v) : Transacted p s v

/-- The log has recorded no block twice, and no more blocks than there is room for. -/
structure LogFits (v : Vol) : Prop where
  nodup : (Log.LogCtx.logged v.blk.ctx).Nodup
  room : (Log.LogCtx.logged v.blk.ctx).length ≤ min LOGSIZE (v.sb.nlog - 1)

theorem Fsys.logFits (h : Fsys o k N R L v) : LogFits v := by
  obtain ⟨V, D, l, at', -⟩ := h.shows
  have logged : Log.LogCtx.logged v.blk.ctx = l := at'.blk.inv.ctx.logged
  refine ⟨logged ▸ at'.blk.inv.nodup, ?_⟩
  rw [logged, at'.blk.sb]
  exact at'.blk.inv.short

/-- The transaction that gives up the reference of an open file. -/
theorem FsState.put_sat {E : String → Vol → Prop} (h : FsState N T P Q L t) (hi : (ip, i) ∈ P)
    (stop : ∀ w v, Limit NINODE True w v → E w v) :
    Comp.Sat (beginOp >>= fun _ => iput ip) t.vol E fun _ v => LogFits v := by
  have perm := List.perm_cons_erase (List.mem_append_left Q hi)
  have between : Between N ((ip, i) :: (P ++ Q).erase (ip, i)) L t.vol :=
    (h.between.fsys.perm perm).between h.between.logged h.between.clean
  refine .call (beginOp_sat between) ?_
  rintro _ u ⟨hu, -⟩
  have hu' := hu.weaken (M := ip :: stillHeld L ((P ++ Q).erase (ip, i))) fun jp hj => by
    rcases List.mem_cons.mp hj with rfl | hj
    · exact h.held _ hi
    · exact (mem_stillHeld.mp hj).1
  have spec : Comp.Sat (iput ip) u (Limit NINODE True) _ := iput_sat hu' (Nat.zero_le _) h.world.tree
    fun jp hj => (mem_stillHeld.mp hj).2
  refine spec.imp stop ?_
  rintro _ v ⟨N', hv, -⟩
  exact Fsys.logFits hv

/-- A call on names, as far as its `end_op`. -/
theorem FsState.body_sat {m : Comp Vol ℤ} {F : String → Vol → Prop} {G : ℤ → Vol → Prop}
    (h : FsState N T P Q L t)
    (spec : Fsys 1 0 N (P ++ Q) L t.vol.begun → Comp.Sat m t.vol.begun F G)
    (fits : ∀ r v, G r v → LogFits v) : Comp.Sat (beginOp >>= fun _ => m) t.vol F fun _ v => LogFits v := by
  refine .call (beginOp_sat h.between) ?_
  rintro _ _ ⟨hv, rfl⟩
  exact (spec hv).post fits

theorem FsState.logFits (h : FsState N T P Q L s.files) (ready : Ready s)
    (running : (s.kernel.proc p).state = .running) (ht : Transacted p s v) : LogFits v := by
  have cap := room (P ++ Q)
  cases ht with
  | @«open» mem omode path r u run =>
    have start := h.user mem
    have spec : Comp.Sat (onVol beginOp >>= fun _ => openBody p omode path) (s.withUser mem)
        (fun w u => Stops True w u.files) fun _ u => LogFits u.files.vol := by
      refine .call (onVol_sat (beginOp_sat (E := fun _ _ => False) start.between)
        (fun _ _ no => no.elim) (K := fun _ u => u = (s.withUser mem).withVol
          (s.withUser mem).files.vol.begun ∧ Fsys 1 0 N (P ++ Q) L u.files.vol) ?_) ?_
      · rintro _ v ⟨hv, rfl⟩
        exact ⟨rfl, hv⟩
      rintro _ u ⟨rfl, hu⟩
      refine (openBody_fs hu start.world start.sub start.opens).post ?_
      rintro r w ⟨-, k, N', R', L', hw, -⟩
      exact Fsys.logFits hw
    exact spec.ok run
  | @mkdir path r v run =>
    have spec : Comp.Sat (beginOp >>= fun _ => mkdir path) s.files.vol (Limit (NINODE + 4) True) _ :=
      h.body_sat (fun hv => mkdir_sat hv h.world h.sub (by omega) trivial) fun r v hv => by
        rcases hv with ⟨Q', -, ⟨-, hv, -⟩ | ⟨-, N', T', -, -, hv⟩⟩
        · exact Fsys.logFits hv
        · exact Fsys.logFits hv
    exact spec.ok run
  | @unlink path r v run =>
    have spec : Comp.Sat (beginOp >>= fun _ => unlink path) s.files.vol
        (Fails (NINODE + 4) True (∃ j, 2 ^ 15 ≤ T.links j)) _ :=
      h.body_sat (fun hv => unlink_sat hv h.world h.sub h.heldAll (by omega)) fun r v hv => by
        rcases hv with ⟨Q', -, ⟨-, hv, -⟩ | ⟨-, N', T', jp, j, w, -, hv, -⟩⟩
        · exact Fsys.logFits hv
        · exact Fsys.logFits hv
    exact spec.ok run
  | @link oldpath newpath r v run =>
    have spec : Comp.Sat (beginOp >>= fun _ => link oldpath newpath) s.files.vol
        (Limit (NINODE + 4) True) _ :=
      h.body_sat (fun hv => link_sat hv h.world h.sub (by omega) trivial) fun r v hv => by
        obtain ⟨Q', N', T', -, -, -, hv, -⟩ := hv
        exact Fsys.logFits hv
    exact spec.ok run
  | @chunk t u f ip addr n r start live slot writable some most run =>
    obtain ⟨N', T', P', Q', L', ht⟩ := ready.boundary running start
    obtain ⟨-, jp, j, slot', hi, hL, write⟩ := ht.slot live
    obtain rfl : jp = ip := Option.some.inj (slot'.symm.trans slot)
    have spec : Comp.Sat (Files.onVol beginOp >>= fun _ => Files.writeChunk f jp addr n) t (Stops True)
        fun _ u => LogFits u.vol := by
      refine .call (.zoom (beginOp_sat (E := fun _ _ => False) ht.between)
        (fun _ _ no => False.elim no) (Q := fun _ u => u = { t with vol := t.vol.begun } ∧
          Fsys 1 0 N' (P' ++ Q') L' u.vol) ?_) ?_
      · rintro _ v ⟨hv, rfl⟩
        exact ⟨rfl, hv⟩
      rintro _ u ⟨rfl, hu⟩
      refine (writeChunk_sat hu ht.between.logged hi hL (write writable) some most).post ?_
      rintro r w ⟨y, m, -, hw, -⟩
      exact Fsys.logFits hw
    exact spec.ok run
  | @close t v f ip start live slot run =>
    obtain ⟨N', T', P', Q', L', ht⟩ := ready.boundary running start
    obtain ⟨-, jp, j, slot', hi, -⟩ := ht.slot live
    obtain rfl : jp = ip := Option.some.inj (slot'.symm.trans slot)
    have spec : Comp.Sat (beginOp >>= fun _ => iput jp) t.vol (Limit NINODE True) _ :=
      ht.put_sat hi fun _ _ bad => bad
    exact spec.ok run

/-- In every run, no transaction of a call records more blocks than the log has room for, and no call
    finds its transaction too big. -/
theorem transactions_fit (start : Started s) (hr : Along (Step Ly) s tr) (p : Fin NPROC)
    (running : ((final s tr).kernel.proc p).state = .running) :
    (∀ v, Transacted p (final s tr) v → LogFits v) ∧
    (∀ (mem : UserMem) (c : Call) w t, (c.comp p).run ((final s tr).withUser mem) = .halt w t →
      w ≠ "too big a transaction") ∧
    ∀ k w t, (Comp.forUpTo k (exitFd p)).run (final s tr) = .halt w t →
      w ≠ "too big a transaction" := by
  have ready := start.run hr
  obtain ⟨N, T, P, Q, L, hs⟩ := ready.fs
  have none : "too big a transaction" ∉ roomPanics := by decide
  refine ⟨fun v hv => hs.logFits ready running hv, fun mem c w t hc => ?_, fun k w t hc => ?_⟩
  · rintro rfl
    exact none ((ready.panics running).1 mem c _ t hc)
  · rintro rfl
    exact none ((ready.panics running).2 k _ t hc)

/-- The first transaction of the only process makes the directory `/a`. -/
theorem transactions_fit_mkdir : LogFits
    ((beginOp >>= fun _ => mkdir [SLASH, 97]).run exampleSystem.files.vol).state := by
  have value : ((beginOp >>= fun _ => mkdir [SLASH, 97]).run exampleSystem.files.vol).value =
      some 0 := by
    decide +kernel
  have run : Along (Step exampleLayout) exampleSystem [] := trivial
  exact (transactions_fit exampleSystem_started run proczero rfl).1 _ (.mkdir (Outcome.eq_ok value))

end EasyXv6.Sys
