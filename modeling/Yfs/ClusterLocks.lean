/-
# Every extent call is made under its lock

In the system of `Yfs.Deadlock` the clients reach the lock server through its real interface: attempts
that fail and sleep, wake-ups that find the lock taken again, releases that wake some of the sleepers.
The operations are two-phase programs (`scoped_prog`), so whatever the interleaving and whichever calls
fail in the RPC layer

* only holders release, so the lock server is in a state of a disciplined run (`LockServer.Run`);
* a client calls the extent server only for extents whose lock it holds, and nobody else holds it;
* a client that runs no operation holds no lock.

`extents_guarded` is the main result.
-/
import Yfs.Deadlock
import Yfs.Serialise

open TwoPhase

namespace Cluster

variable {τ : Type} [DecidableEq τ]

/-- What a client that holds the locks `H` may still do: nothing is left and `H` is empty, or the rest
of its operation is two-phase. -/
def TwoPhased (H : Finset ExtentId) : Option FsProg → Prop
  | none => H = ∅
  | some p => Growing ExtentCall.id H p ∨ Shrinking H p

/-- `H` says who holds which lock, the clients are two-phase and release what they hold. -/
structure Locked (s : Cluster τ) (H : τ → Finset LockId) : Prop where
  reached : ∃ acts, LockServer.Run acts s.locks
  holds : ∀ t i, i ∈ H t ↔ s.Holds t i
  runs : ∀ t, TwoPhased (H t) (s.prog t)
  self : ∀ t clt i r, (s.locks.phase t).wake = .woken clt i r → clt = t

namespace Locked

variable {s s' : Cluster τ} {H : τ → Finset LockId} {t : τ}

theorem start (time : UInt32) (uid : UserId) (gid : GroupId) :
    Locked (start time uid gid : Cluster τ) (fun _ => ∅) where
  reached := ⟨[], .nil⟩
  holds t i := by
    have h := LockServer.not_holds_nil t i
    simpa [Cluster.start, LockServer.Sys.start, Holds] using h
  runs t := rfl
  self t clt i r h := by cases h

/-- A lock is taken when one of the clients holds it. -/
theorem isLocked_iff (h : Locked s H) (i : LockId) :
    s.locks.server.isLocked i = true ↔ ∃ t, s.Holds t i := by
  obtain ⟨acts, hacts⟩ := h.reached
  exact hacts.inv.flag i

/-- A free lock is held by nobody. -/
theorem notMem_of_free (h : Locked s H) {i : LockId} (hi : s.locks.server.isLocked i = false)
    (t : τ) : i ∉ H t := by
  intro hm
  have := (h.isLocked_iff i).2 ⟨t, (h.holds t i).1 hm⟩
  simp [hi] at this

/-- A step that leaves the lock server alone. -/
theorem of_locks_eq (h : Locked s H) (hlocks : s'.locks = s.locks) {q : Option FsProg}
    (hprog : s'.prog = Function.update s.prog t q) (hq : TwoPhased (H t) q) : Locked s' H where
  reached := hlocks ▸ h.reached
  holds u i := by
    rw [h.holds, Holds, Holds, hlocks]
  runs u := by
    rw [hprog]
    by_cases hu : u = t
    · subst hu
      rwa [Function.update_self]
    · rw [Function.update_of_ne hu]
      exact h.runs u
  self u := by
    rw [hlocks]
    exact h.self u

/-- A critical section of `acquire`: the client gets the lock, which was free, or it sleeps. -/
theorem attempt (h : Locked s H) {i : LockId} {k : FsProg} {r : Int32} {res : Bool × LockServer}
    (hp : s.prog t = some (.acquire i k))
    (hreach : ∃ acts, LockServer.Run acts (s.locks.finish t t i r res))
    (hres : res.1 = !s.locks.server.isLocked i) :
    Locked { s with
      locks := s.locks.finish t t i r res
      prog := Function.update s.prog t (some (if res.1 then k else .acquire i k)) }
      (if res.1 then Function.update H t (insert i (H t)) else H) := by
  have hrun := h.runs t
  rw [hp] at hrun
  have hself : ∀ u clt j r', ((s.locks.finish t t i r res).phase u).wake = .woken clt j r' →
      clt = u := by
    intro u clt j r' hw
    by_cases hu : u = t
    · subst hu
      have hphase : (s.locks.finish u u i r res).phase u = if res.1 then .idle else .asleep u i r :=
        Function.update_self _ _ _
      rw [hphase] at hw
      split_ifs at hw
      · cases hw
      · cases hw
        rfl
    · rw [show (s.locks.finish t t i r res).phase u = s.locks.phase u from
        Function.update_of_ne hu _ _] at hw
      exact h.self u clt j r' hw
  obtain ⟨granted, server⟩ := res
  cases granted with
  | false =>
    refine ⟨hreach, h.holds, ?_, hself⟩
    intro u
    dsimp only
    by_cases hu : u = t
    · subst hu
      rw [Function.update_self]
      exact hrun
    · rw [Function.update_of_ne hu]
      exact h.runs u
  | true =>
    have hfree : s.locks.server.isLocked i = false := by simpa using hres
    have hk : Growing ExtentCall.id (insert i (H t)) k := by
      rcases hrun with hrun | hrun
      · exact hrun (h.notMem_of_free hfree t)
      · exact hrun.elim
    refine ⟨hreach, ?_, ?_, hself⟩
    · intro u j
      refine Iff.trans ?_ LockServer.holds_acquired.symm
      by_cases hu : u = t
      · subst hu
        simp [h.holds, Holds]
      · simp [hu, h.holds, Holds]
    · intro u
      dsimp only
      by_cases hu : u = t
      · subst hu
        rw [if_pos rfl, Function.update_self, Function.update_self]
        exact .inl hk
      · rw [if_pos rfl, Function.update_of_ne hu, Function.update_of_ne hu]
        exact h.runs u

/-- A release gives back a lock that the client holds. -/
theorem release (h : Locked s H) {i : LockId} {k : FsProg} {woken : List τ}
    (hp : s.prog t = some (.release i k)) (hen : s.locks.Enabled (.release t i woken)) :
    Locked { s with
      locks := s.locks.next (.release t i woken)
      prog := Function.update s.prog t (some k) } (Function.update H t ((H t).erase i)) := by
  have hrun := h.runs t
  rw [hp] at hrun
  have hk : i ∈ H t ∧ Shrinking ((H t).erase i) k := by
    rcases hrun with hrun | hrun <;> exact hrun
  obtain ⟨acts, hacts⟩ := h.reached
  refine ⟨⟨_, hacts.next (.release t i woken) ((h.holds t i).1 hk.1) hen⟩, ?_, ?_, ?_⟩
  · intro u j
    refine Iff.trans ?_ LockServer.holds_released.symm
    by_cases hu : u = t
    · subst hu
      simp [h.holds, Holds, and_comm]
    · simp [hu, h.holds, Holds]
  · intro u
    dsimp only
    by_cases hu : u = t
    · subst hu
      rw [Function.update_self, Function.update_self]
      exact .inr hk.2
    · rw [Function.update_of_ne hu, Function.update_of_ne hu]
      exact h.runs u
  · intro u clt j r hw
    apply h.self u clt j r
    have hphase : (s.locks.next (.release t i woken)).phase u =
        if u ∈ woken then (s.locks.phase u).wake else s.locks.phase u := rfl
    rw [← hw, hphase]
    split_ifs
    · cases s.locks.phase u <;> rfl
    · rfl

/-- **Every step of the cluster keeps the lock discipline.** -/
theorem step {a : Act τ} (h : Locked s H) (hs : Step s a s') : ∃ H', Locked s' H' := by
  cases hs with
  | @issue t c cl hp hc =>
    have hrun := h.runs t
    rw [hp] at hrun
    refine ⟨H, h.of_locks_eq (t := t) rfl rfl ?_⟩
    rw [show H t = ∅ from hrun]
    exact .inl (scoped_prog cl c).growing
  | @acquire t i k hp hen =>
    obtain ⟨acts, hacts⟩ := h.reached
    exact ⟨_, h.attempt hp ⟨_, hacts.next (.acquire t t i) trivial hen⟩
      (LockServer.acquire_spec _ _).1⟩
  | @wakeup t hen =>
    obtain ⟨acts, hacts⟩ := h.reached
    refine ⟨H, ⟨_, hacts.next (.wakeup t) trivial hen⟩, h.holds, h.runs, ?_⟩
    intro u clt i r hw
    apply h.self u clt i r
    by_cases hu : u = t
    · subst hu
      have hphase : (s.locks.next (.wakeup u)).phase u = (s.locks.phase u).wake :=
        Function.update_self _ _ _
      rw [← hw, hphase]
      cases s.locks.phase u <;> rfl
    · rwa [show (s.locks.next (.wakeup t)).phase u = s.locks.phase u from
        Function.update_of_ne hu _ _] at hw
  | @recheck t i r k hp hphase =>
    obtain ⟨acts, hacts⟩ := h.reached
    have hnext := hacts.next (.recheck t) trivial ⟨t, i, r, hphase⟩
    simp only [LockServer.Sys.next, hphase] at hnext ⊢
    exact ⟨_, h.attempt hp ⟨_, hnext⟩ (LockServer.recheck_spec _ _).1⟩
  | release hp hen => exact ⟨_, h.release hp hen⟩
  | @call t c k r extents hp hr =>
    have hrun := h.runs t
    rw [hp] at hrun
    refine ⟨H, h.of_locks_eq (t := t) rfl rfl ?_⟩
    rcases hrun with hrun | hrun
    · exact .inl (hrun.2 r)
    · exact hrun.elim
  | @finish t o hp =>
    have hrun := h.runs t
    rw [hp] at hrun
    refine ⟨H, h.of_locks_eq (t := t) rfl rfl ?_⟩
    rcases hrun with hrun | hrun <;> exact hrun
  | admin env hc => exact ⟨H, h.reached, h.holds, h.runs, h.self⟩

end Locked

variable {time : UInt32} {uid : UserId} {gid : GroupId} {tr : List (Act τ)} {s : Cluster τ}

theorem locked_of_trace (h : Trace Step (start time uid gid) tr s) : ∃ H, Locked s H := by
  refine Trace.invariant (I := fun s => ∃ H, Locked s H) ?_ ?_ h
  · exact ⟨fun _ => ∅, .start time uid gid⟩
  · rintro s a s' ⟨H, hs⟩ hstep
    exact hs.step hstep

/-- Between operations all locks are free. -/
theorem isLocked_of_idle (h : Trace Step (start time uid gid) tr s) (hidle : ∀ t, s.prog t = none)
    (i : LockId) : s.locks.server.isLocked i = false := by
  obtain ⟨H, hs⟩ := locked_of_trace h
  rw [Bool.eq_false_iff]
  intro hi
  obtain ⟨t, ht⟩ := (hs.isLocked_iff i).1 hi
  have hrun := hs.runs t
  rw [hidle] at hrun
  have hm := (hs.holds t i).2 ht
  rw [show H t = ∅ from hrun] at hm
  exact absurd hm (Finset.notMem_empty i)

/-- **The extents are guarded by the locks.**  In every run of the clients, the lock server and the
extent server, whatever the interleaving, the failing calls and the administration: only holders have
released locks, the client that calls the extent server for an extent is the one and only holder of
the lock of the extent, and a client that runs no operation holds no lock. -/
theorem extents_guarded (h : Trace Step (start time uid gid) tr s) :
    (∃ acts, LockServer.Run acts s.locks) ∧
      (∀ t c k, s.prog t = some (.call c k) →
        s.Holds t c.id ∧ ∀ u, s.Holds u c.id → u = t) ∧
      ∀ t, s.prog t = none → ∀ i, ¬ s.Holds t i := by
  obtain ⟨H, hs⟩ := locked_of_trace h
  obtain ⟨acts, hacts⟩ := hs.reached
  refine ⟨⟨acts, hacts⟩, ?_, ?_⟩
  · intro t c k hp
    have hrun := hs.runs t
    rw [hp] at hrun
    have hm : c.id ∈ H t := by
      rcases hrun with hrun | hrun
      · exact hrun.1
      · exact hrun.elim
    have ht := (hs.holds t c.id).1 hm
    exact ⟨ht, fun u hu => hacts.inv.unique c.id u t hu ht⟩
  · intro t hp i hi
    have hrun := hs.runs t
    rw [hp] at hrun
    have hm := (hs.holds t i).2 hi
    rw [show H t = ∅ from hrun] at hm
    exact absurd hm (Finset.notMem_empty i)

/-- A client reads the root under its lock, for which another client waits. -/
theorem extents_guarded_get :
    ∃ (tr : List (Act Bool)) (s : Cluster Bool), Trace Step (start 0 0 0) tr s ∧ s.Waits true 1 ∧
      s.Holds false 1 ∧ ∀ u, s.Holds u 1 → u = false := by
  let cl : YfsClient := ⟨3, [], 3, 3, default, 0⟩
  have hname : ProperName [97] := ⟨by decide, 97, by simp, by decide⟩
  have h₁ : Trace Step (start 0 0 0 : Cluster Bool) _ _ :=
    Trace.single (.issue (t := false) (c := .lookup Fuse.root [97]) cl rfl ⟨by decide, hname⟩)
  have h₂ := h₁.snoc (.acquire (t := false) rfl rfl)
  have h₃ := h₂.snoc (.issue (t := true) (c := .getdir Fuse.root) cl rfl trivial)
  have h₄ := h₃.snoc (.acquire (t := true) rfl rfl)
  obtain ⟨-, hcall, -⟩ := extents_guarded h₄
  exact ⟨_, _, h₄, rfl, hcall false ⟨.get, 1, 3, []⟩ _ rfl⟩

end Cluster
