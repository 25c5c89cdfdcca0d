/-
# Every operation can be brought to its end

From every reachable state of the clients and the servers there is a way on in which nobody issues a
new operation, no call fails in the RPC layer and every client ends the operation it runs.

* Some client can go on (`exists_unblocked`): if each of those that run an operation were about to
  acquire a lock that is taken, the holders of these locks would run operations too and wait in a
  circle, against the order of the locks.
* A client that can go on gets through its next request in one or two steps of the system
  (`move_on`); a sleeper on a free lock wakes up first.
* Programs are finite, so this ends (`pointwise_wellFounded`).
-/
import Yfs.ClusterLocks

open TwoPhase LockOrder

namespace Cluster

variable {τ : Type} [DecidableEq τ]

/-- The steps by which an operation is brought to its end: nothing is issued and no call fails. -/
def Act.completes : Act τ → Bool
  | .issue .. | .admin .. | .call _ (.failed _) => false
  | _ => true

/-- The next request of the client, if it has one, can be granted. -/
def Unblocked (s : Cluster τ) (p : FsProg) : Prop :=
  ∀ i k, p = .acquire i k → s.locks.server.isLocked i = false

/-- **Some client can go on.** -/
theorem exists_unblocked {B : List Inum} {s : Cluster τ} {H : τ → Finset LockId} (hi : Inv B s)
    (hl : Locked s H) (hrun : ∃ t, s.prog t ≠ none) :
    ∃ t p, s.prog t = some p ∧ Unblocked s p := by
  by_contra hnone
  push Not at hnone
  have hwait : ∀ t, s.prog t ≠ none →
      ∃ i k, s.prog t = some (.acquire i k) ∧ s.locks.server.isLocked i = true := by
    intro t ht
    obtain ⟨p, hp⟩ := Option.ne_none_iff_exists'.1 ht
    have hb := hnone t p hp
    simp only [Unblocked, not_forall, Bool.not_eq_false] at hb
    obtain ⟨i, k, rfl, hlocked⟩ := hb
    exact ⟨i, k, hp, hlocked⟩
  have hclimb : ∀ t i j, (∃ k, s.prog t = some (.acquire i k)) → s.Holds t j →
      rank B j < rank B i := by
    rintro t i j ⟨k, hk⟩ hj
    have hr := hi.runs t
    rw [hk] at hr
    exact hr.1 j hj
  apply not_circle (rank B) (rank_le B) hclimb {t | s.prog t ≠ none}
  refine ⟨hrun, ?_⟩
  intro t ht
  obtain ⟨i, k, hp, hlocked⟩ := hwait t ht
  obtain ⟨u, hu⟩ := (hl.isLocked_iff i).1 hlocked
  refine ⟨i, ⟨k, hp⟩, u, ?_, hu⟩
  -- whoever holds a lock runs an operation
  intro hnone
  have hr := hi.runs u
  rw [hnone] at hr
  have hm : i ∈ s.held u := hu
  rw [show s.held u = ∅ from hr] at hm
  exact hm

/-- A critical section of `acquire` that finds the lock free lets its client go on. -/
theorem prog_granted {s : Cluster τ} {t : τ} {k k' : FsProg} {b : Bool} (hb : b = true) :
    Function.update s.prog t (some (if b then k else k')) = Function.update s.prog t (some k) := by
  rw [hb, if_pos rfl]

/-- **A client that can go on gets through its next request.** -/
theorem move_on [Fintype τ] (env : Env) {s : Cluster τ} {H : τ → Finset LockId} (hl : Locked s H)
    (hwait : ∀ t i, s.Waits t i → ∃ k, s.prog t = some (.acquire i k)) {t : τ} {p : FsProg}
    (hp : s.prog t = some p) (hun : Unblocked s p) :
    ∃ tr q s', Trace Step s tr s' ∧ (∀ a ∈ tr, a.completes = true) ∧ Rest q (some p) ∧
      s'.prog = Function.update s.prog t q := by
  cases p with
  | ret o =>
    exact ⟨[.finish t], none, _, .single (.finish hp), by simp [Act.completes], .ret, rfl⟩
  | call c k =>
    refine ⟨[.call t (serve env c s.extents).1], some (k (serve env c s.extents).1), _,
      .single (.call hp (.reply env)), ?_, .call _, rfl⟩
    simp [Act.completes, serve]
  | release i k =>
    let woken := (Finset.univ.filter (fun u => (s.locks.phase u).sleepsOn i = true)).toList
    have hen : s.locks.Enabled (.release t i woken) := by
      refine ⟨fun u hu => by simpa [woken] using hu, ?_⟩
      rintro ⟨u, hu⟩
      exact List.ne_nil_of_mem (a := u) (by simpa [woken] using hu)
    exact ⟨[.release t woken], some k, _, .single (.release hp hen), by simp [Act.completes],
      .release, rfl⟩
  | acquire i k =>
    have hfree := hun i k rfl
    have hacq : (s.locks.server.acquire i).1 = true := by
      rw [(LockServer.acquire_spec _ _).1, hfree]
      rfl
    have hrec : (s.locks.server.recheck i).1 = true := by
      rw [(LockServer.recheck_spec _ _).1, hfree]
      rfl
    -- a client in `acquire` that has been called waits for this very lock
    have hmine : ∀ clt j r, (s.locks.phase t).wake = .woken clt j r → clt = t ∧ j = i := by
      intro clt j r hw
      refine ⟨hl.self t clt j r hw, ?_⟩
      have hawaits : s.Waits t j := by
        rw [Waits, ← LockServer.Phase.awaits_wake, hw]
        rfl
      obtain ⟨k', hk'⟩ := hwait t j hawaits
      rw [hp] at hk'
      cases hk'
      rfl
    cases hphase : s.locks.phase t with
    | idle =>
      exact ⟨[.acquire t], some k, _, .single (.acquire hp hphase), by simp [Act.completes], .acquire,
        prog_granted hacq⟩
    | woken clt j r =>
      obtain ⟨rfl, rfl⟩ := hmine clt j r (by rw [hphase]; rfl)
      exact ⟨[.recheck clt], some k, _, .single (.recheck hp hphase), by simp [Act.completes],
        .acquire, prog_granted hrec⟩
    | asleep clt j r =>
      obtain ⟨rfl, rfl⟩ := hmine clt j r (by rw [hphase]; rfl)
      have hwoken : (s.locks.next (.wakeup clt)).phase clt = .woken clt j r := by
        show Function.update s.locks.phase clt (s.locks.phase clt).wake clt = _
        rw [Function.update_self, hphase]
        rfl
      have h₁ : Trace Step s [.wakeup clt] { s with locks := s.locks.next (.wakeup clt) } :=
        .single (.wakeup ⟨clt, j, r, hphase⟩)
      exact ⟨[.wakeup clt, .recheck clt], some k, _, h₁.snoc (.recheck hp hwoken),
        by simp [Act.completes], .acquire, prog_granted hrec⟩

/-- All operations can be brought to their ends.  From every reachable state of finitely many
clients the system can go on, without a new operation and without a failing call, to a state in which
no client runs an operation. -/
theorem can_complete [Fintype τ] (env : Env) {time : UInt32} {uid : UserId} {gid : GroupId}
    {tr : List (Act τ)} {s : Cluster τ} (h : Trace Step (start time uid gid) tr s) :
    ∃ tr' s', Trace Step s tr' s' ∧ (∀ a ∈ tr', a.completes = true) ∧ ∀ t, s'.prog t = none := by
  have hwf := pointwise_wellFounded (τ := τ)
    (rest_wellFounded (ι := ExtentId) (κ := ExtentCall) (ρ := Resp) (α := Outcome FsReply))
  generalize hprog : s.prog = f
  induction f using hwf.induction generalizing s tr with
  | _ f ih =>
    subst hprog
    by_cases hidle : ∀ t, s.prog t = none
    · exact ⟨[], s, .nil, by simp, hidle⟩
    · have hi := inv_of_trace h
      obtain ⟨H, hl⟩ := locked_of_trace h
      obtain ⟨t, p, hp, hun⟩ := exists_unblocked hi hl (not_forall.1 hidle)
      obtain ⟨tr₁, q, s₁, h₁, hc₁, hrest, hprog₁⟩ := move_on env hl hi.waits hp hun
      have hless : ∃ u, Rest (s₁.prog u) (s.prog u) ∧ ∀ v, v ≠ u → s₁.prog v = s.prog v := by
        refine ⟨t, ?_, ?_⟩
        · rw [hprog₁, Function.update_self, hp]
          exact hrest
        · intro v hv
          rw [hprog₁, Function.update_of_ne hv]
      obtain ⟨tr₂, s₂, h₂, hc₂, hidle₂⟩ := ih s₁.prog hless (h.append h₁) rfl
      refine ⟨tr₁ ++ tr₂, s₂, h₁.append h₂, ?_, hidle₂⟩
      intro a ha
      rcases List.mem_append.1 ha with ha | ha
      · exact hc₁ a ha
      · exact hc₂ a ha

/-- An operation that is no longer there has returned. -/
theorem finish_mem {s s' : Cluster τ} {tr : List (Act τ)} {t : τ} (h : Trace Step s tr s')
    (hrun : s.prog t ≠ none) (hend : s'.prog t = none) : .finish t ∈ tr := by
  induction h with
  | nil => exact absurd hend hrun
  | @snoc tr s₁ s₂ a _ hs ih =>
    by_cases h₁ : s₁.prog t = none
    · exact List.mem_append_left _ (ih h₁)
    · -- the only step that ends an operation
      have hsame : ∀ {u : τ} {q : FsProg}, s₂.prog ≠ Function.update s₁.prog u (some q) := by
        intro u q heq
        rw [heq] at hend
        by_cases hut : t = u
        · subst hut
          rw [Function.update_self] at hend
          cases hend
        · rw [Function.update_of_ne hut] at hend
          exact h₁ hend
      cases hs with
      | @finish u o hp =>
        by_cases hut : t = u
        · subst hut
          exact List.mem_append_right _ (List.mem_singleton_self _)
        · dsimp only at hend
          rw [Function.update_of_ne hut] at hend
          exact absurd hend h₁
      | wakeup hen => exact absurd hend h₁
      | admin env hc => exact absurd hend h₁
      | issue cl hp hc => exact absurd rfl hsame
      | acquire hp hen => exact absurd rfl hsame
      | recheck hp hphase => exact absurd rfl hsame
      | release hp hen => exact absurd rfl hsame
      | call hp hr => exact absurd rfl hsame

end Cluster
