/-
# The operations of the clients are linearisable

A session is a run of the system of `Yfs.Deadlock` together with the list of the operations issued so
far: who issued which operation, how it ended, and how many operations had been issued by then.  An
operation precedes another one when it ended before the other one was issued.

The run is simulated by a run of two-phase programs (`Sim`) in which every operation is a thread of
its own: an attempt to acquire a lock that fails, a wake-up and the bookkeeping of the lock server do
not show there, and a lock is taken there when its flag is up in the lock server.  What happens to a
call between `extent_client` and the extent server is the environment of the call (`Fate`).

`linearisable`: every session can be completed, and the operations of the completed session have the
results, and leave the extent server in the state, of a run of the same operations one after another,
in an order in which every operation comes after those that precede it.
-/
import Yfs.ClusterProgress
import Yfs.RealTimeOrder

open TwoPhase

/-! ## The fate of a call -/

/-- What happens to a call of the extent server: it is answered, it does not get there, or its reply
does not come back. -/
inductive Fate
  | reply (env : Env)
  | lost (f : RpcFailure)
  | replyLost (env : Env) (f : RpcFailure)

/-- The response to a call and the server after it. -/
def answer : Fate → ExtentCall → ExtentServer → Resp × ExtentServer
  | .reply env, c, s => serve env c s
  | .lost f, _, s => (.failed f, s)
  | .replyLost env f, c, s => (.failed f, (serve env c s).2)

theorem answer_of_answers {c : ExtentCall} {s s' : ExtentServer} {r : Resp}
    (h : Cluster.Answers c s r s') : ∃ φ, answer φ c s = (r, s') := by
  cases h with
  | reply env => exact ⟨.reply env, rfl⟩
  | lost f => exact ⟨.lost f, rfl⟩
  | replyLost env f => exact ⟨.replyLost env f, rfl⟩

/-- A call that does not fail has been served. -/
theorem serve_of_answers {c : ExtentCall} {s s' : ExtentServer} {r : Resp}
    (h : Cluster.Answers c s r s') (hr : ∀ f, r ≠ .failed f) : ∃ env, serve env c s = (r, s') := by
  cases h with
  | reply env => exact ⟨env, rfl⟩
  | lost f => exact absurd rfl (hr f)
  | replyLost env f => exact absurd rfl (hr f)

/-- Calls on different extents commute, whatever happens to them. -/
theorem answer_commutes : Commutes ExtentCall.id answer := by
  intro φ φ' c c' s hne
  have h := fun env env' => serve_commutes env env' c c' s hne
  cases φ with
  | lost f => cases φ' <;> exact ⟨rfl, rfl, rfl⟩
  | reply env =>
    cases φ' with
    | lost f => exact ⟨rfl, rfl, rfl⟩
    | reply env' => exact h env env'
    | replyLost env' f => exact ⟨rfl, (h env env').2⟩
  | replyLost env f =>
    cases φ' with
    | lost f' => exact ⟨rfl, rfl, rfl⟩
    | reply env' => exact ⟨(h env env').1, rfl, (h env env').2.2⟩
    | replyLost env' f' => exact ⟨rfl, rfl, (h env env').2.2⟩

namespace Cluster

variable {τ : Type} [DecidableEq τ]

/-! ## Sessions -/

/-- An operation of a session: who issued it, and its outcome with the number of operations issued
until it ended. -/
structure Operation (τ : Type) where
  client : τ
  cl : YfsClient
  call : FsCall
  ended : Option (Outcome FsReply × ℕ)

/-- The program the client runs for the operation. -/
def Operation.prog (x : Operation τ) : FsProg := x.call.prog x.cl

/-- The open operation of the client `t` ends with the outcome `o`, when `n` operations have been
issued. -/
def Operation.close (t : τ) (o : Outcome FsReply) (n : ℕ) (x : Operation τ) : Operation τ :=
  if x.client = t ∧ x.ended = none then { x with ended := some (o, n) } else x

/-- The system with the operations issued so far. -/
structure Session (τ : Type) where
  cluster : Cluster τ
  ops : List (Operation τ)

/-- The operations after a step. -/
def record (s : Cluster τ) (ops : List (Operation τ)) : Act τ → List (Operation τ)
  | .issue t cl c => ops ++ [⟨t, cl, c, none⟩]
  | .finish t =>
    match s.prog t with
    | some (.ret o) => ops.map (Operation.close t o ops.length)
    | _ => ops
  | _ => ops

/-- One step of a session. -/
def Session.Step (s : Session τ) (a : Act τ) (s' : Session τ) : Prop :=
  Cluster.Step s.cluster a s'.cluster ∧ s'.ops = record s.cluster s.ops a

/-- The operation number `a` ended before the operation number `b` was issued. -/
def Before (ops : List (Operation τ)) (a b : ℕ) : Prop :=
  ∃ x o n, ops[a]? = some x ∧ x.ended = some (o, n) ∧ n ≤ b

/-- One more step of the system, recorded. -/
theorem Session.snoc {s₀ : Session τ} {tr : List (Act τ)} {c c' : Cluster τ}
    {ops : List (Operation τ)} {a : Act τ} (h : Trace Session.Step s₀ tr ⟨c, ops⟩)
    (hs : Cluster.Step c a c') : Trace Session.Step s₀ (tr ++ [a]) ⟨c', record c ops a⟩ :=
  h.snoc ⟨hs, rfl⟩

/-- A run of the system is that of a session. -/
theorem exists_session {s s' : Cluster τ} {tr : List (Act τ)} (ops : List (Operation τ))
    (h : Trace Step s tr s') : ∃ ops', Trace Session.Step ⟨s, ops⟩ tr ⟨s', ops'⟩ := by
  induction h with
  | nil => exact ⟨ops, .nil⟩
  | snoc _ hs ih =>
    obtain ⟨ops', h'⟩ := ih
    exact ⟨_, Session.snoc h' hs⟩

theorem cluster_trace {s s' : Session τ} {tr : List (Act τ)} (h : Trace Session.Step s tr s') :
    Trace Step s.cluster tr s'.cluster := by
  induction h with
  | nil => exact .nil
  | snoc _ hs ih => exact ih.snoc hs.1

/-! ## Operations are only added and ended -/

/-- What stays of an operation: who issued it, what it is and, once it has ended, how. -/
structure Operation.Grows (x y : Operation τ) : Prop where
  client : y.client = x.client
  cl : y.cl = x.cl
  call : y.call = x.call
  ended : ∀ e, x.ended = some e → y.ended = some e

theorem Operation.grows_close (t : τ) (o : Outcome FsReply) (n : ℕ) (x : Operation τ) :
    x.Grows (x.close t o n) := by
  unfold close
  split_ifs with h
  · exact ⟨rfl, rfl, rfl, fun e he => by simp [h.2] at he⟩
  · exact ⟨rfl, rfl, rfl, fun e he => he⟩

/-- The two cases of `close`. -/
theorem Operation.close_cases (t : τ) (o : Outcome FsReply) (n : ℕ) (x : Operation τ) :
    (¬ (x.client = t ∧ x.ended = none) ∧ x.close t o n = x) ∨
      (x.client = t ∧ x.ended = none ∧ x.close t o n = { x with ended := some (o, n) }) := by
  unfold close
  split_ifs with h
  · exact .inr ⟨h.1, h.2, rfl⟩
  · exact .inl ⟨h, rfl⟩

/-- Every operation is still there. -/
def Extends (ops ops' : List (Operation τ)) : Prop :=
  ∀ (k : ℕ) (x : Operation τ), ops[k]? = some x → ∃ y, ops'[k]? = some y ∧ x.Grows y

theorem extends_record (s : Cluster τ) (ops : List (Operation τ)) (a : Act τ) :
    Extends ops (record s ops a) := by
  intro k x hx
  have hlt : k < ops.length := (List.getElem?_eq_some_iff.1 hx).1
  have hsame : ∃ y, ops[k]? = some y ∧ x.Grows y := ⟨x, hx, rfl, rfl, rfl, fun _ he => he⟩
  cases a with
  | issue t cl c =>
    refine ⟨x, ?_, rfl, rfl, rfl, fun _ he => he⟩
    rw [record, List.getElem?_append_left hlt, hx]
  | finish t =>
    rw [record]
    split
    · exact ⟨_, by rw [List.getElem?_map, hx, Option.map_some], x.grows_close _ _ _⟩
    · exact hsame
  | _ => exact hsame

theorem extends_of_trace {s s' : Session τ} {tr : List (Act τ)} (h : Trace Session.Step s tr s') :
    Extends s.ops s'.ops := by
  induction h with
  | nil => exact fun k x hx => ⟨x, hx, rfl, rfl, rfl, fun _ he => he⟩
  | @snoc _ s₁ s₂ a _ hs ih =>
    intro k x hx
    obtain ⟨y, hy, hxy⟩ := ih k x hx
    obtain ⟨z, hz, hyz⟩ := extends_record s₁.cluster s₁.ops a k y hy
    rw [← hs.2] at hz
    exact ⟨z, hz, hyz.client.trans hxy.client, hyz.cl.trans hxy.cl, hyz.call.trans hxy.call,
      fun e he => hyz.ended e (hxy.ended e he)⟩

/-! ## Every operation as a thread of its own -/

variable {ε : Type} {sem : ε → ExtentCall → ExtentServer → Resp × ExtentServer} {n : ℕ}

/-- The programs `P` are those of the operations, whose list may still grow. -/
def Matches (P : Fin n → FsProg) (ops : List (Operation τ)) : Prop :=
  ∀ (k : ℕ) (x : Operation τ), ops[k]? = some x → ∃ hk : k < n, P ⟨k, hk⟩ = x.prog

/-- The labels of the two-phase run. -/
abbrev Label (n : ℕ) (ε : Type) := TwoPhase.Act (Fin n) ExtentId ε

/-- The state of the two-phase run. -/
abbrev Threads (n : ℕ) :=
  TwoPhase.Sys (Fin n) ExtentId ExtentCall Resp (Outcome FsReply) ExtentServer

/-- The session has come to `s`, and the two-phase run of the programs `P` with the labels `ls` has
come to `S`.  The threads of operations that have not been issued have made no step; that of an
operation that has ended has returned its outcome; that of an open one is where its client is. -/
structure Sim (sem : ε → ExtentCall → ExtentServer → Resp × ExtentServer) (P : Fin n → FsProg)
    (extents : ExtentServer) (s : Session τ) (ls : List (Label n ε)) (S : Threads n) : Prop where
  trace : Trace (TwoPhase.Step ExtentCall.id sem) ⟨⟨extents, fun _ => false⟩, P⟩ ls S
  store : S.world.store = s.cluster.extents
  locked : S.world.locked = s.cluster.locks.server.isLocked
  fresh : ∀ k : Fin n, s.ops.length ≤ k → S.prog k = P k ∧ ∀ l ∈ ls, l.thread ≠ k
  ended : ∀ (k : Fin n) x o m, s.ops[(k : ℕ)]? = some x → x.ended = some (o, m) → S.prog k = .ret o
  opened : ∀ (k : Fin n) x, s.ops[(k : ℕ)]? = some x → x.ended = none →
    s.cluster.prog x.client = some (S.prog k)
  running : ∀ t p, s.cluster.prog t = some p →
    ∃ (k : Fin n) (x : Operation τ), s.ops[(k : ℕ)]? = some x ∧ x.client = t ∧ x.ended = none
  single : ∀ (j k : Fin n) x y, s.ops[(j : ℕ)]? = some x → s.ops[(k : ℕ)]? = some y →
    x.ended = none → y.ended = none → x.client = y.client → j = k
  later : ∀ (k : ℕ) x o m, s.ops[k]? = some x → x.ended = some (o, m) → k < m
  apart : ∀ a b : Fin n, Before s.ops a b → ¬ Meets ls b a

namespace Sim

variable {P : Fin n → FsProg} {extents : ExtentServer} {s s' : Session τ} {ls : List (Label n ε)}
  {S S' : Threads n} {t : τ}

omit [DecidableEq τ] in
/-- A step of the cluster that the two-phase run does not see. -/
theorem stutter (h : Sim sem P extents s ls S) (hext : s'.cluster.extents = s.cluster.extents)
    (hlocked : s'.cluster.locks.server.isLocked = s.cluster.locks.server.isLocked)
    (hprog : s'.cluster.prog = s.cluster.prog) (hops : s'.ops = s.ops) :
    Sim sem P extents s' ls S where
  trace := h.trace
  store := hext ▸ h.store
  locked := hlocked ▸ h.locked
  fresh := hops ▸ h.fresh
  ended := hops ▸ h.ended
  opened := hops ▸ hprog ▸ h.opened
  running := hops ▸ hprog ▸ h.running
  single := hops ▸ h.single
  later := hops ▸ h.later
  apart := hops ▸ h.apart

/-- A step of the thread `k` of the client `t`. -/
theorem thread (h : Sim sem P extents s ls S) {k : Fin n} {x : Operation τ}
    (hk : s.ops[(k : ℕ)]? = some x) (hxt : x.client = t) (hx : x.ended = none) {i : ExtentId} {e : ε}
    {p : FsProg} (hstep : TwoPhase.Step ExtentCall.id sem S ⟨k, i, e⟩ S')
    (hp : S'.prog = Function.update S.prog k p) (hstore : S'.world.store = s'.cluster.extents)
    (hlocked : S'.world.locked = s'.cluster.locks.server.isLocked)
    (hprog : s'.cluster.prog = Function.update s.cluster.prog t (some p)) (hops : s'.ops = s.ops) :
    Sim sem P extents s' (ls ++ [⟨k, i, e⟩]) S' := by
  have hklt : (k : ℕ) < s.ops.length := (List.getElem?_eq_some_iff.1 hk).1
  refine ⟨h.trace.snoc hstep, hstore, hlocked, ?_, ?_, ?_, ?_, hops ▸ h.single, hops ▸ h.later, ?_⟩
  · intro j hj
    rw [hops] at hj
    obtain ⟨hP, hls⟩ := h.fresh j hj
    have hjk : j ≠ k := by
      rintro rfl
      omega
    refine ⟨by rw [hp, Function.update_of_ne hjk, hP], ?_⟩
    intro l hl
    rcases List.mem_append.1 hl with hl | hl
    · exact hls l hl
    · rw [List.mem_singleton.1 hl]
      exact hjk.symm
  · intro j y o m hy hyo
    rw [hops] at hy
    have hjk : j ≠ k := by
      rintro rfl
      obtain rfl := Option.some.inj (hk.symm.trans hy)
      rw [hx] at hyo
      cases hyo
    rw [hp, Function.update_of_ne hjk]
    exact h.ended j y o m hy hyo
  · intro j y hy hyo
    rw [hops] at hy
    by_cases hjk : j = k
    · subst hjk
      obtain rfl := Option.some.inj (hk.symm.trans hy)
      rw [hprog, hp, hxt, Function.update_self, Function.update_self]
    · have hyt : y.client ≠ t := by
        intro hyt
        exact hjk (h.single j k y x hy hk hyo hx (hyt.trans hxt.symm))
      rw [hprog, hp, Function.update_of_ne hyt, Function.update_of_ne hjk]
      exact h.opened j y hy hyo
  · intro u q hu
    rw [hops]
    by_cases hut : u = t
    · subst hut
      exact ⟨k, x, hk, hxt, hx⟩
    · rw [hprog, Function.update_of_ne hut] at hu
      exact h.running u q hu
  · intro a b hab hm
    rw [hops] at hab
    rcases hm.of_snoc with hm | ⟨-, rfl⟩
    · exact h.apart a b hab hm
    · -- the thread that makes the step has not ended
      obtain ⟨y, o, m, hy, hyo, -⟩ := hab
      obtain rfl := Option.some.inj (hk.symm.trans hy)
      rw [hx] at hyo
      cases hyo

/-- A new operation: its thread has not made a step. -/
theorem issue (h : Sim sem P extents s ls S) {cl : YfsClient} {c : FsCall}
    (hidle : s.cluster.prog t = none) (hP : Matches P (s.ops ++ [⟨t, cl, c, none⟩]))
    (hext : s'.cluster.extents = s.cluster.extents)
    (hlocks : s'.cluster.locks = s.cluster.locks)
    (hprog : s'.cluster.prog = Function.update s.cluster.prog t (some (c.prog cl)))
    (hops : s'.ops = s.ops ++ [⟨t, cl, c, none⟩]) : Sim sem P extents s' ls S := by
  set x : Operation τ := ⟨t, cl, c, none⟩ with hx
  have hlen : s'.ops.length = s.ops.length + 1 := by simp [hops]
  -- an operation of the longer list is an old one or the new one
  have hcases : ∀ (k : ℕ) (y : Operation τ), s'.ops[k]? = some y →
      s.ops[k]? = some y ∨ (k = s.ops.length ∧ y = x) := by
    intro k y hy
    rw [hops] at hy
    by_cases hk : k < s.ops.length
    · rw [List.getElem?_append_left hk] at hy
      exact .inl hy
    · have hlt := (List.getElem?_eq_some_iff.1 hy).1
      simp only [List.length_append, List.length_singleton] at hlt
      obtain rfl : k = s.ops.length := by omega
      rw [List.getElem?_concat_length] at hy
      exact .inr ⟨rfl, (Option.some.inj hy).symm⟩
  have hold : ∀ (k : ℕ) (y : Operation τ), s.ops[k]? = some y → s'.ops[k]? = some y := by
    intro k y hy
    rw [hops, List.getElem?_append_left (List.getElem?_eq_some_iff.1 hy).1, hy]
  -- no open operation is one of `t`
  have hother : ∀ (k : Fin n) (y : Operation τ), s.ops[(k : ℕ)]? = some y → y.ended = none →
      y.client ≠ t := by
    intro k y hy hyo hyt
    have hrun := h.opened k y hy hyo
    rw [hyt, hidle] at hrun
    cases hrun
  obtain ⟨hn, hPx⟩ := hP s.ops.length x (List.getElem?_concat_length)
  refine ⟨h.trace, hext ▸ h.store, hlocks ▸ h.locked, ?_, ?_, ?_, ?_, ?_, ?_, ?_⟩
  · intro k hk
    exact h.fresh k (by omega)
  · intro k y o m hy hyo
    rcases hcases k y hy with hy | ⟨-, rfl⟩
    · exact h.ended k y o m hy hyo
    · cases hyo
  · intro k y hy hyo
    rcases hcases k y hy with hy | ⟨hk, rfl⟩
    · rw [hprog, Function.update_of_ne (hother k y hy hyo)]
      exact h.opened k y hy hyo
    · obtain rfl : k = ⟨s.ops.length, hn⟩ := Fin.ext hk
      rw [hprog, Function.update_self, (h.fresh _ le_rfl).1, hPx]
      rfl
  · intro u p hu
    by_cases hut : u = t
    · subst hut
      exact ⟨⟨s.ops.length, hn⟩, x, by rw [hops, List.getElem?_concat_length], rfl, rfl⟩
    · rw [hprog, Function.update_of_ne hut] at hu
      obtain ⟨k, y, hy, hyu, hyo⟩ := h.running u p hu
      exact ⟨k, y, hold k y hy, hyu, hyo⟩
  · intro j k y z hy hz hyo hzo hyz
    rcases hcases j y hy with hy | ⟨hj, rfl⟩
    · rcases hcases k z hz with hz | ⟨hk, rfl⟩
      · exact h.single j k y z hy hz hyo hzo hyz
      · exact absurd hyz (hother j y hy hyo)
    · rcases hcases k z hz with hz | ⟨hk, rfl⟩
      · exact absurd hyz.symm (hother k z hz hzo)
      · exact Fin.ext (hj.trans hk.symm)
  · intro k y o m hy hyo
    rcases hcases k y hy with hy | ⟨-, rfl⟩
    · exact h.later k y o m hy hyo
    · cases hyo
  · rintro a b ⟨y, o, m, hy, hyo, hm⟩
    rcases hcases a y hy with hy | ⟨-, rfl⟩
    · exact h.apart a b ⟨y, o, m, hy, hyo, hm⟩
    · cases hyo

/-- The end of an operation: its thread has returned, and makes no further step. -/
theorem finish (h : Sim sem P extents s ls S) {o : Outcome FsReply}
    (hret : s.cluster.prog t = some (.ret o)) (hext : s'.cluster.extents = s.cluster.extents)
    (hlocks : s'.cluster.locks = s.cluster.locks)
    (hprog : s'.cluster.prog = Function.update s.cluster.prog t none)
    (hops : s'.ops = s.ops.map (Operation.close t o s.ops.length)) :
    Sim sem P extents s' ls S := by
  have hlen : s'.ops.length = s.ops.length := by rw [hops, List.length_map]
  -- an operation is as before, or it is the one of `t` that ends
  have hcases : ∀ (k : ℕ) (y : Operation τ), s'.ops[k]? = some y →
      (s.ops[k]? = some y ∧ ¬ (y.client = t ∧ y.ended = none)) ∨
        ∃ x, s.ops[k]? = some x ∧ x.client = t ∧ x.ended = none ∧
          y = { x with ended := some (o, s.ops.length) } := by
    intro k y hy
    rw [hops, List.getElem?_map] at hy
    obtain ⟨x, hx, rfl⟩ := Option.map_eq_some_iff.1 hy
    rcases x.close_cases t o s.ops.length with ⟨hnot, heq⟩ | ⟨hxt, hxo, heq⟩
    · rw [heq]
      exact .inl ⟨hx, hnot⟩
    · exact .inr ⟨x, hx, hxt, hxo, heq⟩
  refine ⟨h.trace, hext ▸ h.store, hlocks ▸ h.locked, ?_, ?_, ?_, ?_, ?_, ?_, ?_⟩
  · intro k hk
    exact h.fresh k (by omega)
  · intro k y o' m hy hyo
    rcases hcases k y hy with ⟨hy, -⟩ | ⟨x, hx, hxt, hxo, rfl⟩
    · exact h.ended k y o' m hy hyo
    · obtain ⟨rfl, -⟩ := Prod.mk.inj (Option.some.inj hyo)
      have hrun := h.opened k x hx hxo
      rw [hxt, hret] at hrun
      exact (Option.some.inj hrun).symm
  · intro k y hy hyo
    rcases hcases k y hy with ⟨hy, hnot⟩ | ⟨x, -, -, -, rfl⟩
    · rw [hprog, Function.update_of_ne (fun hyt => hnot ⟨hyt, hyo⟩)]
      exact h.opened k y hy hyo
    · cases hyo
  · intro u p hu
    have hut : u ≠ t := by
      rintro rfl
      rw [hprog, Function.update_self] at hu
      cases hu
    rw [hprog, Function.update_of_ne hut] at hu
    obtain ⟨k, x, hx, hxu, hxo⟩ := h.running u p hu
    refine ⟨k, x.close t o s.ops.length, ?_, ?_⟩
    · rw [hops, List.getElem?_map, hx, Option.map_some]
    · rcases x.close_cases t o s.ops.length with ⟨-, heq⟩ | ⟨hxt, -, -⟩
      · rw [heq]
        exact ⟨hxu, hxo⟩
      · exact absurd (hxu.symm.trans hxt) hut
  · intro j k y z hy hz hyo hzo hyz
    rcases hcases j y hy with ⟨hy, -⟩ | ⟨x, -, -, -, rfl⟩
    · rcases hcases k z hz with ⟨hz, -⟩ | ⟨x, -, -, -, rfl⟩
      · exact h.single j k y z hy hz hyo hzo hyz
      · cases hzo
    · cases hyo
  · intro k y o' m hy hyo
    rcases hcases k y hy with ⟨hy, -⟩ | ⟨x, hx, -, -, rfl⟩
    · exact h.later k y o' m hy hyo
    · obtain ⟨-, rfl⟩ := Prod.mk.inj (Option.some.inj hyo)
      exact (List.getElem?_eq_some_iff.1 hx).1
  · rintro a b ⟨y, o', m, hy, hyo, hm⟩
    rcases hcases a y hy with ⟨hy, -⟩ | ⟨x, -, -, -, rfl⟩
    · exact h.apart a b ⟨y, o', m, hy, hyo, hm⟩
    · -- `b` has not been issued yet, so its thread has made no step
      obtain ⟨-, rfl⟩ := Prod.mk.inj (Option.some.inj hyo)
      rintro ⟨l, l', hsub, hl, -⟩
      exact (h.fresh b hm).2 l (hsub.subset (by simp)) hl

/-- A critical section of `acquire`: the thread takes the lock if it is free, and makes no step
otherwise. -/
theorem attempt [Inhabited ε] (h : Sim sem P extents s ls S) {i : LockId} {k : FsProg}
    {res : Bool × LockServer} (hp : s.cluster.prog t = some (.acquire i k))
    (hres : res.1 = !s.cluster.locks.server.isLocked i)
    (hflag : ∀ j, res.2.isLocked j = (s.cluster.locks.server.isLocked j || decide (j = i)))
    (hext : s'.cluster.extents = s.cluster.extents) (hserver : s'.cluster.locks.server = res.2)
    (hprog : s'.cluster.prog =
      Function.update s.cluster.prog t (some (if res.1 then k else .acquire i k)))
    (hops : s'.ops = s.ops) : ∃ ls' S', Sim sem P extents s' ls' S' := by
  cases hl : s.cluster.locks.server.isLocked i with
  | true =>
    rw [hl, Bool.not_true] at hres
    refine ⟨ls, S, h.stutter hext ?_ ?_ hops⟩
    · funext j
      rw [hserver, hflag]
      by_cases hj : j = i
      · subst hj
        simp [hl]
      · simp [hj]
    · rw [hprog, hres, if_neg Bool.false_ne_true, ← hp]
      exact Function.update_eq_self t _
  | false =>
    rw [hl, Bool.not_false] at hres
    obtain ⟨j, x, hx, hxt, hxo⟩ := h.running t _ hp
    have hj : S.prog j = .acquire i k := by
      have hrun := h.opened j x hx hxo
      rw [hxt, hp] at hrun
      exact (Option.some.inj hrun).symm
    have hfree : S.world.locked i = false := by rw [h.locked, hl]
    have hstep : TwoPhase.Step ExtentCall.id sem S ⟨j, i, default⟩
        ⟨{ S.world with locked := Function.update S.world.locked i true },
          Function.update S.prog j k⟩ := ⟨k, hj ▸ .acquire hfree, rfl⟩
    refine ⟨_, _, h.thread hx hxt hxo hstep rfl (h.store.trans hext.symm) ?_ ?_ hops⟩
    · funext j
      dsimp only
      rw [hserver, hflag, h.locked]
      by_cases hj : j = i
      · subst hj
        simp
      · simp [hj]
    · rw [hprog, hres, if_pos rfl]

end Sim

/-- The steps that are part of an operation, the responses of the extent server meeting `ok`. -/
def Act.Within (ok : Resp → Prop) : Act τ → Prop
  | .admin .. => False
  | .call _ r => ok r
  | _ => True

/-- **Every step of a session is followed by the two-phase run.** -/
theorem Sim.step [Inhabited ε] {ok : Resp → Prop}
    (hsem : ∀ c ext r ext', Answers c ext r ext' → ok r → ∃ e, sem e c ext = (r, ext'))
    {P : Fin n → FsProg} {extents : ExtentServer} {s s' : Session τ} {ls : List (Label n ε)}
    {S : Threads n} {a : Act τ} (h : Sim sem P extents s ls S) (ha : a.Within ok)
    (hs : Session.Step s a s') (hP : Matches P s'.ops) :
    ∃ ls' S', Sim sem P extents s' ls' S' := by
  obtain ⟨⟨ext, locks, prog, inums⟩, ops⟩ := s'
  obtain ⟨hs, hops⟩ := hs
  dsimp only at hs hops hP
  subst hops
  cases hs with
  | @issue t c cl hp hc => exact ⟨ls, S, h.issue hp hP rfl rfl rfl rfl⟩
  | acquire hp hen =>
    exact h.attempt hp (LockServer.acquire_spec _ _).1 (LockServer.acquire_spec _ _).2 rfl rfl rfl rfl
  | wakeup hen => exact ⟨ls, S, h.stutter rfl rfl rfl rfl⟩
  | recheck hp hphase =>
    refine h.attempt hp (LockServer.recheck_spec _ _).1 (LockServer.recheck_spec _ _).2 rfl ?_ rfl rfl
    simp only [LockServer.Sys.next, hphase]
    rfl
  | @release t i k woken hp hen =>
    obtain ⟨j, x, hx, hxt, hxo⟩ := h.running t _ hp
    have hj : S.prog j = .release i k := by
      have hrun := h.opened j x hx hxo
      rw [hxt, hp] at hrun
      exact (Option.some.inj hrun).symm
    have hstep : TwoPhase.Step ExtentCall.id sem S ⟨j, i, default⟩
        ⟨{ S.world with locked := Function.update S.world.locked i false },
          Function.update S.prog j k⟩ := ⟨k, hj ▸ .release, rfl⟩
    refine ⟨_, _, h.thread hx hxt hxo hstep rfl h.store ?_ rfl rfl⟩
    funext j
    show Function.update S.world.locked i false j = (s.cluster.locks.server.release i).isLocked j
    rw [LockServer.isLocked_release, h.locked]
    by_cases hj : j = i
    · subst hj
      simp
    · simp [hj]
  | @call t c k r _ hp hr =>
    obtain ⟨j, x, hx, hxt, hxo⟩ := h.running t _ hp
    have hj : S.prog j = .call c k := by
      have hrun := h.opened j x hx hxo
      rw [hxt, hp] at hrun
      exact (Option.some.inj hrun).symm
    obtain ⟨e, he⟩ := hsem _ _ _ _ hr ha
    have hstep : TwoPhase.Step ExtentCall.id sem S ⟨j, c.id, e⟩
        ⟨{ S.world with store := (sem e c S.world.store).2 },
          Function.update S.prog j (k (sem e c S.world.store).1)⟩ := ⟨_, hj ▸ .call, rfl⟩
    rw [h.store, he] at hstep
    exact ⟨_, _, h.thread hx hxt hxo hstep rfl rfl h.locked rfl rfl⟩
  | @finish t o hp =>
    refine ⟨ls, S, h.finish hp rfl rfl rfl ?_⟩
    dsimp only [record]
    rw [hp]
  | admin env hc => exact ha.elim

omit [DecidableEq τ] in
/-- The programs of the operations of a longer session are those of a shorter one. -/
theorem Matches.of_extends {P : Fin n → FsProg} {ops ops' : List (Operation τ)}
    (h : Matches P ops') (hext : Extends ops ops') : Matches P ops := by
  intro k x hx
  obtain ⟨y, hy, hxy⟩ := hext k x hx
  obtain ⟨hk, hP⟩ := h k y hy
  refine ⟨hk, ?_⟩
  rw [hP, Operation.prog, Operation.prog, hxy.cl, hxy.call]

/-- **A session is a run of two-phase programs**, one for each operation. -/
theorem sim_of_trace [Inhabited ε] {ok : Resp → Prop}
    (hsem : ∀ c ext r ext', Answers c ext r ext' → ok r → ∃ e, sem e c ext = (r, ext'))
    {s₀ : Cluster τ} {s : Session τ} {tr : List (Act τ)} {P : Fin n → FsProg}
    (hidle : ∀ t, s₀.prog t = none) (hfree : ∀ i, s₀.locks.server.isLocked i = false)
    (h : Trace Session.Step ⟨s₀, []⟩ tr s) (hok : ∀ a ∈ tr, a.Within ok) (hP : Matches P s.ops) :
    ∃ ls S, Sim sem P s₀.extents s ls S := by
  induction h with
  | nil =>
    refine ⟨[], ⟨⟨s₀.extents, fun _ => false⟩, P⟩, .nil, rfl, ?_, by simp, by simp, by simp, ?_,
      by simp, by simp, ?_⟩
    · funext i
      exact (hfree i).symm
    · intro t p hp
      rw [hidle] at hp
      cases hp
    · rintro a b ⟨x, o, m, hx, -⟩
      simp at hx
  | @snoc _ s₁ s₂ a h hs ih =>
    have hext := extends_record s₁.cluster s₁.ops a
    rw [← hs.2] at hext
    obtain ⟨ls, S, hsim⟩ := ih (fun a ha => hok a (by simp [ha])) (hP.of_extends hext)
    exact hsim.step hsem (hok a (by simp)) hs hP

/-! ## Linearisations -/

/-- The operations of `s`, all of which have ended, have the outcomes `res`; run one after another
from the state `extents`, in `order`, they have the same outcomes and lead to the state of the extent
server in `s`; and an operation comes after those that precede it. -/
structure Linearisation (sem : ε → ExtentCall → ExtentServer → Resp × ExtentServer)
    (extents : ExtentServer) (s : Session τ) (order : List (Fin s.ops.length))
    (res : Fin s.ops.length → Outcome FsReply) : Prop where
  nodup : order.Nodup
  all : ∀ k, k ∈ order
  outcomes : ∀ k, ∃ m, (s.ops.get k).ended = some (res k, m)
  serial : Serial sem (fun k => (s.ops.get k).prog) res extents order s.cluster.extents
  realtime : ∀ a b : Fin s.ops.length, Before s.ops a b → order.idxOf a < order.idxOf b

omit [DecidableEq τ] in
/-- The first request of an operation is for a lock. -/
theorem Operation.prog_eq_acquire (x : Operation τ) : ∃ i k, x.prog = .acquire i k := by
  obtain ⟨t, cl, c, e⟩ := x
  cases c <;> exact ⟨_, _, rfl⟩

/-- **A session in which every operation has ended has a linearisation.** -/
theorem exists_linearisation [Inhabited ε] (ok : Resp → Prop) (hc : Commutes ExtentCall.id sem)
    (hsem : ∀ c ext r ext', Answers c ext r ext' → ok r → ∃ e, sem e c ext = (r, ext'))
    {s₀ : Cluster τ} {s : Session τ} {tr : List (Act τ)}
    (hidle : ∀ t, s₀.prog t = none) (hfree : ∀ i, s₀.locks.server.isLocked i = false)
    (h : Trace Session.Step ⟨s₀, []⟩ tr s) (hok : ∀ a ∈ tr, a.Within ok)
    (hend : ∀ t, s.cluster.prog t = none) :
    ∃ order res, Linearisation sem s₀.extents s order res := by
  let P : Fin s.ops.length → FsProg := fun k => (s.ops.get k).prog
  have hP : Matches P s.ops := by
    intro k x hx
    obtain ⟨hk, rfl⟩ := List.getElem?_eq_some_iff.1 hx
    exact ⟨hk, rfl⟩
  have hget : ∀ k : Fin s.ops.length, s.ops[(k : ℕ)]? = some (s.ops.get k) :=
    fun k => List.getElem?_eq_getElem k.2
  obtain ⟨ls, S, hsim⟩ := sim_of_trace hsem hidle hfree h hok hP
  have hended : ∀ k : Fin s.ops.length, ∃ o m, (s.ops.get k).ended = some (o, m) := by
    intro k
    cases he : (s.ops.get k).ended with
    | some e => exact ⟨e.1, e.2, rfl⟩
    | none =>
      have hrun := hsim.opened k _ (hget k) he
      rw [hend] at hrun
      cases hrun
  choose res m hres using hended
  have hret : ∀ k, S.prog k = .ret (res k) := fun k => hsim.ended k _ _ _ (hget k) (hres k)
  -- the thread of an operation that has ended has made its first step
  have hactive : ∀ k, ∃ l ∈ ls, l.thread = k := by
    intro k
    by_contra hno
    push Not at hno
    have hstill := trace_prog hsim.trace hno
    obtain ⟨i, p, hacq⟩ := (s.ops.get k).prog_eq_acquire
    rw [hret] at hstill
    cases hstill.trans hacq
  have hgrow : ∀ k, Growing ExtentCall.id ∅ (P k) := fun k => (scoped_prog _ _).growing
  obtain ⟨order, hn, hall, hserial, hreal⟩ :=
    strictly_serialisable hc (fun _ => rfl) hgrow hsim.trace hret
  rw [hsim.store] at hserial
  refine ⟨order, res, hn, hall, fun k => ⟨m k, hres k⟩, hserial, ?_⟩
  intro a b hab
  have hapart := hsim.apart a b hab
  refine hreal a b ?_ ⟨hactive a, hactive b, hapart⟩
  -- an operation does not precede itself
  rintro rfl
  obtain ⟨x, o, j, hx, hxo, hj⟩ := hab
  exact absurd hj (Nat.not_le.2 (hsim.later _ _ _ _ hx hxo))

/-- `s'` comes from `s` by bringing the operations of `s` to their ends: nothing is issued and no
call fails on the way, and what has ended before stays as it is. -/
structure Completion (s s' : Session τ) : Prop where
  run : ∃ tr, Trace Session.Step s tr s' ∧ ∀ a ∈ tr, a.completes = true
  idle : ∀ t, s'.cluster.prog t = none
  length : s'.ops.length = s.ops.length
  grows : Extends s.ops s'.ops

/-- Without a new operation the list keeps its length. -/
theorem length_of_completes {s s' : Session τ} {tr : List (Act τ)} (h : Trace Session.Step s tr s')
    (hc : ∀ a ∈ tr, a.completes = true) : s'.ops.length = s.ops.length := by
  induction h with
  | nil => rfl
  | @snoc _ s₁ s₂ a _ hs ih =>
    have ha := hc a (by simp)
    rw [← ih (fun b hb => hc b (by simp [hb])), hs.2]
    cases a with
    | issue t cl c => cases ha
    | finish t =>
      rw [record]
      split
      · exact List.length_map _
      · rfl
    | _ => rfl

omit [DecidableEq τ] in
theorem within_of_completes {a : Act τ} (h : a.completes = true) : a.Within (fun _ => True) := by
  cases a with
  | admin env c => cases h
  | _ => trivial

theorem exists_completion [Fintype τ] {time : UInt32} {uid : UserId} {gid : GroupId}
    {tr₀ tr : List (Act τ)} {s₀ : Cluster τ} {s : Session τ}
    (h₀ : Trace Step (start time uid gid) tr₀ s₀) (h : Trace Session.Step ⟨s₀, []⟩ tr s) :
    ∃ s', Completion s s' := by
  obtain ⟨tr₁, c, h₁, hc₁, hend⟩ := can_complete default (h₀.append (cluster_trace h))
  obtain ⟨ops, h₂⟩ := exists_session s.ops h₁
  exact ⟨⟨c, ops⟩, ⟨_, h₂, hc₁⟩, hend, length_of_completes h₂ hc₁, extends_of_trace h₂⟩

end Cluster
