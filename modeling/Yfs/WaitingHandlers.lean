/-
# Handlers that wait

`Yfs.RpcRefinement` lets a handler run in one step.  A handler that waits for a condition runs in
several: it works on the service, sleeps, and goes on when it is woken.  Here a handler makes steps of
its own (`works`) until the step in which it returns (`returns`).

`waiting_step` is the refinement rule for such a service: if the steps before the last one do not show in
what `abs` makes of the state of the service, the calls are served at once, in the last step.
-/
import Yfs.RpcRefinement

/-- What is issued is the request of a call. -/
theorem RpcSystem.call_of_issue {s : RpcSystem} {l : RpcLabel} {k : ℕ × ℕ} {i : ProcCall}
    (h : .issue k i ∈ s.observe l) : ∃ c proc body, l = .call c proc body ∧ ∃ q cl,
      (s.clients c).call1 c proc body = .ok (q, cl) ∧ k = q.key ∧ i = q.input := by
  cases l with
  | call c proc body =>
    rw [observe] at h
    cases hc : (s.clients c).call1 c proc body with
    | error f => simp [hc] at h
    | ok p =>
      rw [hc] at h
      obtain ⟨rfl, rfl⟩ := CallEvent.issue.inj (List.mem_singleton.1 h)
      exact ⟨c, proc, body, rfl, p.1, p.2, hc, rfl, rfl⟩
  | exec j ret body =>
    rw [observe] at h
    split at h
    · cases List.mem_singleton.1 h
    · cases h
  | finish c xid =>
    rw [observe] at h
    split at h
    · split_ifs at h
      · cases List.mem_singleton.1 h
      · cases List.mem_singleton.1 h
    · cases h
  | _ => cases h

/-- An answer or a failure is the return of a call. -/
theorem RpcSystem.finish_of_return {s : RpcSystem} {l : RpcLabel} {k : ℕ × ℕ}
    (h : (∃ o, .answer k o ∈ s.observe l) ∨ ∃ f, .fail k f ∈ s.observe l) : l = .finish k.1 k.2 := by
  cases l with
  | call c proc body =>
    rw [observe] at h
    cases hc : (s.clients c).call1 c proc body <;> simp [hc] at h
  | exec j ret body =>
    rw [observe] at h
    split at h <;> simp at h
  | finish c xid =>
    rw [observe] at h
    split at h
    · split_ifs at h
      · obtain rfl : k = (c, xid) := by simpa using h
        rfl
      · obtain rfl : k = (c, xid) := by simpa using h
        rfl
    · simp at h
  | _ => simp [observe] at h

namespace Remote

open RpcSystem

variable {σ α : Type*}

/-- A step of clients, network and dispatch, or one of the handler of the job `j`. -/
inductive WaitLabel
  | rpc (l : RpcLabel)
  | handler (j : ℕ)
  deriving DecidableEq, Repr

/-- The steps, when the job `j` that has been called with the input `i` may take the service from `x` to
`x'` by `works x j i x'` before it returns, and returns with the output `o` by `returns x j i o x'`. -/
inductive WaitStep (nonce : ℕ) (works : σ → ℕ → ProcCall → σ → Prop)
    (returns : σ → ℕ → ProcCall → ProcResult → σ → Prop) : Remote σ → WaitLabel → Remote σ → Prop
  | handler {s : RpcSystem} {x x' : σ} {j : ℕ} {q : Request} (hj : s.jobs j = some (.running q))
      (hq : q.proc ≠ Rpcc.bindProc) (hx : works x j q.input x') :
      WaitStep nonce works returns ⟨s, x⟩ (.handler j) ⟨s, x'⟩
  | returns {s s' : RpcSystem} {x x' : σ} {j : ℕ} {ret : ℤ} {body : List UInt8} {q : Request}
      (h : RpcSystem.Step s (.exec j ret body) s') (hj : s.jobs j = some (.running q))
      (hx : Handlers nonce (fun x i o x' => returns x j i o x') x q.input ⟨ret, body⟩ x') :
      WaitStep nonce works returns ⟨s, x⟩ (.rpc (.exec j ret body)) ⟨s', x'⟩
  | other {s s' : RpcSystem} {x : σ} {l : RpcLabel} (h : RpcSystem.Step s l s')
      (hl : ∀ j ret body, l ≠ .exec j ret body) :
      WaitStep nonce works returns ⟨s, x⟩ (.rpc l) ⟨s', x⟩

/-- The calls that the clients may make: `bind`, and those with a `good` input. -/
def Asks (good : ProcCall → Prop) : RpcLabel → Prop
  | .call _ proc body => proc = Rpcc.bindProc ∨ good ⟨proc, body⟩
  | _ => True

/-- The step makes only `good` calls and meets the conditions of the RPC system. -/
def WaitSafe (good : ProcCall → Prop) (s : Remote σ) : WaitLabel → Prop
  | .rpc l => Asks good l ∧ s.rpc.Safe l
  | .handler _ => True

/-- What is seen of a step; the steps of a handler before its last one are not. -/
def observeWait (s : Remote σ) : WaitLabel → List RemoteEvent
  | .rpc l => s.rpc.observe l
  | .handler _ => []

/-- The requests that are under way are `good`. -/
structure WaitInv (good : ProcCall → Prop) (s : RpcSystem) : Prop where
  exact : s.Exact
  requests : ∀ q ∈ s.requests, q.proc = Rpcc.bindProc ∨ good q.input

theorem waitInv_init (good : ProcCall → Prop) (nonce : ℕ) : WaitInv good (RpcSystem.init nonce) where
  exact := exact_init nonce
  requests := by simp [RpcSystem.init]

variable {good : ProcCall → Prop}

theorem WaitInv.move {s s' : RpcSystem} {l : RpcLabel} (hi : WaitInv good s) (hasks : Asks good l)
    (hsafe : s.Safe l) (hm : Move s l s') : WaitInv good s' where
  exact := exact_step hi.exact hsafe hm
  requests := by
    intro q hq
    rcases requests_of_move hm with hreq | ⟨c, proc, body, q', cl, rfl, hc, hreq⟩
    · rw [hreq] at hq
      exact hi.requests q hq
    · rw [hreq] at hq
      rcases List.mem_append.1 hq with hq | hq
      · exact hi.requests q hq
      · rw [List.mem_singleton.1 hq, (Rpcc.call1_ok hc).1]
        exact hasks

/-- A job that runs a procedure of the service has a `good` input. -/
theorem WaitInv.running {s : RpcSystem} {j : ℕ} {q : Request} (hi : WaitInv good s)
    (hj : s.jobs j = some (.running q)) (hq : q.proc ≠ Rpcc.bindProc) : good q.input :=
  (hi.requests q (hi.exact.sound.delivered.job j _ hj)).resolve_left hq

variable {nonce : ℕ} {works : σ → ℕ → ProcCall → σ → Prop}
  {returns : σ → ℕ → ProcCall → ProcResult → σ → Prop} {serves : α → ProcCall → ProcResult → α → Prop}

/-- **Handlers that wait serve their calls at once.**  On the `good` inputs, what a handler does before it
returns does not show in `abs`, and its last step serves the call there. -/
theorem waiting_step (abs : σ → α)
    (hworks : ∀ x j i x', good i → works x j i x' → abs x' = abs x)
    (hreturns : ∀ x j i o x', good i → returns x j i o x' → serves (abs x) i o (abs x'))
    {s s' : Remote σ} {l : WaitLabel} (hi : WaitInv good s.rpc)
    (h : Guarded (WaitSafe good) (WaitStep nonce works returns) s l s') :
    WaitInv good s'.rpc ∧ Trace (AtomicCalls.Step (Handlers nonce serves))
      (toCalls ⟨s.rpc, abs s.service⟩) (s.observeWait l) (toCalls ⟨s'.rpc, abs s'.service⟩) := by
  obtain ⟨hsafe, hstep⟩ := h
  cases hstep with
  | @handler s x x' j q hj hq hx =>
    refine ⟨hi, ?_⟩
    rw [hworks x j q.input x' (hi.running hj hq) hx]
    exact .nil
  | @returns s s' x x' j ret body q h hj hx =>
    have hserved : Handlers nonce serves (abs x) q.input ⟨ret, body⟩ (abs x') := by
      cases hx with
      | rpcbind hbind => exact .rpcbind hbind
      | service hbind hx => exact .service hbind (hreturns _ _ _ _ _ (hi.running hj hbind) hx)
    have hrefines := refines_step hi.exact (s := ⟨s, abs x⟩) ⟨hsafe.2, .handler h hj hserved⟩
    exact ⟨hi.move hsafe.1 hsafe.2 (move_of_step h), hrefines.2⟩
  | @other s s' x l h hl =>
    have hstep : SafeStep nonce serves ⟨s, abs x⟩ l ⟨s', abs x⟩ := ⟨hsafe.2, .other h hl⟩
    have hrefines := refines_step (s := ⟨s, abs x⟩) hi.exact hstep
    exact ⟨hi.move hsafe.1 hsafe.2 (move_of_step h), hrefines.2⟩

/-- A run of clients, server and network is one with a service that is in the state `post execs` after the
executions `execs`, when its handlers may return so. -/
theorem exists_waited (post : List Exec → σ) {t : List RpcLabel} {s : RpcSystem}
    (h : Trace (Guarded Safe RpcSystem.Step) (RpcSystem.init nonce) t s)
    (hasks : ∀ l ∈ t, Asks good l)
    (hserves : ∀ execs e, execs ++ [e] <+: s.execs → ∀ j,
      Handlers nonce (fun x i o x' => returns x j i o x') (post execs) e.request.input e.output
        (post (execs ++ [e]))) :
    Trace (Guarded (WaitSafe good) (WaitStep nonce works returns)) (init nonce (post []))
      (t.map .rpc) ⟨s, post s.execs⟩ := by
  induction h with
  | nil => exact .nil
  | @snoc t s s' l h hs ih =>
    rw [List.map_append]
    have hsafe : Asks good l ∧ s.Safe l := ⟨hasks l (by simp), hs.1⟩
    have ih := ih (fun l' hl' => hasks l' (List.mem_append_left _ hl'))
    by_cases hexec : ∃ j ret body, l = .exec j ret body
    · obtain ⟨j, ret, body, rfl⟩ := hexec
      obtain ⟨q, hj, -⟩ := exec_cases hs.2
      have hexecs : s'.execs = s.execs ++ [⟨q, ret, body⟩] := by
        cases move_of_step hs.2 with
        | exec hj' hret =>
          rw [hj] at hj'
          cases hj'
          rfl
      rw [hexecs] at hserves ⊢
      have hrun := ih (fun execs e hpre => hserves execs e (hpre.trans (List.prefix_append _ _)))
      exact hrun.snoc ⟨hsafe, .returns hs.2 hj (hserves s.execs _ List.prefix_rfl j)⟩
    · have hexecs : s'.execs = s.execs := by
        cases move_of_step hs.2 with
        | exec => exact absurd ⟨_, _, _, rfl⟩ hexec
        | _ => rfl
      rw [hexecs] at hserves ⊢
      exact (ih hserves).snoc ⟨hsafe, .other hs.2 (fun j ret body heq => hexec ⟨j, ret, body, heq⟩)⟩

end Remote
