/-
# Clients, server and network (`rpc/rpc.cc`)

Any number of `rpcc` clients and one `rpcs`, over a network that delays, duplicates, drops and reorders
messages.  The clients are named by their `clt_nonce_`, so that different clients have different
nonces.  Every request that `call1` has built stays in `requests`, from where any copy of it may reach
the server at any moment (a retransmission keeps its header); in the same way `replies` are the
replies sent to a client.  A message that is never delivered is lost.

A request that reaches the server becomes a job of the dispatch pool.  `rpcs::dispatch` is cut at its
critical sections: it classifies the request (`check`), runs the handler, stores the reply and sends
it.  Between these steps other jobs run.

* A handler is not modelled: its result is part of the label, a status that is not negative, as
  `dispatch` verifies.  The handler of `bind` returns the nonce of the server.
* `checkduplicate_and_update` hands `dispatch` a pointer to the stored reply, and another job may free
  this buffer before it is sent.  The block may then belong to any other reply, so what a `dangling`
  job sends is part of the label.
* Connections and their reference counts, the statistics and the lossy test are left out.  A procedure
  that is not registered stops the server process; no label stands for that.
-/
import Yfs.Rpcs
import Yfs.Trace

/-- `m << n` for an `int`: four bytes, the highest first. -/
def packInt (n : ℕ) : List UInt8 :=
  [UInt8.ofNat (n / 2 ^ 24), UInt8.ofNat (n / 2 ^ 16), UInt8.ofNat (n / 2 ^ 8), UInt8.ofNat n]

/-- `u >> n` for an `int`, when the reply holds nothing else. -/
def unpackInt : List UInt8 → Option ℕ
  | [a, b, c, d] => some (((a.toNat * 2 ^ 8 + b.toNat) * 2 ^ 8 + c.toNat) * 2 ^ 8 + d.toNat)
  | _ => none

/-- Where the dispatch of a request stands: before `checkduplicate_and_update`, before the handler,
before `add_reply`, before `send`; or before the `send` of a buffer that has been freed. -/
inductive Job
  | arrived (q : Request)
  | running (q : Request)
  | replied (q : Request) (b : Buf)
  | sending (q : Request) (b : Buf)
  | dangling (q : Request)
  deriving DecidableEq, Repr

/-- The request that is dispatched. -/
def Job.request : Job → Request
  | arrived q | running q | replied q _ | sending q _ | dangling q => q

/-- The job after other jobs' buffers have been freed. -/
def Job.afterFree (freed : List ℕ) : Job → Job
  | sending q b => if b.id ∈ freed then dangling q else sending q b
  | job => job

/-- The handler has run on a request, with this result. -/
structure Exec where
  request : Request
  ret : ℤ
  body : List UInt8
  deriving DecidableEq, Repr

/-- `call1` has returned. -/
structure Ended where
  cltNonce : ℕ
  xid : ℕ
  ret : ℤ
  body : List UInt8
  deriving DecidableEq, Repr

/-- The state of the system.  `admitted`, `execs` and `ended` are a record of what has happened: the
requests classified as `NEW`, the executions of handlers and the calls that have returned. -/
structure RpcSystem where
  clients : ℕ → Rpcc
  server : Rpcs
  jobs : ℕ → Option Job
  requests : List Request
  replies : List (ℕ × RpcReply)
  nextBuf : ℕ
  admitted : List (ℕ × ℕ)
  execs : List Exec
  ended : List Ended

/-- The steps of the system. -/
inductive RpcLabel
  | call (c proc : ℕ) (body : List UInt8)
  | deliver (j : ℕ) (q : Request)
  | check (j : ℕ)
  | exec (j : ℕ) (ret : ℤ) (body : List UInt8)
  | addReply (j : ℕ)
  | send (j : ℕ) (garbage : RpcReply)
  | gotPdu (c : ℕ) (r : RpcReply)
  | finish (c xid : ℕ)
  | bound (c xid : ℕ)
  | cancel (c : ℕ)
  deriving DecidableEq, Repr

/-- The client and the xid of a request. -/
def Request.key (q : Request) : ℕ × ℕ := (q.cltNonce, q.xid)

namespace RpcSystem

/-- All clients and the server fresh from their constructors. -/
def init (nonce : ℕ) : RpcSystem where
  clients := fun _ => {}
  server := { nonce := nonce }
  jobs := fun _ => none
  requests := []
  replies := []
  nextBuf := 0
  admitted := []
  execs := []
  ended := []

def setClient (s : RpcSystem) (c : ℕ) (cl : Rpcc) : RpcSystem :=
  { s with clients := Function.update s.clients c cl }

def setJob (s : RpcSystem) (j : ℕ) (job : Option Job) : RpcSystem :=
  { s with jobs := Function.update s.jobs j job }

/-- The job `j` sends `r` to the client of `q` and ends. -/
def reply (s : RpcSystem) (j : ℕ) (q : Request) (r : RpcReply) : RpcSystem :=
  { s.setJob j none with replies := s.replies ++ [(q.cltNonce, r)] }

/-- The server after `checkduplicate_and_update`, and what the freed buffers mean to other jobs. -/
def checked (s : RpcSystem) (q : Request) : RpcSystem :=
  let (_, freed, server) := s.server.checkduplicateAndUpdate q.cltNonce q.xid q.xidRep
  { s with server := server, jobs := fun k => (s.jobs k).map (Job.afterFree freed) }

/-- The answer of `checkduplicate_and_update`. -/
def stateOf (s : RpcSystem) (q : Request) : RpcState :=
  (s.server.checkduplicateAndUpdate q.cltNonce q.xid q.xidRep).1

/-- `dispatch` up to the handler. -/
def dispatch (s : RpcSystem) (j : ℕ) (q : Request) : RpcSystem :=
  if q.srvNonce ≠ 0 ∧ q.srvNonce ≠ s.server.nonce then
    s.reply j q ⟨q.xid, RpcFailure.oldsrv_failure.code, []⟩
  else if q.cltNonce = 0 then s.setJob j (some (.running q))
  else
    match s.stateOf q with
    | .NEW => { (s.checked q).setJob j (some (.running q)) with admitted := s.admitted ++ [q.key] }
    | .INPROGRESS => (s.checked q).setJob j none
    | .DONE b => (s.checked q).setJob j (some (.sending q b))
    | .FORGOTTEN => (s.checked q).reply j q ⟨q.xid, RpcFailure.atmostonce_failure.code, []⟩

/-- What the handler of `q` may return. -/
def handled (s : RpcSystem) (q : Request) (ret : ℤ) (body : List UInt8) : Bool :=
  if q.proc = Rpcc.bindProc then ret == 0 && body == packInt s.server.nonce else 0 ≤ ret

/-- The nonce that the `bind` call `xid` of the client `c` has returned. -/
def boundNonce (s : RpcSystem) (c xid : ℕ) : Option ℕ :=
  if s.requests.any (fun q => q.key == (c, xid) && q.proc == Rpcc.bindProc) then
    (s.ended.find? (fun e => e.cltNonce == c && e.xid == xid && e.ret == 0)).bind
      (fun e => unpackInt e.body)
  else none

/-- The step with the label, if it can be made. -/
def step (s : RpcSystem) : RpcLabel → Option RpcSystem
  | .call c proc body =>
    match (s.clients c).call1 c proc body with
    -- `bind_failure` or `cancel_failure`, returned before anything is sent
    | .error _ => some s
    | .ok (q, cl) => some { s.setClient c cl with requests := s.requests ++ [q] }
  | .deliver j q =>
    if q ∈ s.requests ∧ s.jobs j = none then some (s.setJob j (some (.arrived q))) else none
  | .check j =>
    match s.jobs j with
    | some (.arrived q) => some (s.dispatch j q)
    | _ => none
  | .exec j ret body =>
    match s.jobs j with
    | some (.running q) =>
      if s.handled q ret body then
        some { s.setJob j (some (.replied q ⟨s.nextBuf, ⟨q.xid, ret, body⟩⟩)) with
          nextBuf := s.nextBuf + 1
          execs := s.execs ++ [⟨q, ret, body⟩] }
      else none
    | _ => none
  | .addReply j =>
    match s.jobs j with
    | some (.replied q b) =>
      some { s.setJob j (some (.sending q b)) with
        server := if 0 < q.cltNonce then s.server.addReply q.cltNonce q.xid b else s.server }
    | _ => none
  | .send j garbage =>
    match s.jobs j with
    | some (.sending q b) => some (s.reply j q b.reply)
    | some (.dangling q) => some (s.reply j q garbage)
    | _ => none
  | .gotPdu c r =>
    if (c, r) ∈ s.replies then some (s.setClient c ((s.clients c).gotPdu r)) else none
  | .finish c xid =>
    match (s.clients c).calls xid with
    | none => none
    | some ca =>
      some { s.setClient c ((s.clients c).finish xid) with
        ended := s.ended ++ [⟨c, xid, (Rpcc.returned ca).1, (Rpcc.returned ca).2⟩] }
  | .bound c xid => (s.boundNonce c xid).map (fun r => s.setClient c ((s.clients c).bound r))
  | .cancel c => some (s.setClient c (s.clients c).cancel)

/-- One step of the system. -/
def Step (s : RpcSystem) (l : RpcLabel) (s' : RpcSystem) : Prop := s.step l = some s'

/-- The number of calls the client `c` has made. -/
def count (s : RpcSystem) (c : ℕ) : ℕ := s.requests.countP (fun q => q.cltNonce == c)

/-- The runs the results are about: the nonce of a client is not 0, and a client makes fewer than
`2 ^ 32` calls. -/
def Bounded (s : RpcSystem) : RpcLabel → Prop
  | .call c _ _ => c ≠ 0 ∧ s.count c + 1 < 2 ^ 32
  | _ => True

instance (s : RpcSystem) (l : RpcLabel) : Decidable (s.Bounded l) :=
  match l with
  | .call c _ _ => inferInstanceAs (Decidable (c ≠ 0 ∧ s.count c + 1 < 2 ^ 32))
  | .deliver .. | .check .. | .exec .. | .addReply .. | .send .. | .gotPdu .. | .finish ..
  | .bound .. | .cancel .. => .isTrue trivial

/-- The request that a step classifies. -/
def classifies (s : RpcSystem) : RpcLabel → Option Request
  | .check j =>
    match s.jobs j with
    | some (.arrived q) => some q
    | _ => none
  | _ => none

/-- The run with the labels `ls`, as long as its steps meet the condition `C`. -/
def run (C : RpcSystem → RpcLabel → Prop) [∀ s l, Decidable (C s l)] (s : RpcSystem) :
    List RpcLabel → Option RpcSystem
  | [] => some s
  | l :: ls => if C s l then (s.step l).bind (fun s => run C s ls) else none

theorem run_eq_runWith {C : RpcSystem → RpcLabel → Prop} [∀ s l, Decidable (C s l)]
    (s : RpcSystem) (ls : List RpcLabel) : s.run C ls = Trace.runWith step C s ls := by
  induction ls generalizing s with
  | nil => rfl
  | cons l ls ih => simp only [run, Trace.runWith, ih]

/-- A run that ends in a state with the property `p`. -/
theorem exists_trace {C : RpcSystem → RpcLabel → Prop} [∀ s l, Decidable (C s l)]
    {p : RpcSystem → Bool} {s : RpcSystem} {ls : List RpcLabel}
    (h : (s.run C ls).any p = true) : ∃ s', Trace (Guarded C Step) s ls s' ∧ p s' = true := by
  rw [run_eq_runWith] at h
  exact Trace.exists_of_runWith h

/-- The steps of a call that is served at once, from its delivery on. -/
def served (q : Request) (ret : ℤ) (body : List UInt8) : List RpcLabel :=
  [.deliver 0 q, .check 0, .exec 0 ret body, .addReply 0, .send 0 ⟨q.xid, ret, body⟩,
    .gotPdu q.cltNonce ⟨q.xid, ret, body⟩, .finish q.cltNonce q.xid]

/-- The steps with which the client `c` binds to the server. -/
def binding (c nonce : ℕ) : List RpcLabel :=
  .call c Rpcc.bindProc [] :: served ⟨1, Rpcc.bindProc, c, 0, 0, []⟩ 0 (packInt nonce) ++
    [.bound c 1]

/-! ## Inversion -/

/-- The steps of the system, by what they do. -/
inductive Move (s : RpcSystem) : RpcLabel → RpcSystem → Prop
  | refused {c proc : ℕ} {body : List UInt8} : Move s (.call c proc body) s
  | call {c proc : ℕ} {body : List UInt8} {q : Request} {cl : Rpcc}
      (hc : (s.clients c).call1 c proc body = .ok (q, cl)) :
      Move s (.call c proc body) { s.setClient c cl with requests := s.requests ++ [q] }
  | deliver {j : ℕ} {q : Request} (hq : q ∈ s.requests) :
      Move s (.deliver j q) (s.setJob j (some (.arrived q)))
  | oldsrv {j : ℕ} {q : Request} (hj : s.jobs j = some (.arrived q)) :
      Move s (.check j) (s.reply j q ⟨q.xid, RpcFailure.oldsrv_failure.code, []⟩)
  | unchecked {j : ℕ} {q : Request} (hj : s.jobs j = some (.arrived q)) (hq : q.cltNonce = 0) :
      Move s (.check j) (s.setJob j (some (.running q)))
  | new {j : ℕ} {q : Request} (hj : s.jobs j = some (.arrived q)) (hst : s.stateOf q = .NEW) :
      Move s (.check j)
        { (s.checked q).setJob j (some (.running q)) with admitted := s.admitted ++ [q.key] }
  | inProgress {j : ℕ} {q : Request} (hj : s.jobs j = some (.arrived q))
      (hst : s.stateOf q = .INPROGRESS) : Move s (.check j) ((s.checked q).setJob j none)
  | done {j : ℕ} {q : Request} {b : Buf} (hj : s.jobs j = some (.arrived q))
      (hst : s.stateOf q = .DONE b) :
      Move s (.check j) ((s.checked q).setJob j (some (.sending q b)))
  | forgotten {j : ℕ} {q : Request} (hj : s.jobs j = some (.arrived q))
      (hst : s.stateOf q = .FORGOTTEN) :
      Move s (.check j)
        ((s.checked q).reply j q ⟨q.xid, RpcFailure.atmostonce_failure.code, []⟩)
  | exec {j : ℕ} {q : Request} {ret : ℤ} {body : List UInt8}
      (hj : s.jobs j = some (.running q)) (hret : 0 ≤ ret) :
      Move s (.exec j ret body)
        { s.setJob j (some (.replied q ⟨s.nextBuf, ⟨q.xid, ret, body⟩⟩)) with
          nextBuf := s.nextBuf + 1
          execs := s.execs ++ [⟨q, ret, body⟩] }
  | addReply {j : ℕ} {q : Request} {b : Buf} (hj : s.jobs j = some (.replied q b)) :
      Move s (.addReply j)
        { s.setJob j (some (.sending q b)) with
          server := if 0 < q.cltNonce then s.server.addReply q.cltNonce q.xid b else s.server }
  | send {j : ℕ} {q : Request} {b : Buf} {garbage : RpcReply}
      (hj : s.jobs j = some (.sending q b)) : Move s (.send j garbage) (s.reply j q b.reply)
  | sendFreed {j : ℕ} {q : Request} {garbage : RpcReply} (hj : s.jobs j = some (.dangling q)) :
      Move s (.send j garbage) (s.reply j q garbage)
  | gotPdu {c : ℕ} {r : RpcReply} (hr : (c, r) ∈ s.replies) :
      Move s (.gotPdu c r) (s.setClient c ((s.clients c).gotPdu r))
  | finish {c xid : ℕ} {ca : Caller} (hca : (s.clients c).calls xid = some ca) :
      Move s (.finish c xid)
        { s.setClient c ((s.clients c).finish xid) with
          ended := s.ended ++ [⟨c, xid, (Rpcc.returned ca).1, (Rpcc.returned ca).2⟩] }
  | bound {c xid r : ℕ} : Move s (.bound c xid) (s.setClient c ((s.clients c).bound r))
  | cancel {c : ℕ} : Move s (.cancel c) (s.setClient c (s.clients c).cancel)

theorem handled_nonneg {s : RpcSystem} {q : Request} {ret : ℤ} {body : List UInt8}
    (h : s.handled q ret body = true) : 0 ≤ ret := by
  rw [handled] at h
  split_ifs at h with hp
  · rw [Bool.and_eq_true, beq_iff_eq] at h
    omega
  · exact of_decide_eq_true h

/-- **Every step is one of the moves.** -/
theorem move_of_step {s s' : RpcSystem} {l : RpcLabel} (h : Step s l s') : Move s l s' := by
  unfold Step at h
  cases l with
  | call c proc body =>
    rw [step] at h
    cases hc : (s.clients c).call1 c proc body with
    | error f =>
      rw [hc] at h
      obtain rfl := Option.some.inj h
      exact .refused
    | ok p =>
      obtain ⟨q, cl⟩ := p
      rw [hc] at h
      obtain rfl := Option.some.inj h
      exact .call hc
  | deliver j q =>
    rw [step] at h
    split_ifs at h with hq
    obtain rfl := Option.some.inj h
    exact .deliver hq.1
  | check j =>
    rw [step] at h
    split at h
    · next q hj =>
      obtain rfl := Option.some.inj h
      unfold dispatch
      split_ifs with hold hzero
      · exact .oldsrv hj
      · exact .unchecked hj hzero
      · split
        · next hst => exact .new hj hst
        · next hst => exact .inProgress hj hst
        · next b hst => exact .done hj hst
        · next hst => exact .forgotten hj hst
    · cases h
  | exec j ret body =>
    rw [step] at h
    split at h
    · next q hj =>
      split_ifs at h with hh
      obtain rfl := Option.some.inj h
      exact .exec hj (handled_nonneg hh)
    · cases h
  | addReply j =>
    rw [step] at h
    split at h
    · next q b hj =>
      obtain rfl := Option.some.inj h
      exact .addReply hj
    · cases h
  | send j garbage =>
    rw [step] at h
    split at h
    · next q b hj =>
      obtain rfl := Option.some.inj h
      exact .send hj
    · next q hj =>
      obtain rfl := Option.some.inj h
      exact .sendFreed hj
    · cases h
  | gotPdu c r =>
    rw [step] at h
    split_ifs at h with hr
    obtain rfl := Option.some.inj h
    exact .gotPdu hr
  | finish c xid =>
    rw [step] at h
    split at h
    · cases h
    · next ca hca =>
      obtain rfl := Option.some.inj h
      exact .finish hca
  | bound c xid =>
    rw [step] at h
    obtain ⟨r, -, rfl⟩ := Option.map_eq_some_iff.1 h
    exact .bound
  | cancel c =>
    obtain rfl := Option.some.inj h
    exact .cancel

/-! ## Where jobs come from -/

theorem jobs_setJob {s : RpcSystem} {j k : ℕ} {o : Option Job} {job : Job}
    (h : (s.setJob j o).jobs k = some job) :
    (k = j ∧ o = some job) ∨ (k ≠ j ∧ s.jobs k = some job) := by
  unfold setJob at h
  by_cases hk : k = j
  · subst hk
    exact .inl ⟨rfl, by simpa using h⟩
  · exact .inr ⟨hk, by simpa [hk] using h⟩

/-- The buffers that the classification of `q` frees. -/
def freedBy (s : RpcSystem) (q : Request) : List ℕ :=
  (s.server.checkduplicateAndUpdate q.cltNonce q.xid q.xidRep).2.1

theorem classifies_check {s : RpcSystem} {j : ℕ} {q : Request} (h : s.jobs j = some (.arrived q)) :
    q ∈ s.classifies (.check j) := by
  rw [classifies, h]
  rfl

theorem jobs_checked {s : RpcSystem} {q : Request} {k : ℕ} {job : Job}
    (h : (s.checked q).jobs k = some job) :
    ∃ job₀, s.jobs k = some job₀ ∧ job₀.afterFree (s.freedBy q) = job :=
  Option.map_eq_some_iff.1 h

/-- The specification of `checkduplicate_and_update`, for a request. -/
theorem classified (s : RpcSystem) (q : Request) :
    Rpcs.Classified s.server q.cltNonce q.xid q.xidRep (s.stateOf q) (s.freedBy q)
      (s.checked q).server :=
  s.server.checkduplicate_spec q.cltNonce q.xid q.xidRep

/-- Freed buffers matter to a job that is about to send one of them, and to no other. -/
theorem afterFree_cases (freed : List ℕ) (job : Job) :
    job.afterFree freed = job ∨
      ∃ q b, job = .sending q b ∧ b.id ∈ freed ∧ job.afterFree freed = .dangling q := by
  cases job with
  | sending q b =>
    rw [Job.afterFree]
    split_ifs with hb
    · exact .inr ⟨q, b, rfl, hb, rfl⟩
    · exact .inl rfl
  | _ => exact .inl rfl

theorem request_afterFree (freed : List ℕ) (job : Job) :
    (job.afterFree freed).request = job.request := by
  obtain h | ⟨q, b, rfl, -, h⟩ := afterFree_cases freed job
  · rw [h]
  · rw [h]
    rfl

theorem request_of_checked {s : RpcSystem} {q : Request} {k : ℕ} {job : Job}
    (h : (s.checked q).jobs k = some job) :
    ∃ job₀, s.jobs k = some job₀ ∧ job₀.request = job.request := by
  obtain ⟨job₀, h₀, rfl⟩ := jobs_checked h
  exact ⟨job₀, h₀, (request_afterFree _ _).symm⟩

/-- A job works on the request it has started with. -/
theorem request_of_move {s s' : RpcSystem} {l : RpcLabel} (h : Move s l s') {k : ℕ} {job : Job}
    (hk : s'.jobs k = some job) :
    (∃ job₀, s.jobs k = some job₀ ∧ job₀.request = job.request) ∨ job.request ∈ s.requests := by
  -- the job `j` goes on with the same request, after a step that keeps the other jobs' requests
  have hset : ∀ {s₁ : RpcSystem} {j : ℕ} {o : Option Job} {job₁ : Job}, s.jobs j = some job₁ →
      (∀ k' job', s₁.jobs k' = some job' →
        ∃ job₀, s.jobs k' = some job₀ ∧ job₀.request = job'.request) →
      (∀ job', o = some job' → job₁.request = job'.request) →
      (s₁.setJob j o).jobs k = some job →
      ∃ job₀, s.jobs k = some job₀ ∧ job₀.request = job.request := by
    intro s₁ j o job₁ hj hs₁ ho hk
    rcases jobs_setJob hk with ⟨rfl, hjob⟩ | ⟨-, hk⟩
    · exact ⟨job₁, hj, ho job hjob⟩
    · exact hs₁ k job hk
  have hself : ∀ k' job', s.jobs k' = some job' →
      ∃ job₀, s.jobs k' = some job₀ ∧ job₀.request = job'.request :=
    fun k' job' h' => ⟨job', h', rfl⟩
  have hchecked : ∀ q k' job', (s.checked q).jobs k' = some job' →
      ∃ job₀, s.jobs k' = some job₀ ∧ job₀.request = job'.request :=
    fun q k' job' h' => request_of_checked h'
  cases h with
  | refused | call | gotPdu | finish | bound | cancel => exact .inl (hself k job hk)
  | deliver hq =>
    rcases jobs_setJob hk with ⟨-, hjob⟩ | ⟨-, hk⟩
    · obtain rfl := Option.some.inj hjob
      exact .inr hq
    · exact .inl (hself k job hk)
  | oldsrv hj => exact .inl (hset hj hself (by simp) hk)
  | unchecked hj => exact .inl (hset hj hself (by simp [Job.request]) hk)
  | new hj => exact .inl (hset hj (hchecked _) (by simp [Job.request]) hk)
  | inProgress hj => exact .inl (hset hj (hchecked _) (by simp) hk)
  | done hj => exact .inl (hset hj (hchecked _) (by simp [Job.request]) hk)
  | forgotten hj => exact .inl (hset hj (hchecked _) (by simp) hk)
  | exec hj => exact .inl (hset hj hself (by simp [Job.request]) hk)
  | addReply hj => exact .inl (hset hj hself (by simp [Job.request]) hk)
  | send hj => exact .inl (hset hj hself (by simp) hk)
  | sendFreed hj => exact .inl (hset hj hself (by simp) hk)

/-- Jobs are dispatches of requests, and requests have the nonce of a client. -/
structure Delivered (s : RpcSystem) : Prop where
  nonce : ∀ q ∈ s.requests, q.cltNonce ≠ 0
  job : ∀ k job, s.jobs k = some job → job.request ∈ s.requests

theorem delivered_init (nonce : ℕ) : Delivered (init nonce) :=
  ⟨by simp [init], by simp [init]⟩

/-- The requests grow by the one that a call has built. -/
theorem requests_of_move {s s' : RpcSystem} {l : RpcLabel} (h : Move s l s') :
    s'.requests = s.requests ∨ ∃ c proc body q cl, l = .call c proc body ∧
      (s.clients c).call1 c proc body = .ok (q, cl) ∧ s'.requests = s.requests ++ [q] := by
  cases h with
  | call hc => exact .inr ⟨_, _, _, _, _, rfl, hc, rfl⟩
  | _ => exact .inl rfl

theorem delivered_step {s s' : RpcSystem} {l : RpcLabel} (hs : Delivered s) (hb : Bounded s l)
    (h : Move s l s') : Delivered s' := by
  have hjob : ∀ k job, s'.jobs k = some job → job.request ∈ s.requests := by
    intro k job hk
    rcases request_of_move h hk with ⟨job₀, h₀, hreq⟩ | hmem
    · rw [← hreq]
      exact hs.job k job₀ h₀
    · exact hmem
  rcases requests_of_move h with hreq | ⟨c, proc, body, q, cl, rfl, hc, hreq⟩
  · exact ⟨by rw [hreq]; exact hs.nonce, by rw [hreq]; exact hjob⟩
  · refine ⟨?_, fun k job hk => ?_⟩
    · intro q' hq'
      rw [hreq] at hq'
      rcases List.mem_append.1 hq' with hq' | hq'
      · exact hs.nonce q' hq'
      · rw [List.mem_singleton.1 hq', (Rpcc.call1_ok hc).1]
        exact hb.1
    · rw [hreq]
      exact List.mem_append_left _ (hjob k job hk)

end RpcSystem
