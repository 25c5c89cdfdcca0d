/-
# References to connections (`rpc/rpc.cc`, `rpc/connection.cc`)

A `connection` counts its references in `refno_`.  On the server they are held by

* the listener: `tcpsconn::conns_` has every connection from its construction on;
* the jobs of `rpcs::dispatch`: `got_pdu` takes a reference for the job it creates and gives it back
  when the pool refuses the job, `dispatch` gives it back at its end;
* `rpcs::conns_`, the latest connection of every client nonce.

`process_accept` deletes the dead connections that only the listener refers to.

Every critical section of `ref_m_`, that is every `incref` and `decref`, is a step of its own.  Between
two of them `dispatch` may hold `conss_m_`: it does in the phases that are `halfway`, and in no others.
The PDUs are arbitrary bytes, and a connection may die at any moment.  A connection is its address;
addresses of deleted connections are used again.

* The results of the handlers are labels.  What is sent, and the reply window beyond the classification
  of requests, has no part in the counts.
* `VERIFY(0)` and a failed `VERIFY` stop the process (`aborted`), and so does the use of a null pointer
  or of a deleted connection (`segv`).
* `reachable_` is true, and the destructors of `rpcs` and `tcpsconn` are left out.
-/
import Yfs.DecodeBounds
import Yfs.Rpcs
import Yfs.Trace

/-- The request in the bytes of a PDU, unless they end within the header. -/
def Request.ofPdu (b : Str) : Option Request :=
  match Unmarshall.unpackReqHeader (Unmarshall.ofBuf b) with
  | some (h, u) =>
    if u.ok then
      some ⟨h.xid.toUInt32.toNat, h.proc.toUInt32.toNat, h.cltNonce.toNat, h.srvNonce.toNat,
        h.xidRep.toUInt32.toNat, b.drop rpcHeaderSz⟩
    else none
  | none => none

namespace Dispatcher

/-- What a `connection` has to do with references: `create_time_`, `refno_` and `dead_`. -/
structure Conn where
  sec : ℤ
  usec : ℤ
  refno : ℕ
  dead : Bool
  deriving DecidableEq, Repr

/-- `connection::compare`. -/
def Conn.compare (a another : Conn) : ℤ :=
  if a.sec > another.sec then 1
  else if a.sec < another.sec then -1
  else if a.usec > another.usec then 1
  else if a.usec < another.usec then -1
  else 0

/-- Where a job stands.  The phases `increfed`, `decrefed`, `exchanged` and `released` are inside a
critical section of `conss_m_`. -/
inductive Phase
  /-- `got_pdu` has created the job and counted its reference -/
  | offered (b : Str)
  /-- in the queue of the pool -/
  | queued (b : Str)
  /-- before the first critical section of `conss_m_` -/
  | recording (q : Request)
  /-- the client is new, and the connection has been counted for it -/
  | increfed (q : Request)
  /-- the client has an older connection, which has lost its reference -/
  | decrefed (q : Request) (old : ℕ)
  /-- and the connection has been counted in its place -/
  | exchanged (q : Request) (old : ℕ)
  /-- before `checkduplicate_and_update` -/
  | checking (q : Request)
  /-- before the handler -/
  | handling (q : Request)
  /-- before `add_reply` -/
  | replied (q : Request) (b : Buf)
  /-- before the second critical section of `conss_m_` -/
  | choosing (q : Request) (b : Buf)
  /-- the reference to the dead connection has been given back -/
  | released (q : Request) (b : Buf)
  /-- before `send` -/
  | sending (r : RpcReply)
  /-- before the last `decref` -/
  | leaving
  deriving DecidableEq, Repr

/-- `djob_t`, and later the local variable `c` of `dispatch`. -/
structure Djob where
  conn : ℕ
  phase : Phase
  deriving DecidableEq, Repr

/-- The job holds `conss_m_`. -/
def Djob.halfway (j : Djob) : Bool :=
  match j.phase with
  | .increfed _ | .decrefed _ _ | .exchanged _ _ | .released _ _ => true
  | _ => false

/-- Where the thread of the listener stands in `process_accept`: the new connection, and the rest of
the table; `collecting` after the test and before the `decref`. -/
inductive Accept
  | idle
  | scanning (ch : ℕ) (rest : List ℕ)
  | collecting (ch c : ℕ) (rest : List ℕ)
  deriving DecidableEq, Repr

inductive Fate
  | up
  | aborted
  | segv
  deriving DecidableEq, Repr

/-- The steps. -/
inductive Label
  | accept (ch : ℕ) (sec usec : ℤ)
  | visit
  | die (c : ℕ)
  | gotPdu (c : ℕ) (b : Str)
  | addObjJob (j : Djob) (succ : Bool)
  | work (j : Djob)
  | exec (j : Djob) (ret : ℤ) (body : Str)
  deriving DecidableEq, Repr

end Dispatcher

open Dispatcher in
/-- An `rpcs` with its listener: the connections by their addresses, `tcpsconn::conns_`, the thread of
the listener, `rpcs::conns_`, the reply window, the registered procedures and the jobs. -/
structure Dispatcher where
  conn : ℕ → Option Conn
  table : List ℕ
  thread : Accept
  conns : AList (fun _ : ℕ => Option ℕ)
  server : Rpcs
  procs : List ℕ
  jobs : List Djob
  nextBuf : ℕ
  fate : Fate

namespace Dispatcher

/-- Before the first connection. -/
def init (nonce : ℕ) (procs : List ℕ) : Dispatcher where
  conn := fun _ => none
  table := []
  thread := .idle
  conns := ∅
  server := { nonce := nonce }
  procs := procs
  jobs := []
  nextBuf := 0
  fate := .up

def setConn (s : Dispatcher) (c : ℕ) (k : Option Conn) : Dispatcher :=
  { s with conn := Function.update s.conn c k }

def crash (s : Dispatcher) : Dispatcher := { s with fate := .segv }

/-- A failed `VERIFY`. -/
def abort (s : Dispatcher) : Dispatcher :=
  { s with fate := if s.fate = .segv then .segv else .aborted }

def incref (s : Dispatcher) (c : ℕ) : Dispatcher :=
  match s.conn c with
  | none => s.crash
  | some k => s.setConn c (some { k with refno := k.refno + 1 })

def decref (s : Dispatcher) (c : ℕ) : Dispatcher :=
  match s.conn c with
  | none => s.crash
  | some k =>
    if k.refno = 0 then s.abort
    else if k.refno = 1 ∧ k.dead then s.setConn c none
    else s.setConn c (some { k with refno := k.refno - 1 })

/-- The job goes on. -/
def replace (s : Dispatcher) (j j' : Djob) : Dispatcher := { s with jobs := j' :: s.jobs.erase j }

/-- The job is deleted, or `dispatch` returns. -/
def finish (s : Dispatcher) (j : Djob) : Dispatcher := { s with jobs := s.jobs.erase j }

/-- A member function of the connection is called: the result if the connection exists. -/
def calling (s : Dispatcher) (c : ℕ) (s' : Dispatcher) : Dispatcher :=
  match s.conn c with
  | none => s.crash
  | some _ => s'

/-- `conss_m_` is taken. -/
def locked (s : Dispatcher) : Bool := s.jobs.any Djob.halfway

/-- `conns_[n]` as a value. -/
def connOf (s : Dispatcher) (n : ℕ) : Option ℕ := (s.conns.lookup n).getD none

/-- What evaluating `conns_[n]` leaves. -/
def touch (s : Dispatcher) (n : ℕ) : Dispatcher :=
  { s with conns := if n ∈ s.conns then s.conns else s.conns.insert n none }

/-- `dispatch` up to the check for a known client. -/
def begin (s : Dispatcher) (j : Djob) (b : Str) : Dispatcher :=
  match Request.ofPdu b with
  | none => (s.finish j).decref j.conn
  | some q =>
    if q.srvNonce ≠ 0 ∧ q.srvNonce ≠ s.server.nonce then
      -- the reply is sent, and `dispatch` returns without a `decref`
      s.calling j.conn (s.finish j)
    else if q.proc ∉ s.procs then ((s.finish j).decref j.conn).abort
    else if q.cltNonce ≠ 0 then s.replace j ⟨j.conn, .recording q⟩
    else s.replace j ⟨j.conn, .handling q⟩

/-- The first critical section of `conss_m_`, up to its first count. -/
def record (s : Dispatcher) (j : Djob) (q : Request) : Dispatcher :=
  match s.conns.lookup q.cltNonce with
  | none => (s.replace j ⟨j.conn, .increfed q⟩).incref j.conn
  | some none => s.crash
  | some (some old) =>
    match s.conn old, s.conn j.conn with
    | some k, some k' =>
      if k.compare k' < 0 then (s.replace j ⟨j.conn, .decrefed q old⟩).decref old
      else s.replace j ⟨j.conn, .checking q⟩
    | _, _ => s.crash

/-- `conns_[h.clt_nonce] = c`, and the end of the critical section. -/
def assign (s : Dispatcher) (j : Djob) (q : Request) : Dispatcher :=
  { s.replace j ⟨j.conn, .checking q⟩ with conns := s.conns.insert q.cltNonce (some j.conn) }

/-- `checkduplicate_and_update` and the `switch`. -/
def check (s : Dispatcher) (j : Djob) (q : Request) : Dispatcher :=
  let (stat, _, server) := s.server.checkduplicateAndUpdate q.cltNonce q.xid q.xidRep
  { s.replace j ⟨j.conn,
      match stat with
      | .NEW => .handling q
      | .INPROGRESS => .leaving
      | .DONE b => .sending b.reply
      | .FORGOTTEN => .sending ⟨q.xid, RpcFailure.atmostonce_failure.code, []⟩⟩ with
    server := server }

/-- The second critical section of `conss_m_`, up to its first count. -/
def choose (s : Dispatcher) (j : Djob) (q : Request) (b : Buf) : Dispatcher :=
  match s.conn j.conn with
  | none => s.crash
  | some k =>
    if k.dead then
      if s.connOf q.cltNonce ≠ some j.conn then
        ((s.touch q.cltNonce).replace j ⟨j.conn, .released q b⟩).decref j.conn
      else (s.touch q.cltNonce).replace j ⟨j.conn, .sending b.reply⟩
    else s.replace j ⟨j.conn, .sending b.reply⟩

/-- `c = conns_[h.clt_nonce]; c->incref()`. -/
def exchange (s : Dispatcher) (j : Djob) (q : Request) (b : Buf) : Dispatcher :=
  match s.connOf q.cltNonce with
  | none => s.crash
  | some c => (s.replace j ⟨c, .sending b.reply⟩).incref c

/-- The next step of a job, apart from `addObjJob` and the handler. -/
def work (s : Dispatcher) (j : Djob) : Option Dispatcher :=
  match j.phase with
  | .queued b => some (s.begin j b)
  | .recording q => if s.locked then none else some (s.record j q)
  | .increfed q => some (s.assign j q)
  | .decrefed q old => some ((s.replace j ⟨j.conn, .exchanged q old⟩).incref j.conn)
  | .exchanged q _ => some (s.assign j q)
  | .checking q => some (s.check j q)
  | .replied q b =>
    some { s.replace j ⟨j.conn, .choosing q b⟩ with
      server := if 0 < q.cltNonce then s.server.addReply q.cltNonce q.xid b else s.server }
  | .choosing q b => if s.locked then none else some (s.choose j q b)
  | .released q b => some (s.exchange j q b)
  | .sending _ => some (s.calling j.conn (s.replace j ⟨j.conn, .leaving⟩))
  | .leaving => some ((s.finish j).decref j.conn)
  | .offered _ | .handling _ => none

/-- The loop of `process_accept` goes on by one critical section. -/
def visit (s : Dispatcher) : Option Dispatcher :=
  match s.thread with
  | .idle => none
  | .scanning ch [] => some { s with table := ch :: s.table, thread := .idle }
  | .scanning ch (c :: rest) =>
    match s.conn c with
    | none => some s.crash
    | some k =>
      -- `dead_` is never reset, so that the two tests are one
      if k.dead ∧ k.refno = 1 then some { s with thread := .collecting ch c rest }
      else some { s with thread := .scanning ch rest }
  | .collecting ch c rest =>
    some { s.decref c with table := s.table.erase c, thread := .scanning ch rest }

/-- The step with the label, if it can be made. -/
def next (s : Dispatcher) : Label → Option Dispatcher
  | .accept ch sec usec =>
    if s.thread = .idle ∧ s.conn ch = none then
      some { s.setConn ch (some ⟨sec, usec, 1, false⟩) with thread := .scanning ch s.table }
    else none
  | .visit => s.visit
  | .die c => (s.conn c).map (fun k => s.setConn c (some { k with dead := true }))
  | .gotPdu c b =>
    match s.conn c with
    | none => none
    -- `read_cb` returns at once when the connection is dead
    | some k => if k.dead then none else some ({ s with jobs := ⟨c, .offered b⟩ :: s.jobs }.incref c)
  | .addObjJob j succ =>
    match j.phase with
    | .offered b =>
      if j ∉ s.jobs then none
      else if succ then some (s.replace j ⟨j.conn, .queued b⟩)
      else some ((s.finish j).decref j.conn)
    | _ => none
  | .work j => if j ∈ s.jobs then s.work j else none
  | .exec j ret body =>
    match j.phase with
    | .handling q =>
      if j ∉ s.jobs then none
      else if ret < 0 then some s.abort
      else some { s.replace j ⟨j.conn, .replied q ⟨s.nextBuf, ⟨q.xid, ret, body⟩⟩⟩ with
        nextBuf := s.nextBuf + 1 }
    | _ => none

/-- The steps of a process that runs. -/
def step (s : Dispatcher) (l : Label) : Option Dispatcher :=
  if s.fate = .up then s.next l else none

/-- One step. -/
def Step (s : Dispatcher) (l : Label) (s' : Dispatcher) : Prop := s.step l = some s'

/-! ## What is counted -/

/-- The number of jobs that refer to the connection. -/
def holders (s : Dispatcher) (c : ℕ) : ℕ := s.jobs.countP (fun j => j.conn == c)

/-- The connection is the value of some nonce in `rpcs::conns_`. -/
def recorded (s : Dispatcher) (c : ℕ) : Bool := s.conns.entries.any (fun e => e.2 == some c)

/-- The number of these nonces. -/
def named (s : Dispatcher) (c : ℕ) : ℕ := s.conns.entries.countP (fun e => e.2 == some c)

/-- The references to `c` that a job has taken and not given back.  In the phases `decrefed` and
`exchanged` this includes the reference of `conns_` to the old connection, which it still names. -/
def Djob.weight (j : Djob) (c : ℕ) : ℤ :=
  match j.phase with
  | .increfed _ => 2 * if j.conn = c then 1 else 0
  | .decrefed _ old => (if j.conn = c then 1 else 0) - if old = c then 1 else 0
  | .exchanged _ old => (2 * if j.conn = c then 1 else 0) - if old = c then 1 else 0
  | .released _ _ => 0
  | _ => if j.conn = c then 1 else 0

/-- The entry of `conns_` whose reference the job has given back. -/
def Djob.debt (j : Djob) (c : ℕ) : ℤ :=
  match j.phase with
  | .decrefed _ old | .exchanged _ old => if old = c then 1 else 0
  | _ => 0

def load (s : Dispatcher) (c : ℕ) : ℤ := (s.jobs.map (fun j => j.weight c)).sum

/-- The references to `c` beside the one of the listener. -/
def excess (s : Dispatcher) (c : ℕ) : ℤ := (s.conn c).elim 0 (fun k => k.refno - 1)

/-- Every reference is one of a job or of a nonce. -/
def Counted (s : Dispatcher) : Prop := ∀ c, s.excess c = s.load c + s.named c

section Counts

variable {s : Dispatcher} {c : ℕ} {j : Djob}

theorem weight_of_not_halfway (h : j.halfway = false) (c : ℕ) :
    j.weight c = if j.conn = c then 1 else 0 := by
  unfold Djob.halfway at h
  unfold Djob.weight
  split at h <;> simp_all

theorem debt_of_not_halfway (h : j.halfway = false) (c : ℕ) : j.debt c = 0 := by
  unfold Djob.halfway at h
  unfold Djob.debt
  split at h <;> simp_all

/-- Without its debt a job counts for nothing or more, and for something at its own connection. -/
theorem weight_add_debt_nonneg (j : Djob) (c : ℕ) : 0 ≤ j.weight c + j.debt c := by
  unfold Djob.weight Djob.debt
  cases j.phase with
  | released q b => exact le_rfl
  | _ =>
    dsimp only
    split_ifs <;> omega

theorem one_le_weight_add_debt (hj : ∀ q b, j.phase ≠ .released q b) :
    1 ≤ j.weight j.conn + j.debt j.conn := by
  unfold Djob.weight Djob.debt
  cases hp : j.phase with
  | released q b => exact absurd hp (hj q b)
  | _ =>
    dsimp only
    rw [if_pos rfl]
    omega

theorem load_erase (hj : j ∈ s.jobs) (c : ℕ) :
    s.load c = j.weight c + ((s.jobs.erase j).map (fun i => i.weight c)).sum := by
  rw [load, ((List.perm_cons_erase hj).map _).sum_eq, List.map_cons, List.sum_cons]

theorem load_finish (hj : j ∈ s.jobs) (c : ℕ) : (s.finish j).load c = s.load c - j.weight c := by
  have hload := load_erase hj c
  show ((s.jobs.erase j).map (fun i => i.weight c)).sum = _
  omega

theorem load_replace (hj : j ∈ s.jobs) (j' : Djob) (c : ℕ) :
    (s.replace j j').load c = s.load c - j.weight c + j'.weight c := by
  have hload := load_erase hj c
  show ((j' :: s.jobs.erase j).map (fun i => i.weight c)).sum = _
  rw [List.map_cons, List.sum_cons]
  omega

theorem excess_setConn {k k' : Conn} (hk : s.conn c = some k) (c' : ℕ) :
    (s.setConn c (some k')).excess c' =
      s.excess c' + if c = c' then (k'.refno - k.refno : ℤ) else 0 := by
  unfold excess setConn
  by_cases hc : c = c'
  · subst hc
    simp [hk]
  · simp [hc, Ne.symm hc]

/-- A connection that only the listener refers to comes or goes. -/
theorem excess_setConn_alone {o : Option Conn}
    (h : s.excess c = o.elim 0 (fun k => (k.refno : ℤ) - 1)) (c' : ℕ) :
    (s.setConn c o).excess c' = s.excess c' := by
  show (Function.update s.conn c o c').elim 0 _ = s.excess c'
  by_cases hc : c' = c
  · subst hc
    rw [Function.update_self, h]
  · rw [Function.update_of_ne hc, excess]

/-- A connection with a reference beside the one of the listener exists. -/
theorem exists_of_excess (h : 1 ≤ s.excess c) : ∃ k, s.conn c = some k ∧ 2 ≤ k.refno := by
  unfold excess at h
  cases hk : s.conn c with
  | none => simp [hk] at h
  | some k =>
    rw [hk, Option.elim_some] at h
    exact ⟨k, rfl, by omega⟩

theorem excess_of_conn {k : Conn} (hk : s.conn c = some k) : s.excess c = k.refno - 1 := by
  rw [excess, hk, Option.elim_some]

theorem one_le_named {n : ℕ} (h : s.conns.lookup n = some (some c)) : 1 ≤ s.named c := by
  have hmem : (⟨n, some c⟩ : Sigma fun _ : ℕ => Option ℕ) ∈ s.conns.entries :=
    AList.mem_lookup_iff.1 h
  exact List.countP_pos_iff.2 ⟨_, hmem, by simp⟩

/-- A new nonce. -/
theorem countP_insert_of_notMem {m : AList (fun _ : ℕ => Option ℕ)} {n : ℕ} (h : n ∉ m)
    (v : Option ℕ) (p : Sigma (fun _ : ℕ => Option ℕ) → Bool) :
    (m.insert n v).entries.countP p = m.entries.countP p + if p ⟨n, v⟩ then 1 else 0 := by
  rw [AList.entries_insert_of_notMem h, List.countP_cons]

/-- Another value for a nonce. -/
theorem countP_insert_of_lookup {m : AList (fun _ : ℕ => Option ℕ)} {n : ℕ} {v₀ : Option ℕ}
    (h : m.lookup n = some v₀) (v : Option ℕ) (p : Sigma (fun _ : ℕ => Option ℕ) → Bool) :
    ((m.insert n v).entries.countP p + if p ⟨n, v₀⟩ then 1 else 0) =
      m.entries.countP p + if p ⟨n, v⟩ then 1 else 0 := by
  have hmem : n ∈ m := AList.lookup_isSome.1 (by rw [h]; rfl)
  obtain ⟨v', l₁, l₂, -, hl, hk⟩ := List.exists_of_kerase (show n ∈ m.entries.keys from hmem)
  obtain rfl : v' = v₀ := by
    have hv' : m.lookup n = some v' := AList.mem_lookup_iff.2 (by rw [hl]; simp)
    exact Option.some.inj (hv'.symm.trans h)
  rw [AList.entries_insert, List.countP_cons, hk, hl]
  simp only [List.countP_append, List.countP_cons]
  omega

end Counts

/-! ## Inversion -/

/-- What a job knows of `conns_` in its phase. -/
def Djob.Ok (conns : AList (fun _ : ℕ => Option ℕ)) (j : Djob) : Prop :=
  match j.phase with
  | .offered _ | .queued _ | .sending _ | .leaving => True
  | .recording q => q.cltNonce ≠ 0
  | .increfed q => q.cltNonce ≠ 0 ∧ q.cltNonce ∉ conns
  | .decrefed q old | .exchanged q old =>
    q.cltNonce ≠ 0 ∧ conns.lookup q.cltNonce = some (some old)
  | .checking q | .released q _ => q.cltNonce ∈ conns
  | .handling q | .replied q _ | .choosing q _ => q.cltNonce ≠ 0 → q.cltNonce ∈ conns

/-- At most one job holds `conss_m_`, and no nonce in `conns_` is 0 or has a null connection. -/
structure Working (s : Dispatcher) : Prop where
  mutex : s.jobs.countP Djob.halfway ≤ 1
  ok : ∀ j ∈ s.jobs, j.Ok s.conns
  entries : ∀ n v, s.conns.lookup n = some v → n ≠ 0 ∧ v ≠ none

/-- The connection that `process_accept` has just constructed. -/
def Accept.fresh : Accept → Option ℕ
  | idle => none
  | scanning ch _ | collecting ch _ _ => some ch

/-- The connections that the loop of `process_accept` has not finished with. -/
def Accept.pending : Accept → List ℕ
  | idle => []
  | scanning _ rest => rest
  | collecting _ c rest => c :: rest

/-- The listener has all connections, and collects those that are dead and have no other reference. -/
structure Listening (s : Dispatcher) : Prop where
  listed : ∀ c, (s.conn c).isSome ↔ c ∈ s.table ∨ s.thread.fresh = some c
  nodup : s.table.Nodup
  fresh : ∀ ch, s.thread.fresh = some ch → ch ∉ s.table
  pending : s.thread.pending.Nodup ∧ ∀ c ∈ s.thread.pending, c ∈ s.table
  marked : ∀ ch c rest, s.thread = .collecting ch c rest →
    ∃ k, s.conn c = some k ∧ k.dead = true ∧ k.refno = 1

/-- The steps, by what they do. -/
inductive Move (s : Dispatcher) : Label → Dispatcher → Prop
  | accept {ch : ℕ} {sec usec : ℤ} (hidle : s.thread = .idle) (hnone : s.conn ch = none) :
      Move s (.accept ch sec usec)
        { s.setConn ch (some ⟨sec, usec, 1, false⟩) with thread := .scanning ch s.table }
  | listed {ch : ℕ} (ht : s.thread = .scanning ch []) :
      Move s .visit { s with table := ch :: s.table, thread := .idle }
  | skip {ch c : ℕ} {rest : List ℕ} (ht : s.thread = .scanning ch (c :: rest)) :
      Move s .visit { s with thread := .scanning ch rest }
  | mark {ch c : ℕ} {rest : List ℕ} {k : Conn} (ht : s.thread = .scanning ch (c :: rest))
      (hk : s.conn c = some k) (hdead : k.dead = true) (hone : k.refno = 1) :
      Move s .visit { s with thread := .collecting ch c rest }
  | collect {ch c : ℕ} {rest : List ℕ} {k : Conn} (ht : s.thread = .collecting ch c rest)
      (hk : s.conn c = some k) (hone : k.refno = 1) :
      Move s .visit
        { s.setConn c none with table := s.table.erase c, thread := .scanning ch rest }
  | die {c : ℕ} {k : Conn} (hk : s.conn c = some k) :
      Move s (.die c) (s.setConn c (some { k with dead := true }))
  | gotPdu {c : ℕ} {b : Str} {k : Conn} (hk : s.conn c = some k) (hdead : k.dead = false) :
      Move s (.gotPdu c b)
        ({ s with jobs := ⟨c, .offered b⟩ :: s.jobs }.setConn c
          (some { k with refno := k.refno + 1 }))
  | go {l : Label} {j : Djob} {p : Phase} {server : Rpcs} {nextBuf : ℕ} (hj : j ∈ s.jobs)
      (hh : j.halfway = false) (hh' : (⟨j.conn, p⟩ : Djob).halfway = false)
      (hok : (⟨j.conn, p⟩ : Djob).Ok s.conns) :
      Move s l { s.replace j ⟨j.conn, p⟩ with server := server, nextBuf := nextBuf }
  | leave {l : Label} {j : Djob} {k : Conn} {fate : Fate} (hj : j ∈ s.jobs)
      (hh : j.halfway = false) (hk : s.conn j.conn = some k) (hheld : 2 ≤ k.refno)
      (hfate : fate ≠ .segv) :
      Move s l { (s.finish j).setConn j.conn (some { k with refno := k.refno - 1 }) with
        fate := fate }
  | increfed {j : Djob} {q : Request} {k : Conn} (hj : j ∈ s.jobs)
      (hp : j.phase = .recording q) (hlock : s.locked = false) (hnew : q.cltNonce ∉ s.conns)
      (hk : s.conn j.conn = some k) (hheld : 2 ≤ k.refno) :
      Move s (.work j) ((s.replace j ⟨j.conn, .increfed q⟩).setConn j.conn
        (some { k with refno := k.refno + 1 }))
  | decrefed {j : Djob} {q : Request} {old : ℕ} {k : Conn} (hj : j ∈ s.jobs)
      (hp : j.phase = .recording q) (hlock : s.locked = false)
      (hold : s.conns.lookup q.cltNonce = some (some old)) (hk : s.conn old = some k)
      (hheld : 2 ≤ k.refno) :
      Move s (.work j) ((s.replace j ⟨j.conn, .decrefed q old⟩).setConn old
        (some { k with refno := k.refno - 1 }))
  | exchanged {j : Djob} {q : Request} {old : ℕ} {k : Conn} (hj : j ∈ s.jobs)
      (hp : j.phase = .decrefed q old) (hk : s.conn j.conn = some k) (hheld : 2 ≤ k.refno) :
      Move s (.work j) ((s.replace j ⟨j.conn, .exchanged q old⟩).setConn j.conn
        (some { k with refno := k.refno + 1 }))
  | assign {j : Djob} {q : Request} (hj : j ∈ s.jobs)
      (hp : j.phase = .increfed q ∨ ∃ old, j.phase = .exchanged q old) :
      Move s (.work j) (s.assign j q)
  | released {j : Djob} {q : Request} {b : Buf} {k : Conn} (hj : j ∈ s.jobs)
      (hp : j.phase = .choosing q b) (hlock : s.locked = false) (hknown : q.cltNonce ∈ s.conns)
      (hk : s.conn j.conn = some k) (hheld : 2 ≤ k.refno) :
      Move s (.work j) ((s.replace j ⟨j.conn, .released q b⟩).setConn j.conn
        (some { k with refno := k.refno - 1 }))
  | swapped {j : Djob} {q : Request} {b : Buf} {c : ℕ} {k : Conn} (hj : j ∈ s.jobs)
      (hp : j.phase = .released q b) (hk : s.conn c = some k) (hheld : 2 ≤ k.refno) :
      Move s (.work j) ((s.replace j ⟨c, .sending b.reply⟩).setConn c
        (some { k with refno := k.refno + 1 }))
  | stop {l : Label} : Move s l { s with fate := .aborted }

section Held

variable {s : Dispatcher} {c : ℕ} {j : Djob}

theorem Working.others (hw : Working s) (hj : j ∈ s.jobs) (hh : j.halfway = true) :
    ∀ i ∈ s.jobs.erase j, i.halfway = false := by
  have hcount := hw.mutex
  rw [(List.perm_cons_erase hj).countP_eq, List.countP_cons_of_pos hh] at hcount
  have hzero : (s.jobs.erase j).countP Djob.halfway = 0 := by omega
  intro i hi
  simpa using List.countP_eq_zero.1 hzero i hi

theorem not_halfway_of_not_locked (h : s.locked = false) : ∀ i ∈ s.jobs, i.halfway = false := by
  simpa [locked] using h

/-- An entry of `conns_` that has lost its reference still counts as one. -/
theorem Working.debt_le_named (hw : Working s) (c : ℕ) :
    (s.jobs.map (fun i => i.debt c)).sum ≤ s.named c := by
  by_cases hdebt : ∃ i ∈ s.jobs, i.debt c ≠ 0
  · obtain ⟨i, hi, hd⟩ := hdebt
    have hhalf : i.halfway = true := by
      by_contra hno
      exact hd (debt_of_not_halfway (by simpa using hno) c)
    have hrest : ((s.jobs.erase i).map (fun i => i.debt c)).sum = 0 := by
      refine List.sum_eq_zero ?_
      intro x hx
      obtain ⟨i', hi', rfl⟩ := List.mem_map.1 hx
      exact debt_of_not_halfway (hw.others hi hhalf i' hi') c
    have hone : i.debt c = 1 ∧ ∃ n, s.conns.lookup n = some (some c) := by
      have hok := hw.ok i hi
      unfold Djob.debt at hd ⊢
      unfold Djob.Ok at hok
      split at hd
      · next q old hp =>
        rw [hp] at hok
        obtain rfl : old = c := by simpa using hd
        exact ⟨by simp, _, hok.2⟩
      · next q old hp =>
        rw [hp] at hok
        obtain rfl : old = c := by simpa using hd
        exact ⟨by simp, _, hok.2⟩
      · exact absurd rfl hd
    obtain ⟨hd1, n, hn⟩ := hone
    have hnamed := one_le_named hn
    rw [((List.perm_cons_erase hi).map _).sum_eq, List.map_cons, List.sum_cons, hrest, hd1]
    omega
  · push Not at hdebt
    have hzero : (s.jobs.map (fun i => i.debt c)).sum = 0 := by
      refine List.sum_eq_zero ?_
      intro x hx
      obtain ⟨i, hi, rfl⟩ := List.mem_map.1 hx
      exact hdebt i hi
    omega

theorem Counted.le_excess (hc : Counted s) (hw : Working s) (c : ℕ) :
    (s.jobs.map (fun i => i.weight c + i.debt c)).sum ≤ s.excess c := by
  have hdebt := hw.debt_le_named c
  rw [hc c, List.sum_map_add]
  unfold load
  omega

/-- **A job's connection exists**, outside the second critical section. -/
theorem Counted.held (hc : Counted s) (hw : Working s) (hj : j ∈ s.jobs)
    (hp : ∀ q b, j.phase ≠ .released q b) : ∃ k, s.conn j.conn = some k ∧ 2 ≤ k.refno := by
  apply exists_of_excess
  calc (1 : ℤ) ≤ j.weight j.conn + j.debt j.conn := one_le_weight_add_debt hp
    _ ≤ (s.jobs.map (fun i => i.weight j.conn + i.debt j.conn)).sum := by
      refine List.single_le_sum ?_ _ (List.mem_map_of_mem hj)
      intro x hx
      obtain ⟨i, -, rfl⟩ := List.mem_map.1 hx
      exact weight_add_debt_nonneg i _
    _ ≤ s.excess j.conn := hc.le_excess hw _

theorem Counted.held_of_not_halfway (hc : Counted s) (hw : Working s) (hj : j ∈ s.jobs)
    (hh : j.halfway = false) : ∃ k, s.conn j.conn = some k ∧ 2 ≤ k.refno := by
  refine hc.held hw hj ?_
  intro q b hp
  simp [Djob.halfway, hp] at hh

/-- **The latest connection of a client exists**, when no job has given its reference back. -/
theorem Counted.latest (hc : Counted s) {n : ℕ} (hn : s.conns.lookup n = some (some c))
    (hdebt : ∀ i ∈ s.jobs, i.debt c = 0) : ∃ k, s.conn c = some k ∧ 2 ≤ k.refno := by
  apply exists_of_excess
  have hnamed := one_le_named hn
  have hload : 0 ≤ s.load c := by
    refine List.sum_nonneg ?_
    intro x hx
    obtain ⟨i, hi, rfl⟩ := List.mem_map.1 hx
    have hnonneg := weight_add_debt_nonneg i c
    rw [hdebt i hi] at hnonneg
    omega
  rw [hc c]
  omega

theorem incref_of_conn {k : Conn} (hk : s.conn c = some k) :
    s.incref c = s.setConn c (some { k with refno := k.refno + 1 }) := by
  rw [incref, hk]

theorem decref_of_held {k : Conn} (hk : s.conn c = some k) (hheld : 2 ≤ k.refno) :
    s.decref c = s.setConn c (some { k with refno := k.refno - 1 }) := by
  rw [decref, hk]
  dsimp only
  rw [if_neg (by omega), if_neg (by omega)]

theorem calling_of_conn {k : Conn} (hk : s.conn c = some k) (s' : Dispatcher) :
    s.calling c s' = s' := by
  rw [calling, hk]

theorem touch_of_mem {n : ℕ} (h : n ∈ s.conns) : s.touch n = s := by
  rw [touch, if_pos h]

/-- A known client has a connection. -/
theorem Working.lookup_of_mem (hw : Working s) {n : ℕ} (h : n ∈ s.conns) :
    ∃ c, s.conns.lookup n = some (some c) := by
  obtain ⟨v, hv⟩ := Option.isSome_iff_exists.1 (AList.lookup_isSome.2 h)
  obtain ⟨c, rfl⟩ := Option.ne_none_iff_exists'.1 (hw.entries n v hv).2
  exact ⟨c, hv⟩

end Held

/-! ## The condition -/

/-- The request is for this instance of the server, and the reply to a request without a client nonce
finds its connection alive. -/
def SoundAt (s : Dispatcher) (c : ℕ) : Phase → Prop
  | .queued b => ∀ q ∈ Request.ofPdu b, q.srvNonce = 0 ∨ q.srvNonce = s.server.nonce
  | .choosing q _ => q.cltNonce = 0 → ∀ k ∈ s.conn c, k.dead = false
  | _ => True

instance (s : Dispatcher) (c : ℕ) (p : Phase) : Decidable (s.SoundAt c p) :=
  match p with
  | .queued b => inferInstanceAs (Decidable (∀ q ∈ Request.ofPdu b, _ ∨ _))
  | .choosing _ _ => inferInstanceAs (Decidable (_ → ∀ k ∈ s.conn c, _))
  | .offered .. | .recording .. | .increfed .. | .decrefed .. | .exchanged .. | .checking ..
  | .handling .. | .replied .. | .released .. | .sending .. | .leaving => .isTrue trivial

/-- No request for another instance of the server is dispatched, and no reply to a request without a
client nonce finds its connection dead. -/
def Sound (s : Dispatcher) : Label → Prop
  | .work j => s.SoundAt j.conn j.phase
  | _ => True

instance (s : Dispatcher) (l : Label) : Decidable (s.Sound l) :=
  match l with
  | .work j => inferInstanceAs (Decidable (s.SoundAt j.conn j.phase))
  | .accept .. | .visit | .die .. | .gotPdu .. | .addObjJob .. | .exec .. => .isTrue trivial

/-- The connection is the latest one of no other client when it becomes the one of this client. -/
def SingleAt (s : Dispatcher) (c : ℕ) : Phase → Prop
  | .increfed q | .exchanged q _ => ∀ e ∈ s.conns.entries, e.2 = some c → e.1 = q.cltNonce
  | _ => True

instance (s : Dispatcher) (c : ℕ) (p : Phase) : Decidable (s.SingleAt c p) :=
  match p with
  | .increfed _ | .exchanged _ _ => inferInstanceAs (Decidable (∀ e ∈ s.conns.entries, _ → _))
  | .offered .. | .queued .. | .recording .. | .decrefed .. | .checking .. | .handling ..
  | .replied .. | .choosing .. | .released .. | .sending .. | .leaving => .isTrue trivial

/-- No connection becomes the latest one of a second client. -/
def Single (s : Dispatcher) : Label → Prop
  | .work j => s.SingleAt j.conn j.phase
  | _ => True

instance (s : Dispatcher) (l : Label) : Decidable (s.Single l) :=
  match l with
  | .work j => inferInstanceAs (Decidable (s.SingleAt j.conn j.phase))
  | .accept .. | .visit | .die .. | .gotPdu .. | .addObjJob .. | .exec .. => .isTrue trivial

section Inversion

variable {s : Dispatcher} {j : Djob}

/-- A job ends and gives its reference back. -/
theorem move_leave {l : Label} (hc : Counted s) (hw : Working s) (hup : s.fate = .up)
    (hj : j ∈ s.jobs) (hh : j.halfway = false) :
    Move s l ((s.finish j).decref j.conn) ∧ Move s l ((s.finish j).decref j.conn).abort := by
  obtain ⟨k, hk, hheld⟩ := hc.held_of_not_halfway hw hj hh
  rw [show (s.finish j).decref j.conn = _ from decref_of_held hk hheld]
  constructor
  · exact .leave hj hh hk hheld (show s.fate ≠ .segv by simp [hup])
  · refine .leave hj hh hk hheld ?_
    show (if s.fate = .segv then Fate.segv else .aborted) ≠ .segv
    simp [hup]

theorem move_begin {b : Str} (hc : Counted s) (hw : Working s) (hup : s.fate = .up)
    (hj : j ∈ s.jobs) (hp : j.phase = .queued b) (hsound : s.Sound (.work j)) :
    Move s (.work j) (s.begin j b) := by
  have hh : j.halfway = false := by simp [Djob.halfway, hp]
  have hcurrent : ∀ q ∈ Request.ofPdu b, q.srvNonce = 0 ∨ q.srvNonce = s.server.nonce := by
    simpa only [Sound, SoundAt, hp] using hsound
  unfold begin
  split
  · exact (move_leave hc hw hup hj hh).1
  · next q hq =>
    have hnonce := hcurrent q hq
    split_ifs with hstale hproc hzero
    · -- the condition rules the early return out
      omega
    · exact .go (p := .recording q) hj hh rfl hzero
    · exact .go (p := .handling q) hj hh rfl (fun h => absurd h hzero)
    · exact (move_leave hc hw hup hj hh).2

theorem move_record {q : Request} (hc : Counted s) (hw : Working s) (hj : j ∈ s.jobs)
    (hp : j.phase = .recording q) (hlock : s.locked = false) :
    Move s (.work j) (s.record j q) := by
  have hh : j.halfway = false := by simp [Djob.halfway, hp]
  obtain ⟨k', hk', hheld'⟩ := hc.held_of_not_halfway hw hj hh
  unfold record
  split
  · next hnone =>
    rw [incref_of_conn (s := s.replace j ⟨j.conn, .increfed q⟩) hk']
    exact .increfed hj hp hlock (AList.lookup_eq_none.1 hnone) hk' hheld'
  · next hnull => exact absurd rfl (hw.entries _ _ hnull).2
  · next old hold =>
    obtain ⟨k, hk, hheld⟩ := hc.latest hold (fun i hi =>
      debt_of_not_halfway (not_halfway_of_not_locked hlock i hi) old)
    rw [hk, hk']
    dsimp only
    split_ifs with holder
    · rw [decref_of_held (s := s.replace j ⟨j.conn, .decrefed q old⟩) hk hheld]
      exact .decrefed hj hp hlock hold hk hheld
    · refine .go (p := .checking q) hj hh rfl ?_
      exact AList.lookup_isSome.1 (by rw [hold]; rfl)

theorem move_check {q : Request} (hw : Working s) (hj : j ∈ s.jobs) (hp : j.phase = .checking q) :
    Move s (.work j) (s.check j q) := by
  have hh : j.halfway = false := by simp [Djob.halfway, hp]
  have hok := hw.ok j hj
  rw [Djob.Ok, hp] at hok
  unfold check
  split
  next stat freed server heq =>
  cases stat with
  | NEW => exact .go (p := .handling q) hj hh rfl (fun _ => hok)
  | INPROGRESS => exact .go (p := .leaving) hj hh rfl trivial
  | DONE b => exact .go (p := .sending b.reply) hj hh rfl trivial
  | FORGOTTEN => exact .go (p := .sending _) hj hh rfl trivial

theorem move_choose {q : Request} {b : Buf} (hc : Counted s) (hw : Working s) (hj : j ∈ s.jobs)
    (hp : j.phase = .choosing q b) (hlock : s.locked = false) (hsound : s.Sound (.work j)) :
    Move s (.work j) (s.choose j q b) := by
  have hh : j.halfway = false := by simp [Djob.halfway, hp]
  have hzero : q.cltNonce = 0 → ∀ k ∈ s.conn j.conn, k.dead = false := by
    simpa only [Sound, SoundAt, hp] using hsound
  obtain ⟨k, hk, hheld⟩ := hc.held_of_not_halfway hw hj hh
  unfold choose
  rw [hk]
  dsimp only
  split_ifs with hdead hne
  · -- a dead connection: the condition says that the client has a nonce
    have hknown : q.cltNonce ∈ s.conns := by
      have hok := hw.ok j hj
      rw [Djob.Ok, hp] at hok
      refine hok (fun h0 => ?_)
      rw [hzero h0 k hk] at hdead
      cases hdead
    rw [touch_of_mem hknown, decref_of_held (s := s.replace j ⟨j.conn, .released q b⟩) hk hheld]
    exact .released hj hp hlock hknown hk hheld
  · have hknown : q.cltNonce ∈ s.conns := by
      by_contra hno
      simp [connOf, AList.lookup_eq_none.2 hno] at hne
    rw [touch_of_mem hknown]
    exact .go (p := .sending b.reply) hj hh rfl trivial
  · exact .go (p := .sending b.reply) hj hh rfl trivial

theorem move_exchange {q : Request} {b : Buf} (hc : Counted s) (hw : Working s) (hj : j ∈ s.jobs)
    (hp : j.phase = .released q b) : Move s (.work j) (s.exchange j q b) := by
  have hok := hw.ok j hj
  rw [Djob.Ok, hp] at hok
  obtain ⟨c, hlook⟩ := hw.lookup_of_mem hok
  have hdebt : ∀ i ∈ s.jobs, i.debt c = 0 := by
    intro i hi
    rcases List.mem_cons.1 ((List.perm_cons_erase hj).mem_iff.1 hi) with rfl | hi
    · simp [Djob.debt, hp]
    · exact debt_of_not_halfway (hw.others hj (by simp [Djob.halfway, hp]) i hi) c
  obtain ⟨k, hk, hheld⟩ := hc.latest hlook hdebt
  rw [exchange, connOf, hlook, Option.getD_some]
  dsimp only
  rw [incref_of_conn (s := s.replace j ⟨c, .sending b.reply⟩) hk]
  exact .swapped hj hp hk hheld

theorem move_work {s' : Dispatcher} (hc : Counted s) (hw : Working s) (hup : s.fate = .up)
    (hj : j ∈ s.jobs) (hsound : s.Sound (.work j)) (h : s.work j = some s') :
    Move s (.work j) s' := by
  unfold work at h
  split at h
  · next b hp =>
    obtain rfl := Option.some.inj h
    exact move_begin hc hw hup hj hp hsound
  · next q hp =>
    split_ifs at h with hlock
    obtain rfl := Option.some.inj h
    exact move_record hc hw hj hp (by simpa using hlock)
  · next q hp =>
    obtain rfl := Option.some.inj h
    exact .assign hj (.inl hp)
  · next q old hp =>
    obtain rfl := Option.some.inj h
    obtain ⟨k, hk, hheld⟩ := hc.held hw hj (by simp [hp])
    rw [incref_of_conn (s := s.replace j ⟨j.conn, .exchanged q old⟩) hk]
    exact .exchanged hj hp hk hheld
  · next q old hp =>
    obtain rfl := Option.some.inj h
    exact .assign hj (.inr ⟨old, hp⟩)
  · next q hp =>
    obtain rfl := Option.some.inj h
    exact move_check hw hj hp
  · next q b hp =>
    obtain rfl := Option.some.inj h
    have hok := hw.ok j hj
    rw [Djob.Ok, hp] at hok
    exact .go (p := .choosing q b) hj (by simp [Djob.halfway, hp]) rfl hok
  · next q b hp =>
    split_ifs at h with hlock
    obtain rfl := Option.some.inj h
    exact move_choose hc hw hj hp (by simpa using hlock) hsound
  · next q b hp =>
    obtain rfl := Option.some.inj h
    exact move_exchange hc hw hj hp
  · next r hp =>
    obtain rfl := Option.some.inj h
    have hh : j.halfway = false := by simp [Djob.halfway, hp]
    obtain ⟨k, hk, -⟩ := hc.held_of_not_halfway hw hj hh
    rw [calling_of_conn hk]
    exact .go (p := .leaving) hj hh rfl trivial
  · next hp =>
    obtain rfl := Option.some.inj h
    exact (move_leave hc hw hup hj (by simp [Djob.halfway, hp])).1
  · cases h
  · cases h

theorem move_visit {s' : Dispatcher} (hl : Listening s) (h : s.visit = some s') :
    Move s .visit s' := by
  unfold visit at h
  split at h
  · cases h
  · next ch ht =>
    obtain rfl := Option.some.inj h
    exact .listed ht
  · next ch c rest ht =>
    -- the connections of the table exist
    have hmem : c ∈ s.table := hl.pending.2 c (by rw [ht]; exact List.mem_cons_self)
    obtain ⟨k, hk⟩ := Option.isSome_iff_exists.1 ((hl.listed c).2 (.inl hmem))
    rw [hk] at h
    dsimp only at h
    split_ifs at h with hdead
    · obtain rfl := Option.some.inj h
      exact .mark ht hk hdead.1 hdead.2
    · obtain rfl := Option.some.inj h
      exact .skip ht
  · next ch c rest ht =>
    obtain ⟨k, hk, hdead, hone⟩ := hl.marked ch c rest ht
    obtain rfl := Option.some.inj h
    have hdecref : s.decref c = s.setConn c none := by
      rw [decref, hk]
      dsimp only
      rw [if_neg (by omega), if_pos ⟨hone, hdead⟩]
    rw [hdecref]
    exact .collect ht hk hone

/-- **Every step is one of the moves**, as long as the references are counted. -/
theorem move_of_step {l : Label} {s' : Dispatcher} (hc : Counted s) (hw : Working s)
    (hl : Listening s) (hsound : s.Sound l) (h : Step s l s') : Move s l s' := by
  unfold Step step at h
  split_ifs at h with hup
  cases l with
  | accept ch sec usec =>
    rw [next] at h
    split_ifs at h with hidle
    obtain rfl := Option.some.inj h
    exact .accept hidle.1 hidle.2
  | visit => exact move_visit hl h
  | die c =>
    obtain ⟨k, hk, rfl⟩ := Option.map_eq_some_iff.1 h
    exact .die hk
  | gotPdu c b =>
    rw [next] at h
    split at h
    · cases h
    · next k hk =>
      split_ifs at h with hdead
      obtain rfl := Option.some.inj h
      rw [incref_of_conn (s := { s with jobs := ⟨c, .offered b⟩ :: s.jobs }) hk]
      exact .gotPdu hk (by simpa using hdead)
  | addObjJob j succ =>
    rw [next] at h
    split at h
    · next b hp =>
      have hh : j.halfway = false := by simp [Djob.halfway, hp]
      split_ifs at h with hj hsucc
      · obtain rfl := Option.some.inj h
        exact .go (p := .queued b) (by simpa using hj) hh rfl trivial
      · obtain rfl := Option.some.inj h
        exact (move_leave hc hw hup (by simpa using hj) hh).1
    · cases h
  | work j =>
    rw [next] at h
    split_ifs at h with hj
    exact move_work hc hw hup hj hsound h
  | exec j ret body =>
    rw [next] at h
    split at h
    · next q hp =>
      split_ifs at h with hj hret
      · obtain rfl := Option.some.inj h
        rw [abort, if_neg (by simp [hup])]
        exact .stop
      · obtain rfl := Option.some.inj h
        have hj' : j ∈ s.jobs := by simpa using hj
        have hok := hw.ok j hj'
        rw [Djob.Ok, hp] at hok
        exact .go (p := .replied q _) hj' (by simp [Djob.halfway, hp]) rfl hok
    · cases h

end Inversion

/-! ## Steps -/

section Steps

variable {s s' : Dispatcher} {l : Label}

theorem counted_init (nonce : ℕ) (procs : List ℕ) : Counted (init nonce procs) := by
  intro c
  rfl

/-- A job goes on or ends, and a connection is counted anew. -/
theorem Counted.recount {t : Dispatcher} {c : ℕ} {k k' : Conn} (hc : Counted s)
    (hconn : t.conn = s.conn) (hconns : t.conns = s.conns) (hk : s.conn c = some k)
    (hload : ∀ c', t.load c' = s.load c' + if c = c' then (k'.refno - k.refno : ℤ) else 0) :
    Counted (t.setConn c (some k')) := by
  intro c'
  have hexcess : t.excess c' = s.excess c' := by rw [excess, excess, hconn]
  have hnamed : (t.setConn c (some k')).named c' = s.named c' := by
    show t.named c' = s.named c'
    rw [named, named, hconns]
  have hset : (t.setConn c (some k')).load c' = t.load c' := rfl
  rw [excess_setConn (s := t) (hconn ▸ hk), hexcess, hc c', hset, hload, hnamed]
  omega

/-- The job `j` becomes `j'`, and a connection is counted anew for the difference. -/
theorem Counted.replace {j j' : Djob} {c : ℕ} {k k' : Conn} (hc : Counted s) (hj : j ∈ s.jobs)
    (hk : s.conn c = some k)
    (hweight : ∀ c', j'.weight c' = j.weight c' + if c = c' then (k'.refno - k.refno : ℤ) else 0) :
    Counted ((s.replace j j').setConn c (some k')) := by
  refine Counted.recount (t := s.replace j j') hc rfl rfl hk ?_
  intro c'
  rw [load_replace hj, hweight]
  ring

theorem counted_step (hc : Counted s) (hw : Working s) (hm : Move s l s') : Counted s' := by
  cases hm with
  | listed | skip | mark | stop => exact hc
  | @accept ch sec usec hidle hnone =>
    intro c
    show (s.setConn ch _).excess c = s.load c + s.named c
    rw [excess_setConn_alone (by simp [excess, hnone]), hc c]
  | @collect ch c rest k ht hk hone =>
    intro c'
    show (s.setConn c none).excess c' = s.load c' + s.named c'
    rw [excess_setConn_alone (by simp [excess, hk, hone]), hc c']
  | die hk => exact hc.recount rfl rfl hk (by simp)
  | @gotPdu c b k hk hdead =>
    refine hc.recount rfl rfl hk ?_
    intro c'
    show (List.map _ (_ :: s.jobs)).sum = _
    rw [List.map_cons, List.sum_cons, weight_of_not_halfway rfl, ← load]
    dsimp only
    split_ifs <;> omega
  | @go l j p server nextBuf hj hh hh' hok =>
    intro c
    show s.excess c = (s.replace j ⟨j.conn, p⟩).load c + s.named c
    rw [load_replace hj, weight_of_not_halfway hh, weight_of_not_halfway hh', sub_add_cancel, hc c]
  | @leave l j k fate hj hh hk hheld hfate =>
    refine Counted.recount (t := s.finish j) hc rfl rfl hk ?_
    intro c
    rw [load_finish hj, weight_of_not_halfway hh]
    dsimp only
    split_ifs <;> omega
  | @increfed j q k hj hp hlock hnew hk hheld =>
    refine hc.replace hj hk ?_
    intro c
    rw [Djob.weight, Djob.weight, hp]
    dsimp only
    split_ifs <;> omega
  | @decrefed j q old k hj hp hlock hold hk hheld =>
    refine hc.replace hj hk ?_
    intro c
    rw [Djob.weight, Djob.weight, hp]
    dsimp only
    split_ifs <;> omega
  | @exchanged j q old k hj hp hk hheld =>
    refine hc.replace hj hk ?_
    intro c
    rw [Djob.weight, Djob.weight, hp]
    dsimp only
    split_ifs <;> omega
  | @assign j q hj hp =>
    intro c
    have hok := hw.ok j hj
    have hload := load_replace hj ⟨j.conn, .checking q⟩ c
    have hc' := hc c
    show s.excess c = (s.replace j ⟨j.conn, .checking q⟩).load c +
      (((s.conns.insert q.cltNonce (some j.conn)).entries.countP (fun e => e.2 == some c) : ℕ) : ℤ)
    unfold named at hc'
    -- the reference that was taken for the nonce is now the one of its entry
    rcases hp with hp | ⟨old, hp⟩
    · rw [Djob.Ok, hp] at hok
      have hnew := countP_insert_of_notMem hok.2 (some j.conn) (fun e => e.2 == some c)
      rw [Djob.weight, Djob.weight, hp] at hload
      simp only [beq_iff_eq, Option.some.injEq] at hnew hload
      split_ifs at hnew hload <;> omega
    · rw [Djob.Ok, hp] at hok
      have hnew := countP_insert_of_lookup hok.2 (some j.conn) (fun e => e.2 == some c)
      rw [Djob.weight, Djob.weight, hp] at hload
      simp only [beq_iff_eq, Option.some.injEq] at hnew hload
      split_ifs at hnew hload <;> omega
  | @released j q b k hj hp hlock hknown hk hheld =>
    refine hc.replace hj hk ?_
    intro c
    rw [Djob.weight, Djob.weight, hp]
    dsimp only
    split_ifs <;> omega
  | @swapped j q b c k hj hp hk hheld =>
    refine hc.replace hj hk ?_
    intro c'
    rw [Djob.weight, Djob.weight, hp]
    dsimp only
    split_ifs <;> omega

theorem working_init (nonce : ℕ) (procs : List ℕ) : Working (init nonce procs) :=
  ⟨by simp [init], by simp [init], by simp [init]⟩

/-- What a job knows of the known clients stays true. -/
theorem Djob.Ok.insert {j : Djob} {conns : AList (fun _ : ℕ => Option ℕ)} (h : j.Ok conns)
    (hh : j.halfway = false) (n : ℕ) (v : Option ℕ) : j.Ok (conns.insert n v) := by
  unfold Djob.halfway at hh
  unfold Djob.Ok at h ⊢
  cases hp : j.phase with
  | increfed | decrefed | exchanged | released => simp [hp] at hh
  | offered | queued | sending | leaving => trivial
  | recording q =>
    rw [hp] at h
    exact h
  | checking q =>
    rw [hp] at h
    exact (AList.mem_insert _).2 (.inr h)
  | handling q =>
    rw [hp] at h
    exact fun h0 => (AList.mem_insert _).2 (.inr (h h0))
  | replied q b =>
    rw [hp] at h
    exact fun h0 => (AList.mem_insert _).2 (.inr (h h0))
  | choosing q b =>
    rw [hp] at h
    exact fun h0 => (AList.mem_insert _).2 (.inr (h h0))

/-- Only the jobs and `conns_` matter. -/
theorem Working.congr (hw : Working s) (hjobs : s'.jobs = s.jobs) (hconns : s'.conns = s.conns) :
    Working s' :=
  ⟨hjobs ▸ hw.mutex, by rw [hjobs, hconns]; exact hw.ok, by rw [hconns]; exact hw.entries⟩

/-- A job takes `conss_m_` only when it is free. -/
theorem Working.replace {j j' : Djob} (hw : Working s) (hj : j ∈ s.jobs)
    (hh : j'.halfway = true → j.halfway = true ∨ s.locked = false) (hok : j'.Ok s.conns) :
    Working (s.replace j j') := by
  refine ⟨?_, ?_, hw.entries⟩
  · have hcount := hw.mutex
    rw [(List.perm_cons_erase hj).countP_eq, List.countP_cons] at hcount
    show (j' :: s.jobs.erase j).countP Djob.halfway ≤ 1
    rw [List.countP_cons]
    by_cases hj' : j'.halfway = true
    · rw [if_pos hj']
      rcases hh hj' with hhalf | hlock
      · rw [if_pos hhalf] at hcount
        exact hcount
      · have hzero : (s.jobs.erase j).countP Djob.halfway = 0 := by
          refine List.countP_eq_zero.2 ?_
          intro i hi
          simp [not_halfway_of_not_locked hlock i (List.mem_of_mem_erase hi)]
        omega
    · rw [if_neg hj']
      omega
  · intro i hi
    rcases List.mem_cons.1 hi with rfl | hi
    · exact hok
    · exact hw.ok i (List.mem_of_mem_erase hi)

theorem Working.finish (hw : Working s) (j : Djob) : Working (s.finish j) := by
  refine ⟨?_, fun i hi => hw.ok i (List.mem_of_mem_erase hi), hw.entries⟩
  exact (List.Sublist.countP_le List.erase_sublist).trans hw.mutex

theorem Working.assign {j : Djob} {q : Request} (hw : Working s) (hj : j ∈ s.jobs)
    (hh : j.halfway = true) (hq : q.cltNonce ≠ 0) : Working (s.assign j q) := by
  have hothers := hw.others hj hh
  refine ⟨?_, ?_, ?_⟩
  · show ((⟨j.conn, .checking q⟩ : Djob) :: s.jobs.erase j).countP Djob.halfway ≤ 1
    rw [List.countP_cons_of_neg (by simp [Djob.halfway])]
    exact (List.Sublist.countP_le List.erase_sublist).trans hw.mutex
  · intro i hi
    rcases List.mem_cons.1 hi with rfl | hi
    · exact (AList.mem_insert _).2 (.inl rfl)
    · exact (hw.ok i (List.mem_of_mem_erase hi)).insert (hothers i hi) _ _
  · intro n v hv
    change (s.conns.insert q.cltNonce (some j.conn)).lookup n = some v at hv
    by_cases hn : n = q.cltNonce
    · subst hn
      rw [AList.lookup_insert] at hv
      exact ⟨hq, by simp [← Option.some.inj hv]⟩
    · rw [AList.lookup_insert_ne hn] at hv
      exact hw.entries n v hv

theorem working_step (hw : Working s) (hm : Move s l s') : Working s' := by
  cases hm with
  | accept | listed | skip | mark | collect | die | stop => exact hw.congr rfl rfl
  | @gotPdu c b k hk hdead =>
    refine ⟨?_, ?_, hw.entries⟩
    · show ((⟨c, .offered b⟩ : Djob) :: s.jobs).countP Djob.halfway ≤ 1
      rw [List.countP_cons_of_neg (by simp [Djob.halfway])]
      exact hw.mutex
    · intro i hi
      rcases List.mem_cons.1 hi with rfl | hi
      · trivial
      · exact hw.ok i hi
  | go hj hh hh' hok => exact (hw.replace hj (fun h => absurd h (by simp [hh'])) hok).congr rfl rfl
  | @leave l j => exact (hw.finish j).congr rfl rfl
  | @increfed j q k hj hp hlock hnew hk hheld =>
    have hok := hw.ok j hj
    rw [Djob.Ok, hp] at hok
    have hr : Working (s.replace j ⟨j.conn, .increfed q⟩) :=
      hw.replace hj (fun _ => .inr hlock) ⟨hok, hnew⟩
    exact hr.congr rfl rfl
  | @decrefed j q old k hj hp hlock hold hk hheld =>
    have hok := hw.ok j hj
    rw [Djob.Ok, hp] at hok
    have hr : Working (s.replace j ⟨j.conn, .decrefed q old⟩) :=
      hw.replace hj (fun _ => .inr hlock) ⟨hok, hold⟩
    exact hr.congr rfl rfl
  | @exchanged j q old k hj hp hk hheld =>
    have hok := hw.ok j hj
    rw [Djob.Ok, hp] at hok
    have hhalf : j.halfway = true := by simp [Djob.halfway, hp]
    have hr : Working (s.replace j ⟨j.conn, .exchanged q old⟩) :=
      hw.replace hj (fun _ => .inl hhalf) hok
    exact hr.congr rfl rfl
  | @assign j q hj hp =>
    have hok := hw.ok j hj
    rcases hp with hp | ⟨old, hp⟩
    · rw [Djob.Ok, hp] at hok
      exact hw.assign hj (by simp [Djob.halfway, hp]) hok.1
    · rw [Djob.Ok, hp] at hok
      exact hw.assign hj (by simp [Djob.halfway, hp]) hok.1
  | @released j q b k hj hp hlock hknown hk hheld =>
    have hr : Working (s.replace j ⟨j.conn, .released q b⟩) :=
      hw.replace hj (fun _ => .inr hlock) hknown
    exact hr.congr rfl rfl
  | @swapped j q b c k hj hp hk hheld =>
    have hr : Working (s.replace j ⟨c, .sending b.reply⟩) :=
      hw.replace hj (fun h => absurd h (by simp [Djob.halfway])) trivial
    exact hr.congr rfl rfl

theorem listening_init (nonce : ℕ) (procs : List ℕ) : Listening (init nonce procs) := by
  refine ⟨?_, by simp [init], by simp [init, Accept.fresh], by simp [init, Accept.pending],
    by simp [init]⟩
  intro c
  simp [init, Accept.fresh]

/-- Only the connections, the table and the thread of the listener matter. -/
theorem Listening.congr (hl : Listening s) (hconn : s'.conn = s.conn) (htable : s'.table = s.table)
    (hthread : s'.thread = s.thread) : Listening s' := by
  constructor
  · rw [hconn, htable, hthread]
    exact hl.listed
  · rw [htable]
    exact hl.nodup
  · rw [htable, hthread]
    exact hl.fresh
  · rw [htable, hthread]
    exact hl.pending
  · rw [hconn, hthread]
    exact hl.marked

/-- A connection is counted anew, or dies. -/
theorem Listening.setConn {t : Dispatcher} {c : ℕ} {k k' : Conn} (hl : Listening s)
    (hconn : t.conn = s.conn) (htable : t.table = s.table) (hthread : t.thread = s.thread)
    (hk : s.conn c = some k)
    (hmark : k.dead = true → k.refno = 1 → k'.dead = true ∧ k'.refno = 1) :
    Listening (t.setConn c (some k')) := by
  have hset : (t.setConn c (some k')).conn = Function.update s.conn c (some k') := by
    rw [← hconn]
    rfl
  refine ⟨?_, htable ▸ hl.nodup, ?_, ?_, ?_⟩
  · intro c'
    show ((t.setConn c (some k')).conn c').isSome ↔ c' ∈ t.table ∨ t.thread.fresh = some c'
    rw [hset, htable, hthread, ← hl.listed c']
    by_cases hc : c' = c
    · subst hc
      simp [hk]
    · rw [Function.update_of_ne hc]
  · show ∀ ch, t.thread.fresh = some ch → ch ∉ t.table
    rw [hthread, htable]
    exact hl.fresh
  · show t.thread.pending.Nodup ∧ ∀ c ∈ t.thread.pending, c ∈ t.table
    rw [hthread, htable]
    exact hl.pending
  · intro ch c' rest ht
    obtain ⟨k₀, hk₀, hdead, hone⟩ := hl.marked ch c' rest (hthread ▸ ht)
    rw [hset]
    by_cases hc : c' = c
    · subst hc
      obtain rfl : k = k₀ := Option.some.inj (hk.symm.trans hk₀)
      exact ⟨k', Function.update_self .., hmark hdead hone⟩
    · exact ⟨k₀, by rw [Function.update_of_ne hc, hk₀], hdead, hone⟩

/-- The loop of `process_accept` goes on. -/
theorem Listening.onward {t : Accept} (hl : Listening s) (hfresh : t.fresh = s.thread.fresh)
    (hpending : t.pending.Nodup ∧ ∀ c ∈ t.pending, c ∈ s.table)
    (hmarked : ∀ ch c rest, t = .collecting ch c rest →
      ∃ k, s.conn c = some k ∧ k.dead = true ∧ k.refno = 1) :
    Listening { s with thread := t } := by
  refine ⟨?_, hl.nodup, ?_, hpending, hmarked⟩
  · intro c
    show (s.conn c).isSome ↔ c ∈ s.table ∨ t.fresh = some c
    rw [hfresh]
    exact hl.listed c
  · show ∀ ch, t.fresh = some ch → ch ∉ s.table
    rw [hfresh]
    exact hl.fresh

theorem Listening.accept {ch : ℕ} {k : Conn} (hl : Listening s) (hidle : s.thread = .idle)
    (hnone : s.conn ch = none) :
    Listening { s.setConn ch (some k) with thread := .scanning ch s.table } := by
  have hfresh : s.thread.fresh = none := by rw [hidle]; rfl
  have hnot : ch ∉ s.table := by
    intro hmem
    have hsome := (hl.listed ch).2 (.inl hmem)
    simp [hnone] at hsome
  refine ⟨?_, hl.nodup, ?_, ⟨hl.nodup, fun c hc => hc⟩, by simp⟩
  · intro c
    show (Function.update s.conn ch (some k) c).isSome ↔ c ∈ s.table ∨ some ch = some c
    by_cases hc : c = ch
    · subst hc
      simp
    · have hlisted := hl.listed c
      rw [hfresh] at hlisted
      simpa [hc, Ne.symm hc] using hlisted
  · intro ch' hch'
    obtain rfl : ch = ch' := Option.some.inj hch'
    exact hnot

theorem Listening.collect {ch c : ℕ} {rest : List ℕ} (hl : Listening s)
    (ht : s.thread = .collecting ch c rest) :
    Listening { s.setConn c none with table := s.table.erase c, thread := .scanning ch rest } := by
  have hfresh : s.thread.fresh = some ch := by rw [ht]; rfl
  have hpending : s.thread.pending = c :: rest := by rw [ht]; rfl
  obtain ⟨hnodup, hsub⟩ := hpending ▸ hl.pending
  have hch := hl.fresh ch hfresh
  have hne : ch ≠ c := fun h => hch (h ▸ hsub c List.mem_cons_self)
  refine ⟨?_, hl.nodup.erase c, ?_, ⟨(List.nodup_cons.1 hnodup).2, ?_⟩, by simp⟩
  · intro c'
    show (Function.update s.conn c none c').isSome ↔ c' ∈ s.table.erase c ∨ some ch = some c'
    rw [hl.nodup.mem_erase_iff]
    by_cases hc : c' = c
    · subst hc
      simp [hne]
    · have hlisted := hl.listed c'
      rw [hfresh] at hlisted
      simpa [hc] using hlisted
  · intro ch' hch' hmem
    obtain rfl : ch = ch' := Option.some.inj hch'
    exact hch (List.mem_of_mem_erase hmem)
  · intro c' hc'
    refine (hl.nodup.mem_erase_iff).2 ⟨?_, hsub c' (List.mem_cons_of_mem _ hc')⟩
    rintro rfl
    exact (List.nodup_cons.1 hnodup).1 hc'

theorem listening_step (hl : Listening s) (hm : Move s l s') : Listening s' := by
  cases hm with
  | stop | go | assign => exact hl.congr rfl rfl rfl
  | accept hidle hnone => exact hl.accept hidle hnone
  | @listed ch ht =>
    have hfresh : s.thread.fresh = some ch := by rw [ht]; rfl
    refine ⟨?_, List.nodup_cons.2 ⟨hl.fresh ch hfresh, hl.nodup⟩, by simp [Accept.fresh],
      by simp [Accept.pending], by simp⟩
    intro c
    show (s.conn c).isSome ↔ c ∈ ch :: s.table ∨ none = some c
    rw [hl.listed c, hfresh, List.mem_cons]
    simp [or_comm, eq_comm]
  | @skip ch c rest ht =>
    have hfresh : s.thread.fresh = some ch := by rw [ht]; rfl
    have hpending : s.thread.pending = c :: rest := by rw [ht]; rfl
    obtain ⟨hnodup, hsub⟩ := hpending ▸ hl.pending
    refine hl.onward hfresh.symm ⟨(List.nodup_cons.1 hnodup).2, ?_⟩ (by simp)
    exact fun c' hc' => hsub c' (List.mem_cons_of_mem _ hc')
  | @mark ch c rest k ht hk hdead hone =>
    have hfresh : s.thread.fresh = some ch := by rw [ht]; rfl
    have hpending : s.thread.pending = c :: rest := by rw [ht]; rfl
    have hrest := hl.pending
    rw [hpending] at hrest
    refine hl.onward hfresh.symm hrest ?_
    intro ch' c' rest' ht'
    obtain ⟨rfl, rfl, rfl⟩ : ch = ch' ∧ c = c' ∧ rest = rest' := by simpa using ht'
    exact ⟨k, hk, hdead, hone⟩
  | collect ht hk hone => exact hl.collect ht
  | die hk => exact hl.setConn rfl rfl rfl hk (fun _ hone => ⟨rfl, hone⟩)
  | gotPdu hk hdead => exact hl.setConn rfl rfl rfl hk (fun h => by simp [hdead] at h)
  | @leave l j k fate hj hh hk hheld hfate =>
    have hset : Listening ((s.finish j).setConn j.conn (some { k with refno := k.refno - 1 })) :=
      hl.setConn rfl rfl rfl hk (fun _ hone => by omega)
    exact hset.congr rfl rfl rfl
  | increfed hj hp hlock hnew hk hheld =>
    exact hl.setConn rfl rfl rfl hk (fun _ hone => by omega)
  | decrefed hj hp hlock hold hk hheld =>
    exact hl.setConn rfl rfl rfl hk (fun _ hone => by omega)
  | exchanged hj hp hk hheld => exact hl.setConn rfl rfl rfl hk (fun _ hone => by omega)
  | released hj hp hlock hknown hk hheld =>
    exact hl.setConn rfl rfl rfl hk (fun _ hone => by omega)
  | swapped hj hp hk hheld => exact hl.setConn rfl rfl rfl hk (fun _ hone => by omega)

/-- No connection is the latest one of two clients. -/
def Apart (s : Dispatcher) : Prop :=
  ∀ e ∈ s.conns.entries, ∀ e' ∈ s.conns.entries, e.2 = e'.2 → e.1 = e'.1

theorem apart_step (ha : Apart s) (hsingle : s.Single l) (hm : Move s l s') : Apart s' := by
  cases hm with
  | @assign j q hj hp =>
    have hnew : ∀ e ∈ s.conns.entries, e.2 = some j.conn → e.1 = q.cltNonce := by
      rcases hp with hp | ⟨old, hp⟩
      · simpa only [Single, SingleAt, hp] using hsingle
      · simpa only [Single, SingleAt, hp] using hsingle
    have hmem : ∀ e ∈ (s.conns.insert q.cltNonce (some j.conn)).entries,
        e = ⟨q.cltNonce, some j.conn⟩ ∨ e ∈ s.conns.entries := by
      intro e he
      rw [AList.entries_insert] at he
      rcases List.mem_cons.1 he with rfl | he
      · exact .inl rfl
      · exact .inr ((List.kerase_sublist _ _).subset he)
    intro e he e' he' heq
    rcases hmem e he with rfl | hold
    · rcases hmem e' he' with rfl | hold'
      · rfl
      · exact (hnew e' hold' heq.symm).symm
    · rcases hmem e' he' with rfl | hold'
      · exact hnew e hold heq
      · exact ha e hold e' hold' heq
  | _ => exact ha

theorem Apart.named_le_one (ha : Apart s) (c : ℕ) : s.named c ≤ 1 := by
  rw [named, List.countP_eq_length_filter,
    ← List.toFinset_card_of_nodup (s.conns.nodupKeys.nodup.filter _), Finset.card_le_one]
  intro e he e' he'
  obtain ⟨hmem, hval⟩ := List.mem_filter.1 (List.mem_toFinset.1 he)
  obtain ⟨hmem', hval'⟩ := List.mem_filter.1 (List.mem_toFinset.1 he')
  have hkey : e.1 = e'.1 := ha e hmem e' hmem' ((beq_iff_eq.1 hval).trans (beq_iff_eq.1 hval').symm)
  exact s.conns.nodupKeys.eq_of_fst_eq hmem hmem' hkey

theorem Apart.named_eq (ha : Apart s) (c : ℕ) : s.named c = if s.recorded c then 1 else 0 := by
  have hle := ha.named_le_one c
  by_cases hrec : s.recorded c = true
  · have hpos : 0 < s.named c := List.countP_pos_iff.2 (List.any_eq_true.1 hrec)
    rw [if_pos hrec]
    omega
  · rw [if_neg hrec]
    refine List.countP_eq_zero.2 ?_
    intro e he hval
    exact hrec (List.any_eq_true.2 ⟨e, he, hval⟩)

end Steps

/-! ## Runs -/

/-- The references are balanced.  The process has used no null or deleted connection; the connection of
every job that does not hold `conss_m_` exists; the connections are those of the listener; and when
`conss_m_` is free, the references of a connection are the one of the listener, those of its jobs, and
one more if it is the latest connection of a client. -/
def Balanced (s : Dispatcher) : Prop :=
  s.fate ≠ .segv ∧
  (∀ j ∈ s.jobs, j.halfway = false → (s.conn j.conn).isSome) ∧
  (∀ c, (s.conn c).isSome ↔ c ∈ s.table ∨ s.thread.fresh = some c) ∧
  (s.locked = false → ∀ c k, s.conn c = some k →
    k.refno = 1 + s.holders c + if s.recorded c then 1 else 0)

theorem fate_step {s s' : Dispatcher} {l : Label} (h : s.fate ≠ .segv) (hm : Move s l s') :
    s'.fate ≠ .segv := by
  cases hm with
  | leave _ _ _ _ hfate => exact hfate
  | stop => exact fun h => Fate.noConfusion h
  | _ => exact h

/-- What the runs keep. -/
structure Inv (s : Dispatcher) : Prop where
  counted : Counted s
  working : Working s
  listening : Listening s
  fate : s.fate ≠ .segv

theorem inv_init (nonce : ℕ) (procs : List ℕ) : Inv (init nonce procs) :=
  ⟨counted_init nonce procs, working_init nonce procs, listening_init nonce procs, by simp [init]⟩

theorem inv_step {s s' : Dispatcher} {l : Label} (h : Inv s) (hsound : s.Sound l)
    (hstep : Step s l s') : Inv s' := by
  have hm := move_of_step h.counted h.working h.listening hsound hstep
  exact ⟨counted_step h.counted h.working hm, working_step h.working hm,
    listening_step h.listening hm, fate_step h.fate hm⟩

theorem load_of_not_locked {s : Dispatcher} (hlock : s.locked = false) (c : ℕ) :
    s.load c = s.holders c := by
  have hfree := not_halfway_of_not_locked hlock
  unfold load holders
  generalize s.jobs = jobs at hfree
  induction jobs with
  | nil => rfl
  | cons j jobs ih =>
    rw [List.map_cons, List.sum_cons, List.countP_cons,
      weight_of_not_halfway (hfree j List.mem_cons_self),
      ih (fun i hi => hfree i (List.mem_cons_of_mem _ hi))]
    simp only [beq_iff_eq]
    split_ifs <;> push_cast <;> ring

/-- The references of a connection when `conss_m_` is free: one for every nonce whose latest connection
it is. -/
theorem Inv.refno_eq {s : Dispatcher} {c : ℕ} {k : Conn} (h : Inv s) (hlock : s.locked = false)
    (hk : s.conn c = some k) : k.refno = 1 + s.holders c + s.named c := by
  have hexcess := h.counted c
  rw [excess_of_conn hk, load_of_not_locked hlock] at hexcess
  omega

theorem Inv.balanced {s : Dispatcher} (h : Inv s) (ha : Apart s) : Balanced s := by
  refine ⟨h.fate, ?_, h.listening.listed, ?_⟩
  · intro j hj hh
    obtain ⟨k, hk, -⟩ := h.counted.held_of_not_halfway h.working hj hh
    simp [hk]
  · intro hlock c k hk
    rw [h.refno_eq hlock hk, ha.named_eq]

/-- **The references to connections are balanced**, in every run in which no request for another
instance of the server is dispatched, no reply to a request without a client nonce finds its connection
dead, and no connection becomes the latest one of two clients. -/
theorem balanced_of_sound {nonce : ℕ} {procs : List ℕ} {t : List Label} {s : Dispatcher}
    (h : Trace (Guarded (fun s l => Sound s l ∧ Single s l) Step) (init nonce procs) t s) :
    Balanced s := by
  have hinv : Inv s ∧ Apart s := by
    refine Trace.invariant (I := fun s => Inv s ∧ Apart s) ?_ ?_ h
    · exact ⟨inv_init nonce procs, by simp [Apart, init]⟩
    · rintro s l s' ⟨hs, ha⟩ ⟨⟨hsound, hsingle⟩, hstep⟩
      have hm := move_of_step hs.counted hs.working hs.listening hsound hstep
      exact ⟨inv_step hs hsound hstep, apart_step ha hsingle hm⟩
  exact hinv.1.balanced hinv.2

/-- The bytes of a request for the procedure 1. -/
def pdu (xid cltNonce srvNonce : UInt8) : Str :=
  [0, 0, 0, 0, 0, 0, 0, xid, 0, 0, 0, 1, 0, 0, 0, cltNonce, 0, 0, 0, srvNonce, 0, 0, 0, 0]

/-- The steps with which a request arrives and is taken from the queue. -/
def arriving (c : ℕ) (b : Str) : List Label :=
  [.gotPdu c b, .addObjJob ⟨c, .offered b⟩ true, .work ⟨c, .queued b⟩]

/-- The connection of the client 7 dies while its handler runs.  The client connects again, the reply
goes out over the new connection, and the next `process_accept` deletes the old one. -/
theorem balanced_reconnect : ∃ t s,
    Trace (Guarded (fun s l => Sound s l ∧ Single s l) Step) (init 5 [1]) t s ∧
      s.conn 0 = none ∧ s.conn 1 = some ⟨2, 0, 3, false⟩ ∧ s.locked = false ∧ s.holders 1 = 1 ∧
      s.recorded 1 = true ∧ Balanced s := by
  have hrun : (Trace.runWith step (fun s l => Sound s l ∧ Single s l) (init 5 [1])
      (let q₁ : Request := ⟨1, 1, 7, 0, 0, []⟩
       let q₂ : Request := ⟨2, 1, 7, 5, 0, []⟩
       let b : Buf := ⟨0, ⟨1, 0, [3]⟩⟩
       List.flatten
        [[.accept 0 1 0, .visit], arriving 0 (pdu 1 7 0),
          [.work ⟨0, .recording q₁⟩, .work ⟨0, .increfed q₁⟩, .work ⟨0, .checking q₁⟩,
            .exec ⟨0, .handling q₁⟩ 0 [3], .work ⟨0, .replied q₁ b⟩, .die 0],
          [.accept 1 2 0, .visit, .visit], arriving 1 (pdu 2 7 5),
          [.work ⟨1, .recording q₂⟩, .work ⟨1, .decrefed q₂ 0⟩, .work ⟨1, .exchanged q₂ 0⟩,
            .work ⟨0, .choosing q₁ b⟩, .work ⟨0, .released q₁ b⟩, .work ⟨1, .sending b.reply⟩,
            .work ⟨1, .leaving⟩],
          [.accept 2 3 0, .visit, .visit, .visit, .visit]])).any
      (fun s => decide (s.conn 0 = none ∧ s.conn 1 = some ⟨2, 0, 3, false⟩ ∧ s.locked = false ∧
        s.holders 1 = 1 ∧ s.recorded 1 = true)) = true := by
    decide
  obtain ⟨s, ht, hs⟩ := Trace.exists_of_runWith hrun
  obtain ⟨h0, h1, hlock, hholders, hrec⟩ := of_decide_eq_true hs
  exact ⟨_, s, ht, h0, h1, hlock, hholders, hrec, balanced_of_sound ht⟩

/-- The first part of the condition is needed in every state: a job that works on a request for another
instance leaves its reference behind. -/
theorem unbalanced_of_stale {s : Dispatcher} {j : Djob} {b : Str} {q : Request} (h : Inv s)
    (ha : Apart s) (hup : s.fate = .up) (hlock : s.locked = false) (hj : j ∈ s.jobs)
    (hp : j.phase = .queued b) (hq : Request.ofPdu b = some q)
    (hstale : q.srvNonce ≠ 0 ∧ q.srvNonce ≠ s.server.nonce) :
    Step s (.work j) (s.finish j) ∧ ¬ Balanced (s.finish j) := by
  have hh : j.halfway = false := by simp [Djob.halfway, hp]
  obtain ⟨k, hk, -⟩ := h.counted.held_of_not_halfway h.working hj hh
  constructor
  · rw [Step, step, if_pos hup, next, if_pos hj, work, hp]
    simp only [begin, hq, if_pos hstale, calling_of_conn hk]
  · intro hbal
    have hfree : (s.finish j).locked = false := by
      refine List.any_eq_false.2 ?_
      intro i hi
      simp [not_halfway_of_not_locked hlock i (List.mem_of_mem_erase hi)]
    have hholders : s.holders j.conn = (s.finish j).holders j.conn + 1 := by
      rw [holders, (List.perm_cons_erase hj).countP_eq, List.countP_cons_of_pos (by simp)]
      rfl
    have hbefore := h.refno_eq hlock hk
    have hafter := hbal.2.2.2 hfree j.conn k hk
    have hsame : (s.finish j).recorded j.conn = s.recorded j.conn := rfl
    rw [hsame, ← ha.named_eq] at hafter
    omega

/-- And so is the second part: without a client nonce there is no latest connection. -/
theorem segv_of_zero {s : Dispatcher} {j : Djob} {q : Request} {b : Buf} {k : Conn} (h : Inv s)
    (hup : s.fate = .up) (hlock : s.locked = false) (hj : j ∈ s.jobs)
    (hp : j.phase = .choosing q b) (hzero : q.cltNonce = 0) (hk : s.conn j.conn = some k)
    (hdead : k.dead = true) :
    ∃ s₁ s₂, Step s (.work j) s₁ ∧ Step s₁ (.work ⟨j.conn, .released q b⟩) s₂ ∧
      s₂.fate = .segv := by
  have hnot : q.cltNonce ∉ s.conns := by
    intro hmem
    obtain ⟨c, hc⟩ := h.working.lookup_of_mem hmem
    exact (h.working.entries _ _ hc).1 hzero
  obtain ⟨k', hk', hheld⟩ := h.counted.held h.working hj (by simp [hp])
  obtain ⟨s₁, hs₁⟩ : ∃ s₁, s₁ =
      ((s.touch q.cltNonce).replace j ⟨j.conn, .released q b⟩).decref j.conn := ⟨_, rfl⟩
  have hdecref : s₁ = ((s.touch q.cltNonce).replace j ⟨j.conn, .released q b⟩).setConn j.conn
      (some { k' with refno := k'.refno - 1 }) := hs₁.trans (decref_of_held hk' hheld)
  refine ⟨s₁, s₁.crash, ?_, ?_, rfl⟩
  · rw [Step, step, if_pos hup, next, if_pos hj, work, hp, hs₁]
    simp [hlock, choose, hk, hdead, connOf, AList.lookup_eq_none.2 hnot]
  · -- the evaluation of `conns_[0]` has inserted a null pointer
    have hnull : s₁.connOf q.cltNonce = none := by
      simp [hdecref, connOf, setConn, replace, touch, hnot]
    have hup₁ : s₁.fate = .up := by
      rw [hdecref]
      exact hup
    have hmem : ⟨j.conn, .released q b⟩ ∈ s₁.jobs := by
      rw [hdecref]
      exact List.mem_cons_self
    rw [Step, step, if_pos hup₁, next, if_pos hmem, work]
    dsimp only
    rw [exchange, hnull]

/-- A request for the instance 4 of a server that is the instance 5: the job ends and its reference
stays. -/
theorem unbalanced_stale :
    ¬ ∀ nonce procs t s, Trace Step (init nonce procs) t s → Balanced s := by
  have hrun : (Trace.runWith step (fun _ _ => True) (init 5 [1])
      (List.flatten [[.accept 0 1 0, .visit], arriving 0 (pdu 1 7 4)])).any
      (fun s => decide (s.conn 0 = some ⟨1, 0, 2, false⟩ ∧ s.locked = false ∧ s.holders 0 = 0 ∧
        s.recorded 0 = false)) = true := by
    decide
  intro h
  obtain ⟨s, ht, hs⟩ := Trace.exists_of_runWith hrun
  obtain ⟨h0, hlock, hholders, hrec⟩ := of_decide_eq_true hs
  have hbal := (h 5 [1] _ s (ht.mono (fun _ _ _ hstep => hstep.2))).2.2.2 hlock 0 _ h0
  simp [hholders, hrec] at hbal

/-- The connection dies while the handler runs on a request without a client nonce: `dispatch` takes
`conns_[0]`, which is null. -/
theorem null_connection :
    ¬ ∀ nonce procs t s, Trace Step (init nonce procs) t s → s.fate ≠ .segv := by
  intro h
  let q : Request := ⟨1, 1, 0, 0, 0, []⟩
  let b : Buf := ⟨0, ⟨1, 0, []⟩⟩
  let t : List Label := List.flatten
    [[.accept 0 1 0, .visit], arriving 0 (pdu 1 0 0),
      [.exec ⟨0, .handling q⟩ 0 [], .work ⟨0, .replied q b⟩, .die 0, .work ⟨0, .choosing q b⟩,
        .work ⟨0, .released q b⟩]]
  have hrun : (Trace.runWith step (fun _ _ => True) (init 5 [1]) t).any
      (fun s => decide (s.fate = .segv)) = true := by
    decide
  obtain ⟨s, ht, hs⟩ := Trace.exists_of_runWith hrun
  exact h 5 [1] _ s (ht.mono (fun _ _ _ hstep => hstep.2)) (of_decide_eq_true hs)

end Dispatcher
