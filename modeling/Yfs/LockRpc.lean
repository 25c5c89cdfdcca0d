/-
# Lock calls over the network (`lock_client.cc`, `lock_server.cc`, `lock_smain.cc`)

The lock server behind the RPC system.  Its handlers are the critical sections of `Yfs.LockServer`: the
thread that runs the job `j` is the thread `j` there, and it may sleep in `acquire` for as long as the
lock is taken.

* `lock_calls_atomic`: what the clients see of their calls is a table of locks that serves each of them
  at once.
* `critical_sections`: when clients release only locks they have acquired, no two of them are ever
  between the return of `acquire` and the call of `release` for one lock, whatever the network does to
  the messages and whichever calls are given up.

A stub stops the client when the status is not `OK`; the locks of this client stay taken.
-/
import Yfs.CriticalSections
import Yfs.ExtentRpc
import Yfs.LockServer
import Yfs.WaitingHandlers

open NetworkOrder

/-- The method behind `lock_protocol::stat`. -/
def LockServer.stat (s : LockServer) : Int32 := s.nacquire

namespace LockRpc

/-! ## The stubs -/

/-- `lock_protocol::rpc_numbers`. -/
inductive Proc
  | acquire
  | release
  | stat
  deriving DecidableEq, Repr

/-- The values of `rpc_numbers`. -/
def Proc.code : Proc → ℕ
  | acquire => 0x7001
  | release => 0x7002
  | stat => 0x7003

/-- A call of `lock_client`, with the `id()` of its `rpcc`. -/
structure LockCall where
  proc : Proc
  id : UInt32
  lid : LockId
  deriving DecidableEq, Repr

/-- The arguments, as the stubs hand them to `rpcc::call`. -/
def LockCall.marshal (c : LockCall) : Put :=
  Marshall.putUInt c.id >=> Marshall.putULongLong c.lid

/-- What a stub returns after `call1` has returned `intret`: `r`, or `none` when the client stops because
the call has failed, the reply cannot be read or the status is not `OK`. -/
def returned (intret : ℤ) (u : Unmarshall) : Option Int32 := do
  if intret < 0 then none
  else
    let (r, u) ← Unmarshall.getInt u
    if u.okdone ∧ intret = 0 then return r else none

/-! ## The handlers -/

/-- `args >> a1; args >> a2;` of the three handlers. -/
def handlerArgs : Get (Int32 × LockId) := do
  let clt ← Unmarshall.getInt
  let lid ← Unmarshall.getULongLong
  return (clt, lid)

/-- The handler for the procedure `p` has read these arguments. -/
def Args (p : Proc) (i : ProcCall) (clt : Int32) (lid : LockId) : Prop :=
  i.proc = p.code ∧ ∃ hdr u, hdr.length = rpcHeaderSz ∧
    handlerArgs (.behind hdr i.body) = some ((clt, lid), u) ∧ u.okdone = true

/-- The method has returned `OK` and written `r`, and the handler marshals it. -/
def Sends (r : Int32) (o : ProcResult) : Prop :=
  o.ret = 0 ∧ ∃ fresh m, Marshall.putInt r (Marshall.init fresh) = some m ∧ m.body = o.body

/-- The server; its threads go by the jobs they run. -/
abbrev Server := LockServer.Sys ℕ Int32

/-- The steps of `acquire` before its last critical section. -/
inductive Works : Server → ℕ → ProcCall → Server → Prop
  | sleep {x : Server} {j : ℕ} {i : ProcCall} {clt : Int32} {lid : LockId}
      (hi : Args .acquire i clt lid) (hen : x.Enabled (.acquire j clt lid))
      (hno : (x.server.acquire lid).1 = false) : Works x j i (x.next (.acquire j clt lid))
  | wakeup {x : Server} {j : ℕ} {i : ProcCall} (hen : x.Enabled (.wakeup j)) :
      Works x j i (x.next (.wakeup j))
  | sleepAgain {x : Server} {j : ℕ} {i : ProcCall} {clt r : Int32} {lid : LockId}
      (hi : Args .acquire i clt lid) (hphase : x.phase j = .woken clt lid r)
      (hno : (x.server.recheck lid).1 = false) : Works x j i (x.next (.recheck j))

/-- The last critical section of each method and the return of the handler. -/
inductive Returns : Server → ℕ → ProcCall → ProcResult → Server → Prop
  | acquire {x : Server} {j : ℕ} {i : ProcCall} {o : ProcResult} {clt : Int32} {lid : LockId}
      (hi : Args .acquire i clt lid) (hen : x.Enabled (.acquire j clt lid))
      (hyes : (x.server.acquire lid).1 = true) (ho : Sends x.server.nacquire o) :
      Returns x j i o (x.next (.acquire j clt lid))
  | recheck {x : Server} {j : ℕ} {i : ProcCall} {o : ProcResult} {clt r : Int32} {lid : LockId}
      (hi : Args .acquire i clt lid) (hphase : x.phase j = .woken clt lid r)
      (hyes : (x.server.recheck lid).1 = true) (ho : Sends r o) : Returns x j i o (x.next (.recheck j))
  | release {x : Server} {j : ℕ} {i : ProcCall} {o : ProcResult} {clt : Int32} {lid : LockId}
      {woken : List ℕ} (hi : Args .release i clt lid) (hen : x.Enabled (.release clt lid woken))
      (ho : Sends x.server.nacquire o) : Returns x j i o (x.next (.release clt lid woken))
  | stat {x : Server} {j : ℕ} {i : ProcCall} {o : ProcResult} {clt : Int32} {lid : LockId}
      (hi : Args .stat i clt lid) (ho : Sends x.server.stat o) : Returns x j i o x

/-! ## The table of locks -/

/-- The bytes of the arguments. -/
def LockCall.bytes (c : LockCall) : List UInt8 := be32 c.id ++ be64 c.lid

/-- The request of the call. -/
def input (c : LockCall) : ProcCall := ⟨c.proc.code, c.bytes⟩

/-- The stub returns to its caller, and does not stop the client. -/
def Answers (o : ProcResult) : Prop :=
  ∃ r, ∀ hdr : List UInt8, hdr.length = rpcHeaderSz → returned o.ret (.behind hdr o.body) = some r

/-- Which locks are taken. -/
abbrev Table := LockId → Bool

/-- What the clients are promised: `acquire` is served when the lock is free. -/
inductive Grants : Table → ProcCall → ProcResult → Table → Prop
  | acquire {x : Table} {o : ProcResult} (id : UInt32) (lid : LockId) (hfree : x lid = false)
      (ho : Answers o) : Grants x (input ⟨.acquire, id, lid⟩) o (Function.update x lid true)
  | release {x : Table} {o : ProcResult} (id : UInt32) (lid : LockId) (ho : Answers o) :
      Grants x (input ⟨.release, id, lid⟩) o (Function.update x lid false)
  | stat {x : Table} {o : ProcResult} (id : UInt32) (lid : LockId) (ho : Answers o) :
      Grants x (input ⟨.stat, id, lid⟩) o x

/-- The request comes from a stub. -/
def ByStub (i : ProcCall) : Prop :=
  ∃ (c : LockCall) (fresh : ℕ → UInt8) (m : Marshall), i.proc = c.proc.code ∧
    c.marshal (Marshall.init fresh) = some m ∧ i.body = m.body

open Marshall Unmarshall

theorem writes_marshal (c : LockCall) : Writes c.marshal c.bytes :=
  (writes_putUInt c.id).comp (writes_putULongLong c.lid)

theorem reads_handlerArgs (c : LockCall) : Reads handlerArgs c.bytes (c.id.toInt32, c.lid) := by
  have hclt : Reads getInt (be32 c.id) c.id.toInt32 := by
    have h := reads_unpack c.id.toInt32
    rwa [UInt32.toUInt32_toInt32] at h
  exact hclt.bind ((reads_getULongLong c.lid).map (fun lid => (c.id.toInt32, lid)))

theorem length_bytes (c : LockCall) : c.bytes.length = 12 := rfl

/-- The stub of a call stores the bytes of the call. -/
theorem body_of_marshal {c : LockCall} {fresh : ℕ → UInt8} {m : Marshall}
    (hm : c.marshal (Marshall.init fresh) = some m) : m.body = c.bytes := by
  have hsize : rpcHeaderSz + c.bytes.length < 2 ^ 30 := by
    rw [length_bytes]
    decide
  obtain ⟨m', hm', hbytes⟩ := ExtentRpc.body_of_writes (writes_marshal c) hsize fresh
  obtain rfl : m' = m := Option.some.inj (hm'.symm.trans hm)
  exact hbytes

theorem eq_input_of_byStub {i : ProcCall} (h : ByStub i) : ∃ c, i = input c := by
  obtain ⟨c, fresh, m, hproc, hm, hbody⟩ := h
  refine ⟨c, ?_⟩
  rw [input, ← hproc, ← body_of_marshal hm, ← hbody]

theorem handlerArgs_bytes (c : LockCall) {hdr : List UInt8} (hhdr : hdr.length = rpcHeaderSz) :
    ∃ u, handlerArgs (.behind hdr c.bytes) = some ((c.id.toInt32, c.lid), u) ∧ u.okdone = true := by
  refine ExtentRpc.okdone_of_reads (reads_handlerArgs c) ?_
  rw [List.length_append, length_bytes, hhdr]
  decide

theorem Proc.code_injective : Function.Injective Proc.code := by
  intro p p' h
  cases p <;> cases p' <;> first | rfl | exact absurd h (by decide)

/-- **The handler reads the arguments of the stub.** -/
theorem Args.eq_input {p : Proc} {i : ProcCall} {clt : Int32} {lid : LockId} (h : Args p i clt lid)
    (hi : ∃ c, i = input c) : ∃ id, i = input ⟨p, id, lid⟩ := by
  obtain ⟨⟨p', id, lid'⟩, rfl⟩ := hi
  obtain ⟨hproc, hdr, u, hhdr, hargs, -⟩ := h
  obtain rfl := Proc.code_injective hproc
  obtain ⟨u', hu', -⟩ := handlerArgs_bytes ⟨p', id, lid'⟩ hhdr
  have heq := hargs.symm.trans hu'
  simp only [Option.some.injEq, Prod.mk.injEq] at heq
  obtain ⟨⟨-, rfl⟩, -⟩ := heq
  exact ⟨id, rfl⟩

/-- **The stub returns what the method has written.** -/
theorem Sends.answers {r : Int32} {o : ProcResult} (h : Sends r o) : Answers o := by
  obtain ⟨hret, fresh, m, hm, hbody⟩ := h
  have hsize : rpcHeaderSz + (be32 r.toUInt32).length < 2 ^ 30 := by
    show rpcHeaderSz + 4 < 2 ^ 30
    decide
  obtain ⟨m', hm', hbytes⟩ := ExtentRpc.body_of_writes (writes_putUInt r.toUInt32) hsize fresh
  obtain rfl : m' = m := Option.some.inj (hm'.symm.trans hm)
  refine ⟨r, fun hdr hhdr => ?_⟩
  have hlen : (hdr ++ be32 r.toUInt32).length < 2 ^ 31 := by
    rw [List.length_append, hhdr]
    show rpcHeaderSz + 4 < 2 ^ 31
    decide
  obtain ⟨u, hu, hdone⟩ := ExtentRpc.okdone_of_reads (reads_unpack r) hlen
  rw [← hbody, hbytes, hret, returned, if_neg (by decide)]
  show (getInt _).bind _ = _
  rw [show getInt (.behind hdr (be32 r.toUInt32)) = _ from hu, Option.bind_some]
  exact if_pos ⟨hdone, rfl⟩

/-! ## The server is the table -/

/-- What a critical section of `acquire` does to the table when it takes the lock. -/
theorem table_granted {x x' : LockServer} {lid : LockId}
    (h : ∀ lid', x'.isLocked lid' = (x.isLocked lid' || decide (lid' = lid))) :
    x'.isLocked = Function.update x.isLocked lid true := by
  funext lid'
  rw [h]
  by_cases hl : lid' = lid
  · simp [hl]
  · simp [hl]

/-- And when it does not. -/
theorem table_refused {x x' : LockServer} {lid : LockId} (hlocked : x.isLocked lid = true)
    (h : ∀ lid', x'.isLocked lid' = (x.isLocked lid' || decide (lid' = lid))) :
    x'.isLocked = x.isLocked := by
  funext lid'
  rw [h]
  by_cases hl : lid' = lid
  · simp [hl, hlocked]
  · simp [hl]

theorem server_recheck {x : Server} {j : ℕ} {clt r : Int32} {lid : LockId}
    (hphase : x.phase j = .woken clt lid r) : (x.next (.recheck j)).server = (x.server.recheck lid).2 := by
  simp only [LockServer.Sys.next, hphase, LockServer.Sys.finish]

/-- A thread that sleeps or wakes up leaves the table alone. -/
theorem isLocked_of_works {x x' : Server} {j : ℕ} {i : ProcCall} (h : Works x j i x') :
    x'.server.isLocked = x.server.isLocked := by
  cases h with
  | @sleep clt lid hi hen hno =>
    have hspec := LockServer.acquire_spec x.server lid
    rw [hno] at hspec
    exact table_refused (by simpa using hspec.1.symm) hspec.2
  | wakeup hen => rfl
  | @sleepAgain clt r lid hi hphase hno =>
    have hspec := LockServer.recheck_spec x.server lid
    rw [hno] at hspec
    rw [server_recheck hphase]
    exact table_refused (by simpa using hspec.1.symm) hspec.2

/-- **A handler that returns has served its call.** -/
theorem grants_of_returns {x x' : Server} {j : ℕ} {i : ProcCall} {o : ProcResult} (hi : ByStub i)
    (h : Returns x j i o x') : Grants x.server.isLocked i o x'.server.isLocked := by
  have hinput := eq_input_of_byStub hi
  cases h with
  | @acquire clt lid hargs hen hyes ho =>
    obtain ⟨id, rfl⟩ := hargs.eq_input hinput
    have hspec := LockServer.acquire_spec x.server lid
    have htable : (x.next (.acquire j clt lid)).server.isLocked =
        Function.update x.server.isLocked lid true := table_granted hspec.2
    rw [hyes] at hspec
    rw [htable]
    exact .acquire id lid (by simpa using hspec.1.symm) ho.answers
  | @recheck clt r lid hargs hphase hyes ho =>
    obtain ⟨id, rfl⟩ := hargs.eq_input hinput
    have hspec := LockServer.recheck_spec x.server lid
    have htable := table_granted hspec.2
    rw [hyes] at hspec
    rw [server_recheck hphase, htable]
    exact .acquire id lid (by simpa using hspec.1.symm) ho.answers
  | @release clt lid woken hargs hen ho =>
    obtain ⟨id, rfl⟩ := hargs.eq_input hinput
    have htable : (x.next (.release clt lid woken)).server.isLocked =
        Function.update x.server.isLocked lid false := by
      funext lid'
      show (x.server.release lid).isLocked lid' = _
      rw [LockServer.isLocked_release]
      by_cases hl : lid' = lid
      · simp [hl]
      · simp [hl]
    rw [htable]
    exact .release id lid ho.answers
  | @stat clt lid hargs ho =>
    obtain ⟨id, rfl⟩ := hargs.eq_input hinput
    exact .stat id lid ho.answers

variable {nonce : ℕ}

/-- The steps of clients, network and lock server. -/
def LockStep (nonce : ℕ) : Remote Server → Remote.WaitLabel → Remote Server → Prop :=
  Guarded (Remote.WaitSafe ByStub) (Remote.WaitStep nonce Works Returns)

/-- The calls and the table that a state stands for. -/
def calls (s : Remote Server) : AtomicCalls (ℕ × ℕ) ProcCall ProcResult Table :=
  Remote.toCalls ⟨s.rpc, s.service.server.isLocked⟩

theorem refines_step {s s' : Remote Server} {l : Remote.WaitLabel}
    (hi : Remote.WaitInv ByStub s.rpc) (h : LockStep nonce s l s') :
    Remote.WaitInv ByStub s'.rpc ∧ Trace (AtomicCalls.Step (Handlers nonce Grants)) (calls s)
      (s.observeWait l) (calls s') :=
  Remote.waiting_step (fun x : Server => x.server.isLocked)
    (fun _ _ _ _ _ hx => isLocked_of_works hx) (fun _ _ _ _ _ hgood hx => grants_of_returns hgood hx) hi h

/-- The lock server when it starts. -/
def start (nonce : ℕ) : Remote Server := Remote.init nonce .start

theorem calls_start (nonce : ℕ) : calls (start nonce) = .start (fun _ => false) := by
  have h := Remote.toCalls_init nonce (fun _ : LockId => false)
  rw [← h]
  rfl

/-- **Lock calls are served at once.**  What is seen of the calls of all clients is a history of a table
of locks that grants an `acquire` when the lock is free. -/
theorem lock_calls_atomic {t : List Remote.WaitLabel} {s : Observed (Remote Server) RemoteEvent}
    (h : Trace (Watching (LockStep nonce) Remote.observeWait) ⟨start nonce, []⟩ t s) :
    Trace (AtomicCalls.Step (Handlers nonce Grants)) (.start (fun _ => false)) s.seen
      (calls s.state) := by
  rw [← calls_start nonce]
  exact (Trace.observed (I := fun s => Remote.WaitInv ByStub s.rpc) calls
    (Remote.waitInv_init ByStub nonce) (fun _ _ _ hi hs => refines_step hi hs) h).2

/-! ## Critical sections -/

/-- What a request asks of the lock server. -/
def request (i : ProcCall) : LockRequest LockId :=
  match handlerArgs (.behind (List.replicate rpcHeaderSz 0) i.body) with
  | some ((_, lid), _) =>
    if i.proc = Proc.acquire.code then .acquire lid
    else if i.proc = Proc.release.code then .release lid
    else .neither
  | none => .neither

theorem request_input (c : LockCall) : request (input c) =
    match c.proc with
    | .acquire => .acquire c.lid
    | .release => .release c.lid
    | .stat => .neither := by
  obtain ⟨u, hu, -⟩ := handlerArgs_bytes c (List.length_replicate (n := rpcHeaderSz) (a := (0 : UInt8)))
  rw [request, input, hu]
  cases hp : c.proc <;> rfl

theorem request_bind {i : ProcCall} (hi : i.proc = Rpcc.bindProc) : request i = .neither := by
  unfold request
  split
  · rw [hi]
    rfl
  · rfl

/-- **What a call does to the table**, in terms of its request. -/
theorem Grants.effect {x x' : Table} {i : ProcCall} {o : ProcResult} (h : Grants x i o x') :
    match request i with
    | .acquire lid => x lid = false ∧ x' = Function.update x lid true
    | .release lid => x' = Function.update x lid false
    | .neither => x' = x := by
  cases h with
  | acquire id lid hfree ho =>
    rw [request_input]
    exact ⟨hfree, rfl⟩
  | release id lid ho => rw [request_input]
  | stat id lid ho => rw [request_input]

theorem isLockService (nonce : ℕ) : AtomicCalls.IsLockService (Handlers nonce Grants) request
    (fun x lid => x lid = true) where
  acquire x i o x' lid h hr := by
    cases h with
    | rpcbind hi =>
      rw [request_bind hi] at hr
      cases hr
    | service _ h =>
      have heffect := h.effect
      rw [hr] at heffect
      obtain ⟨hfree, rfl⟩ := heffect
      refine ⟨by simp [hfree], fun l => ?_⟩
      by_cases hl : l = lid
      · simp [hl]
      · simp [hl]
  release x i o x' lid h hr := by
    cases h with
    | rpcbind hi =>
      rw [request_bind hi] at hr
      cases hr
    | service _ h =>
      have heffect := h.effect
      rw [hr] at heffect
      obtain rfl := heffect
      intro l
      by_cases hl : l = lid
      · simp [hl]
      · simp [hl]
  neither x i o x' h hr := by
    cases h with
    | rpcbind hi => exact fun l => Iff.rfl
    | service _ h =>
      have heffect := h.effect
      rw [hr] at heffect
      obtain rfl := heffect
      exact fun l => Iff.rfl

/-- The client of the call `k` is between the return of `acquire` and the call of `release`. -/
def Inside (h : List RemoteEvent) (k : ℕ × ℕ) (lid : LockId) : Prop :=
  AtomicCalls.Inside request Prod.fst h k lid

/-- Clients release only what they have acquired. -/
def Disciplined (h : List RemoteEvent) : Prop := AtomicCalls.Disciplined request Prod.fst h

/-- The call accounts for the lock: an `acquire` that has run and has not returned, one whose client is
inside, or a `release` that has not run. -/
def Owns (s : Observed (Remote Server) RemoteEvent) (k : ℕ × ℕ) (lid : LockId) : Prop :=
  AtomicCalls.Owns request Prod.fst s.seen (calls s.state) k lid

/-- **Critical sections do not overlap.**  Clients call the lock server through the stubs, and release
only what they have acquired.  In every safe run, whatever the network does to the messages and
whichever calls are given up: at most one call accounts for a lock, so that no two clients are inside
the critical section of a lock, and the lock is taken exactly when there is such a call. -/
theorem critical_sections {t : List Remote.WaitLabel} {s : Observed (Remote Server) RemoteEvent}
    (h : Trace (Watching (LockStep nonce) Remote.observeWait) ⟨start nonce, []⟩ t s)
    (hd : Disciplined s.seen) (lid : LockId) :
    (∀ k k', Owns s k lid → Owns s k' lid → k = k') ∧
    (∀ k k', Inside s.seen k lid → Inside s.seen k' lid → k = k') ∧
    (s.state.service.server.isLocked lid = true ↔ ∃ k, Owns s k lid) := by
  obtain ⟨owner, hown⟩ := AtomicCalls.owners_of_trace (isLockService nonce) (by simp) hd
    (lock_calls_atomic h)
  refine ⟨?_, fun k k' => hown.inside_unique, ?_⟩
  · intro k k' hk hk'
    have h₁ := (hown.owns k lid).1 hk
    rw [(hown.owns k' lid).1 hk'] at h₁
    exact (Option.some.inj h₁).symm
  · refine Iff.trans (hown.taken lid) ?_
    rw [Option.ne_none_iff_exists']
    exact exists_congr (fun k => (hown.owns k lid).symm)

/-- What is issued has been called. -/
theorem called_of_issue {t : List Remote.WaitLabel} {s : Observed (Remote Server) RemoteEvent}
    (h : Trace (Watching (LockStep nonce) Remote.observeWait) ⟨start nonce, []⟩ t s) :
    ∀ k i, .issue k i ∈ s.seen → ∃ c, .rpc (.call c i.proc i.body) ∈ t := by
  induction h with
  | nil => simp
  | @snoc t s s' l _ hs ih =>
    intro k i hm
    rw [hs.2] at hm
    rcases List.mem_append.1 hm with hm | hm
    · obtain ⟨c, hc⟩ := ih k i hm
      exact ⟨c, List.mem_append_left _ hc⟩
    · cases l with
      | handler j => cases hm
      | rpc l =>
        obtain ⟨c, proc, body, rfl, q, cl, hc, -, hq⟩ := RpcSystem.call_of_issue hm
        refine ⟨c, List.mem_append_right _ ?_⟩
        rw [hq, (Rpcc.call1_ok hc).1]
        exact List.mem_singleton_self _

/-- Clients that release nothing are disciplined. -/
theorem disciplined_of_called {t : List Remote.WaitLabel} {s : Observed (Remote Server) RemoteEvent}
    (h : Trace (Watching (LockStep nonce) Remote.observeWait) ⟨start nonce, []⟩ t s)
    (ht : ∀ c proc body, .rpc (.call c proc body) ∈ t → proc ≠ Proc.release.code) :
    Disciplined s.seen := by
  intro before after k i lid hseen hr
  exfalso
  obtain ⟨c, hc⟩ := called_of_issue h k i (by simp [hseen])
  have hproc := ht c _ _ hc
  unfold request at hr
  split at hr
  · -- the code is neither that of `acquire` nor, by `hproc`, that of `release`
    split_ifs at hr
  · cases hr

/-- The lock server after the first `acquire` of lock 9, in whichever job. -/
def granted (execs : List Exec) : Server :=
  execs.foldl (fun x e => if e.request.proc = Proc.acquire.code then x.next (.acquire 0 7 9) else x) .start

theorem next_acquire_start (j : ℕ) :
    (LockServer.Sys.start : Server).next (.acquire j 7 9) = LockServer.Sys.start.next (.acquire 0 7 9) := by
  have hphase : ∀ k : ℕ, Function.update (LockServer.Sys.start : Server).phase k .idle =
      (LockServer.Sys.start : Server).phase := fun k => Function.update_eq_self k _
  show LockServer.Sys.mk _ (Function.update _ j .idle) _ = LockServer.Sys.mk _ (Function.update _ 0 .idle) _
  rw [hphase, hphase]

theorem byStub_input (c : LockCall) : ByStub (input c) := by
  have hsize : rpcHeaderSz + c.bytes.length < 2 ^ 30 := by
    rw [length_bytes]
    decide
  obtain ⟨m, hm, hbody⟩ := ExtentRpc.body_of_writes (writes_marshal c) hsize (fun _ => 0)
  exact ⟨c, _, m, rfl, hm, hbody.symm⟩

theorem args_input (c : LockCall) : Args c.proc (input c) c.id.toInt32 c.lid := by
  obtain ⟨u, hu, hdone⟩ := handlerArgs_bytes c
    (List.length_replicate (n := rpcHeaderSz) (a := (0 : UInt8)))
  exact ⟨rfl, _, u, List.length_replicate .., hu, hdone⟩

theorem sends_be32 (r : Int32) : Sends r ⟨0, be32 r.toUInt32⟩ := by
  have hsize : rpcHeaderSz + (be32 r.toUInt32).length < 2 ^ 30 := by
    show rpcHeaderSz + 4 < 2 ^ 30
    decide
  obtain ⟨m, hm, hbody⟩ := ExtentRpc.body_of_writes (writes_putUInt r.toUInt32) hsize (fun _ => 0)
  exact ⟨rfl, _, m, hm, hbody⟩

/-- While the client 7 has lock 9, the `acquire` of the client 8 sleeps. -/
theorem critical_sections_waiting : ∃ t s k,
    Trace (Watching (LockStep 5) Remote.observeWait) ⟨start 5, []⟩ t s ∧
      s.state.service.phase 0 = .asleep 8 9 0 ∧ Owns s k 9 ∧ ∀ k', Owns s k' 9 → k' = k := by
  let c₇ : LockCall := ⟨.acquire, 7, 9⟩
  let c₈ : LockCall := ⟨.acquire, 8, 9⟩
  let q₇ : Request := ⟨2, 0x7001, 7, 5, 1, c₇.bytes⟩
  let q₈ : Request := ⟨2, 0x7001, 8, 5, 1, c₈.bytes⟩
  let ls : List RpcLabel := List.flatten
    [RpcSystem.binding 7 5, .call 7 0x7001 c₇.bytes :: RpcSystem.served q₇ 0 (be32 0),
      RpcSystem.binding 8 5, [.call 8 0x7001 c₈.bytes, .deliver 0 q₈, .check 0]]
  have hrun : ((RpcSystem.init 5).run (RpcSystem.SafeBelow 1) ls).any (fun s => decide
      (s.jobs 0 = some (.running q₈) ∧ s.execs =
        [⟨⟨1, 1, 7, 0, 0, []⟩, 0, packInt 5⟩, ⟨q₇, 0, be32 0⟩,
          ⟨⟨1, 1, 8, 0, 0, []⟩, 0, packInt 5⟩])) = true := by
    decide +kernel
  obtain ⟨s, ht, hs⟩ := RpcSystem.exists_trace hrun
  obtain ⟨hj, hexecs⟩ := of_decide_eq_true hs
  have hcalls : ∀ c proc body, .call c proc body ∈ ls →
      proc = Rpcc.bindProc ∨ ∃ c : LockCall, c.proc = .acquire ∧ (⟨proc, body⟩ : ProcCall) = input c := by
    simp only [ls, RpcSystem.binding, RpcSystem.served, List.flatten_cons, List.flatten_nil,
      List.cons_append, List.nil_append, List.mem_cons, List.not_mem_nil, reduceCtorEq, false_or,
      or_false, RpcLabel.call.injEq]
    rintro c proc body (⟨-, rfl, -⟩ | ⟨-, rfl, rfl⟩ | ⟨-, rfl, -⟩ | ⟨-, rfl, rfl⟩)
    · exact .inl rfl
    · exact .inr ⟨c₇, rfl, rfl⟩
    · exact .inl rfl
    · exact .inr ⟨c₈, rfl, rfl⟩
  have hwait : Trace (LockStep 5) (Remote.init 5 (granted [])) (ls.map .rpc) ⟨s, granted s.execs⟩ := by
    refine Remote.exists_waited granted (RpcSystem.trace_safe ht).1 ?_ ?_
    · intro l hl
      cases l with
      | call c proc body =>
        obtain rfl | ⟨c', -, hc'⟩ := hcalls c proc body hl
        · exact .inl rfl
        · exact .inr (hc' ▸ byStub_input c')
      | _ => trivial
    · rw [hexecs]
      rintro execs e ⟨rest, hrest⟩ j
      rcases execs with - | ⟨e₁, - | ⟨e₂, - | ⟨e₃, execs⟩⟩⟩
      · cases hrest
        exact .rpcbind rfl
      · cases hrest
        refine .service (by decide) ?_
        have hret : Returns .start j (input c₇) ⟨0, be32 0⟩ (LockServer.Sys.start.next (.acquire j 7 9)) :=
          .acquire (args_input c₇) rfl rfl (sends_be32 0)
        rwa [next_acquire_start] at hret
      · cases hrest
        exact .rpcbind rfl
      · simp at hrest
  -- the second `acquire` finds the lock taken
  have hworks : Works (granted s.execs) 0 (input c₈) ((granted s.execs).next (.acquire 0 8 9)) :=
    .sleep (args_input c₈) (by rw [hexecs]; rfl) (by rw [hexecs]; rfl)
  have hstep : LockStep 5 ⟨s, granted s.execs⟩ (.handler 0)
      ⟨s, (granted s.execs).next (.acquire 0 8 9)⟩ := ⟨trivial, .handler hj (by decide) hworks⟩
  have hsleep := hwait.snoc hstep
  obtain ⟨seen, hw⟩ : ∃ seen, Trace (Watching (LockStep 5) Remote.observeWait) ⟨start 5, []⟩ _
      ⟨_, seen⟩ := hsleep.exists_watching
  have hd : Disciplined seen := by
    refine disciplined_of_called hw ?_
    rintro c proc body hm rfl
    have hm : .call c Proc.release.code body ∈ ls := by simpa using hm
    obtain hbind | ⟨c', hc', heq⟩ := hcalls c _ body hm
    · cases hbind
    · have hcode := (ProcCall.mk.inj heq).1
      rw [hc'] at hcode
      cases hcode
  obtain ⟨hunique, -, hlocked⟩ := critical_sections hw hd 9
  obtain ⟨k, hk⟩ := hlocked.1 (by rw [hexecs]; rfl)
  exact ⟨_, _, k, hw, by rw [hexecs]; rfl, hk, fun k' hk' => hunique k' k hk' hk⟩

end LockRpc
