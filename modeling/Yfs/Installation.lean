/-
# The whole installation

Any number of `yfs_client`s, a lock server and an extent server, which are connected by nothing but the
two RPC systems.  Each client has an `extent_client` and a `lock_client` with an `rpcc` each, and runs one
operation at a time; the two `main`s of the servers register the handlers.

* A client that comes to a call marshals it, hands it to `call1` and waits until `call1` returns.  It
  goes on with what its stub makes of the reply.
* Everything else happens at any time: messages are sent again, lost, delayed, duplicated; jobs are
  dispatched, handlers run, threads of the lock server sleep and wake up; an `rpcc` binds; the keys and
  groups are administered.
* The runs are those in which no call of a client fails, and in which both RPC systems keep their
  promises (`RpcSystem.Safe`).

`Installation.refines_clients` is the first step up from here: an installation is a system of sequential
clients whose two services serve calls at once.
-/
import Yfs.LockRpc
import Yfs.SequentialClients
import Yfs.SharedFileSystem

/-! ## The header of a reply does not matter -/

namespace Unmarshall

/-- What an operation reads behind the space of the header does not depend on what stands there. -/
def Blind {α : Type} (g : Get α) : Prop :=
  ∀ (hdr hdr' body : List UInt8) (n : ℕ) (ok : Bool), hdr.length = hdr'.length → hdr.length ≤ n →
    (g ⟨hdr ++ body, n, ok⟩ = none ∧ g ⟨hdr' ++ body, n, ok⟩ = none) ∨
    ∃ a n' ok', hdr.length ≤ n' ∧ g ⟨hdr ++ body, n, ok⟩ = some (a, ⟨hdr ++ body, n', ok'⟩) ∧
      g ⟨hdr' ++ body, n, ok⟩ = some (a, ⟨hdr' ++ body, n', ok'⟩)

variable {α β : Type}

theorem blind_pure (a : α) : Blind (pure a) :=
  fun _ _ _ n ok _ hn => .inr ⟨a, n, ok, hn, rfl, rfl⟩

theorem Blind.bind {g : Get α} {f : α → Get β} (hg : Blind g) (hf : ∀ a, Blind (f a)) :
    Blind (g >>= f) := by
  intro hdr hdr' body n ok hlen hn
  rcases hg hdr hdr' body n ok hlen hn with ⟨h, h'⟩ | ⟨a, n', ok', hn', h, h'⟩
  · refine .inl ⟨?_, ?_⟩
    · show (g _).bind _ = none
      rw [h, Option.bind_none]
    · show (g _).bind _ = none
      rw [h', Option.bind_none]
  · have hbind : ∀ u u', g u = some (a, u') → (g >>= f) u = f a u' := by
      intro u u' hu
      show (g u).bind _ = _
      rw [hu, Option.bind_some]
    rw [hbind _ _ h, hbind _ _ h']
    exact hf a hdr hdr' body n' ok' hlen hn'

theorem Blind.map {g : Get α} (hg : Blind g) (f : α → β) : Blind (do let a ← g; return f a) :=
  hg.bind (fun a => blind_pure (f a))

theorem blind_rawbyte : Blind rawbyte := by
  intro hdr hdr' body n ok hlen hn
  have hbuf : (hdr ++ body).length = (hdr' ++ body).length := by
    rw [List.length_append, List.length_append, hlen]
  refine .inr ?_
  unfold rawbyte
  by_cases hend : (hdr ++ body).length ≤ n
  · rw [if_pos hend, if_pos (hbuf ▸ hend)]
    exact ⟨_, n, false, hn, rfl, rfl⟩
  · rw [if_neg hend, if_neg (hbuf ▸ hend)]
    refine ⟨_, n + 1, ok, by omega, rfl, ?_⟩
    have hbyte : (hdr' ++ body).getD n 0 = (hdr ++ body).getD n 0 := by
      rw [List.getD_append_right _ _ _ _ hn, List.getD_append_right _ _ _ _ (hlen ▸ hn), hlen]
    dsimp only
    rw [hbyte]

theorem blind_rawbytes (old : Str) (sz : UInt32) : Blind (rawbytes old sz) := by
  intro hdr hdr' body n ok hlen hn
  have hbuf : (hdr' ++ body).length = (hdr ++ body).length := by
    rw [List.length_append, List.length_append, hlen]
  have hbytes : (hdr' ++ body).drop n = (hdr ++ body).drop n := by
    rw [List.drop_append, List.drop_append, List.drop_eq_nil_of_le hn,
      List.drop_eq_nil_of_le (hlen ▸ hn), hlen]
  unfold rawbytes
  dsimp only
  rw [hbuf, hbytes]
  split_ifs
  · exact .inr ⟨_, n, false, hn, rfl, rfl⟩
  · exact .inr ⟨_, n + sz.toNat, ok, by omega, rfl, rfl⟩
  · exact .inl ⟨rfl, rfl⟩

theorem blind_getUInt : Blind getUInt :=
  Blind.bind blind_rawbyte fun _ => Blind.bind blind_rawbyte fun _ =>
    Blind.bind blind_rawbyte fun _ => Blind.map blind_rawbyte _

theorem blind_getInt : Blind getInt :=
  Blind.bind blind_rawbyte fun _ => Blind.bind blind_rawbyte fun _ =>
    Blind.bind blind_rawbyte fun _ => Blind.map blind_rawbyte _

theorem blind_getAttr : Blind getAttr :=
  Blind.bind blind_getUInt fun _ => Blind.bind blind_getUInt fun _ =>
    Blind.bind blind_getUInt fun _ => Blind.bind blind_getUInt fun _ =>
      Blind.bind blind_getUInt fun _ => Blind.bind blind_getUInt fun _ =>
        Blind.map blind_getUInt _

theorem blind_getString : Blind getString := by
  refine Blind.bind blind_getUInt (fun sz => ?_)
  intro hdr hdr' body n ok hlen hn
  cases ok with
  | false => exact .inr ⟨[], n, false, hn, rfl, rfl⟩
  | true => exact blind_rawbytes [] sz hdr hdr' body n true hlen hn

end Unmarshall

open Unmarshall in
/-- **A stub does not look at the header of the reply.** -/
theorem Call.receive_congr (c : Call) (ret : ℤ) {hdr hdr' : List UInt8} (hlen : hdr.length = hdr'.length)
    (body : List UInt8) : c.receive ret (.behind hdr body) = c.receive ret (.behind hdr' body) := by
  have hblind : Blind c.getResult := by
    cases c with
    | get => exact Blind.map blind_getString _
    | getattr => exact Blind.map blind_getAttr _
    | _ => exact Blind.map blind_getInt _
  have hok : ∀ n ok, Unmarshall.okdone ⟨hdr ++ body, n, ok⟩ = Unmarshall.okdone ⟨hdr' ++ body, n, ok⟩ := by
    intro n ok
    simp [Unmarshall.okdone, hlen]
  unfold Call.receive
  rcases hblind hdr hdr' body hdr.length true hlen le_rfl with ⟨h, h'⟩ | ⟨a, n, ok, -, h, h'⟩
  · rw [behind, behind, ← hlen, h, h']
  · rw [behind, behind, ← hlen, h, h']
    show (if Unmarshall.okdone _ then _ else _) = if Unmarshall.okdone _ then _ else _
    rw [hok]

/-! ## The model -/

/-- The nonces of the two servers, and those of the two `rpcc`s of each client. -/
structure Nonces (τ : Type) where
  lockServer : ℕ
  extentServer : ℕ
  lockClient : τ → ℕ
  extentClient : τ → ℕ

/-- The two servers. -/
inductive Service
  | lock
  | extent
  deriving DecidableEq, Repr

/-- The installation: the two RPC systems with their servers; for each client the rest of the operation
it runs and the call it waits for; the inums that are in use (`Cluster`), and the operations so far. -/
structure Installation (τ : Type) where
  locks : Remote LockRpc.Server
  extents : Remote ExtentServer
  prog : τ → Option FsProg
  awaits : τ → Option (Service × (ℕ × ℕ))
  inums : List Inum
  ops : List (Cluster.Operation τ)

namespace Installation

variable {τ : Type} [DecidableEq τ]

/-- The steps. -/
inductive Label (τ : Type)
  | issue (t : τ) (cl : YfsClient) (c : FsCall)
  | call (t : τ)
  | back (t : τ)
  | finish (t : τ)
  | locks (l : Remote.WaitLabel)
  | extents (l : RpcLabel)

/-- `lc_->acquire(id_)` and `lc_->release(id_)`: the procedure, the lock and the rest of the program. -/
def lockStub : FsProg → Option (LockRpc.Proc × LockId × FsProg)
  | .acquire i k => some (.acquire, i, k)
  | .release i k => some (.release, i, k)
  | _ => none

/-- What is no call of a client: an `rpcc` binds, and a call returns that no client waits for. -/
def LockBackground (s : Installation τ) : Remote.WaitLabel → Prop
  | .rpc (.call _ proc _) => proc = Rpcc.bindProc
  | .rpc (.finish c xid) => ∀ t, s.awaits t ≠ some (.lock, (c, xid))
  | _ => True

/-- The same; keys and groups may be administered if `admin` holds. -/
def ExtentBackground (admin : Prop) (s : Installation τ) : RpcLabel → Prop
  | .call _ proc body => proc = Rpcc.bindProc ∨ admin ∧ ∃ (c : Call) (fresh : ℕ → UInt8) (m : Marshall),
      c.isAdmin = true ∧ ExtentRpc.Fits c ∧ proc = c.proc ∧ c.marshal (Marshall.init fresh) = some m ∧
      body = m.body
  | .finish c xid => ∀ t, s.awaits t ≠ some (.extent, (c, xid))
  | _ => True

/-- The steps of clients, network and extent server. -/
def ExtentStep (nonce : ℕ) : Remote ExtentServer → RpcLabel → Remote ExtentServer → Prop :=
  Guarded (fun _ l => ExtentRpc.ByStubs l) (Remote.SafeStep nonce ExtentRpc.Handles)

/-- One step. -/
inductive Step (nonces : Nonces τ) (admin : Prop) : Installation τ → Label τ → Installation τ → Prop
  | issue {s : Installation τ} {t : τ} {c : FsCall} (cl : YfsClient) (hp : s.prog t = none)
      (hfree : s.awaits t = none) (hc : Cluster.Issues s.inums c) :
      Step nonces admin s (.issue t cl c) { s with
        prog := Function.update s.prog t (some (c.prog cl))
        inums := s.inums ++ c.draws
        ops := s.ops ++ [⟨t, cl, c, none⟩] }
  | finish {s : Installation τ} {t : τ} {o : Outcome FsReply} (hp : s.prog t = some (.ret o))
      (hfree : s.awaits t = none) :
      Step nonces admin s (.finish t) { s with
        prog := Function.update s.prog t none
        ops := s.ops.map (Cluster.Operation.close t o s.ops.length) }
  | lockCall {s : Installation τ} {t : τ} {p k : FsProg} {proc : LockRpc.Proc} {lid : LockId}
      {fresh : ℕ → UInt8} {m : Marshall} {q : Request} {cl : Rpcc} {locks : Remote LockRpc.Server}
      (hp : s.prog t = some p) (hstub : lockStub p = some (proc, lid, k)) (hfree : s.awaits t = none)
      (hm : LockRpc.LockCall.marshal ⟨proc, UInt32.ofNat (nonces.lockClient t), lid⟩
        (Marshall.init fresh) = some m)
      (hcall : (s.locks.rpc.clients (nonces.lockClient t)).call1 (nonces.lockClient t) proc.code m.body =
        .ok (q, cl))
      (h : LockRpc.LockStep nonces.lockServer s.locks
        (.rpc (.call (nonces.lockClient t) proc.code m.body)) locks) :
      Step nonces admin s (.call t) { s with
        locks := locks
        awaits := Function.update s.awaits t (some (.lock, q.key)) }
  | lockReturn {s : Installation τ} {t : τ} {p k : FsProg} {proc : LockRpc.Proc} {lid : LockId}
      {key : ℕ × ℕ} {ca : Caller} {hdr : List UInt8} {r : Int32} {locks : Remote LockRpc.Server}
      (hp : s.prog t = some p) (hstub : lockStub p = some (proc, lid, k))
      (ht : s.awaits t = some (.lock, key))
      (hca : (s.locks.rpc.clients key.1).calls key.2 = some ca) (hhdr : hdr.length = rpcHeaderSz)
      (hret : LockRpc.returned (Rpcc.returned ca).1 (.behind hdr (Rpcc.returned ca).2) = some r)
      (h : LockRpc.LockStep nonces.lockServer s.locks (.rpc (.finish key.1 key.2)) locks) :
      Step nonces admin s (.back t) { s with
        locks := locks
        prog := Function.update s.prog t (some k)
        awaits := Function.update s.awaits t none }
  | extentCall {s : Installation τ} {t : τ} {c : ExtentCall} {k : Resp → FsProg} {fresh : ℕ → UInt8}
      {m : Marshall} {q : Request} {cl : Rpcc} {extents : Remote ExtentServer}
      (hp : s.prog t = some (.call c k)) (hfree : s.awaits t = none) (hfits : ExtentRpc.Fits c.toCall)
      (hm : c.toCall.marshal (Marshall.init fresh) = some m)
      (hcall : (s.extents.rpc.clients (nonces.extentClient t)).call1 (nonces.extentClient t) c.toCall.proc
        m.body = .ok (q, cl))
      (h : ExtentStep nonces.extentServer s.extents
        (.call (nonces.extentClient t) c.toCall.proc m.body) extents) :
      Step nonces admin s (.call t) { s with
        extents := extents
        awaits := Function.update s.awaits t (some (.extent, q.key)) }
  | extentReturn {s : Installation τ} {t : τ} {c : ExtentCall} {k : Resp → FsProg} {key : ℕ × ℕ}
      {ca : Caller} {hdr : List UInt8} {st : ExtentStatus} {buf : Str} {a : Attr}
      {extents : Remote ExtentServer} (hp : s.prog t = some (.call c k))
      (ht : s.awaits t = some (.extent, key))
      (hca : (s.extents.rpc.clients key.1).calls key.2 = some ca) (hhdr : hdr.length = rpcHeaderSz)
      (hst : (Rpcc.returned ca).1 = st.code)
      (hret : c.toCall.receive (Rpcc.returned ca).1 (.behind hdr (Rpcc.returned ca).2) =
        some (st.code, buf, a))
      (h : ExtentStep nonces.extentServer s.extents (.finish key.1 key.2) extents) :
      Step nonces admin s (.back t) { s with
        extents := extents
        prog := Function.update s.prog t (some (k (.reply ⟨st, buf, a⟩)))
        awaits := Function.update s.awaits t none }
  | locks {s : Installation τ} {l : Remote.WaitLabel} {locks : Remote LockRpc.Server}
      (hl : s.LockBackground l) (h : LockRpc.LockStep nonces.lockServer s.locks l locks) :
      Step nonces admin s (.locks l) { s with locks := locks }
  | extents {s : Installation τ} {l : RpcLabel} {extents : Remote ExtentServer}
      (hl : s.ExtentBackground admin l) (h : ExtentStep nonces.extentServer s.extents l extents) :
      Step nonces admin s (.extents l) { s with extents := extents }

/-- Both servers and all clients when they start. -/
def start (nonces : Nonces τ) (time : UInt32) (uid : UserId) (gid : GroupId) : Installation τ where
  locks := LockRpc.start nonces.lockServer
  extents := Remote.init nonces.extentServer (ExtentServer.init time uid gid)
  prog := fun _ => none
  awaits := fun _ => none
  inums := [Fuse.root]
  ops := []

/-! ## Sequential clients of two services -/

/-- The states of the services. -/
abbrev State : Service → Type
  | .lock => LockRpc.Table
  | .extent => ExtentServer

/-- What the servers promise. -/
def serves (nonces : Nonces τ) : ∀ b, State b → ProcCall → ProcResult → State b → Prop
  | .lock => Handlers nonces.lockServer LockRpc.Grants
  | .extent => Handlers nonces.extentServer ExtentRpc.Executes

/-- The status with the value `ret`; the extent server returns no other values. -/
def status (ret : ℤ) : ExtentStatus :=
  ([.OK, .RPCERR, .NOENT, .IOERR, .NOACCESS].find? (fun st => st.code = ret)).getD .IOERR

theorem status_code (st : ExtentStatus) : status st.code = st := by
  cases st <;> rfl

/-- What a client makes of the output of its call of the extent server. -/
def response (c : ExtentCall) (o : ProcResult) : Resp :=
  match c.toCall.receive o.ret (.behind (List.replicate rpcHeaderSz 0) o.body) with
  | some (ret, buf, a) => .reply ⟨status ret, buf, a⟩
  | none => .failed .unmarshal_reply_failure

theorem response_eq {c : ExtentCall} {o : ProcResult} {hdr : List UInt8} {st : ExtentStatus} {buf : Str}
    {a : Attr} (hhdr : hdr.length = rpcHeaderSz)
    (h : c.toCall.receive o.ret (.behind hdr o.body) = some (st.code, buf, a)) :
    response c o = .reply ⟨st, buf, a⟩ := by
  have hlen : (List.replicate rpcHeaderSz (0 : UInt8)).length = hdr.length := by
    rw [List.length_replicate, hhdr]
  rw [response, Call.receive_congr c.toCall o.ret hlen, h]
  dsimp only
  rw [status_code]

instance (c : Call) : Decidable (ExtentRpc.Fits c) :=
  inferInstanceAs (Decidable (rpcHeaderSz + c.bytes.length < 2 ^ 30))

/-- The call that a client with the `id()` comes to. -/
def nextCall (id : UInt32) : FsProg → Option (Service × ProcCall)
  | .ret _ => none
  | .acquire i _ => some (.lock, LockRpc.input ⟨.acquire, id, i⟩)
  | .release i _ => some (.lock, LockRpc.input ⟨.release, id, i⟩)
  | .call c _ => if ExtentRpc.Fits c.toCall then some (.extent, ExtentRpc.input c.toCall) else none

/-- The rest of the program after its next call. -/
def resume : FsProg → ProcResult → FsProg
  | .ret o, _ => .ret o
  | .acquire _ k, _ => k
  | .release _ k, _ => k
  | .call c k, o => k (response c o)

theorem nextCall_of_lockStub {p k : FsProg} {proc : LockRpc.Proc} {lid : LockId}
    (h : lockStub p = some (proc, lid, k)) (id : UInt32) (o : ProcResult) :
    nextCall id p = some (.lock, LockRpc.input ⟨proc, id, lid⟩) ∧ resume p o = k := by
  cases p with
  | ret | call => cases h
  | acquire i k' =>
    cases h
    exact ⟨rfl, rfl⟩
  | release i k' =>
    cases h
    exact ⟨rfl, rfl⟩

/-- The steps of the clients that are no calls: an operation is issued, and ends. -/
inductive Own (t : τ) : List Inum × List (Cluster.Operation τ) → Option FsProg → Cluster.Act τ →
    List Inum × List (Cluster.Operation τ) → Option FsProg → Prop
  | issue {g : List Inum × List (Cluster.Operation τ)} {c : FsCall} (cl : YfsClient)
      (hc : Cluster.Issues g.1 c) :
      Own t g none (.issue t cl c) (g.1 ++ c.draws, g.2 ++ [⟨t, cl, c, none⟩]) (some (c.prog cl))
  | finish {g : List Inum × List (Cluster.Operation τ)} {o : Outcome FsReply} :
      Own t g (some (.ret o)) (.finish t) (g.1, g.2.map (Cluster.Operation.close t o g.2.length)) none

/-- The clients; `bind` and the administration come from outside. -/
def code (nonces : Nonces τ) (admin : Prop) : ClientCode τ Service ProcCall ProcResult (Option FsProg)
    (List Inum × List (Cluster.Operation τ)) (Cluster.Act τ) where
  next t p := p.bind (nextCall (UInt32.ofNat (nonces.lockClient t)))
  resume p o := p.map (fun p => resume p o)
  own := Own
  outside b i := i.proc = Rpcc.bindProc ∨ b = .extent ∧ admin ∧
    ∃ c : Call, c.isAdmin = true ∧ ExtentRpc.Fits c ∧ i = ExtentRpc.input c

/-- The two services with their calls. -/
def calls (s : Installation τ) : ∀ b, AtomicCalls (ℕ × ℕ) ProcCall ProcResult (State b)
  | .lock => LockRpc.calls s.locks
  | .extent => s.extents.toCalls

/-- The clients and the services that an installation is. -/
def toClients (s : Installation τ) : Clients τ (ℕ × ℕ) ProcCall ProcResult (Option FsProg)
    (List Inum × List (Cluster.Operation τ)) State :=
  ⟨s.calls, s.prog, s.awaits, s.inums, s.ops⟩

omit [DecidableEq τ] in
/-- A step of the lock server and its RPC system, and what it does to a client. -/
theorem toClients_locks (s : Installation τ) (locks : Remote LockRpc.Server) (prog : τ → Option FsProg)
    (awaits : τ → Option (Service × (ℕ × ℕ))) :
    toClients { s with locks := locks, prog := prog, awaits := awaits } = { s.toClients with
      calls := Function.update s.toClients.calls .lock (LockRpc.calls locks)
      prog := prog
      awaits := awaits } := by
  have hcalls : calls { s with locks := locks, prog := prog, awaits := awaits } =
      Function.update s.calls .lock (LockRpc.calls locks) := by
    funext b
    cases b with
    | lock => rw [Function.update_self, calls]
    | extent => rw [Function.update_of_ne (by simp), calls, calls]
  rw [toClients, hcalls]
  rfl

omit [DecidableEq τ] in
/-- The same for the extent server. -/
theorem toClients_extents (s : Installation τ) (extents : Remote ExtentServer)
    (prog : τ → Option FsProg) (awaits : τ → Option (Service × (ℕ × ℕ))) :
    toClients { s with extents := extents, prog := prog, awaits := awaits } = { s.toClients with
      calls := Function.update s.toClients.calls .extent extents.toCalls
      prog := prog
      awaits := awaits } := by
  have hcalls : calls { s with extents := extents, prog := prog, awaits := awaits } =
      Function.update s.calls .extent extents.toCalls := by
    funext b
    cases b with
    | lock => rw [Function.update_of_ne (by simp), calls, calls]
    | extent => rw [Function.update_self, calls]
  rw [toClients, hcalls]
  rfl

/-- The requests under way are those of stubs, and the extent server can reply to all of them. -/
structure Inv (s : Installation τ) : Prop where
  locks : Remote.WaitInv LockRpc.ByStub s.locks.rpc
  extents : ExtentRpc.Served s.extents

omit [DecidableEq τ] in
theorem inv_start (nonces : Nonces τ) (time : UInt32) (uid : UserId) (gid : GroupId) :
    Inv (start nonces time uid gid) where
  locks := Remote.waitInv_init _ _
  extents := ExtentRpc.served_init _ time uid gid

omit [DecidableEq τ] in
/-- A step of the extent server and its RPC system, seen from the clients. -/
theorem extents_refine {nonces : Nonces τ} {x x' : Remote ExtentServer} {l : RpcLabel}
    (hi : ExtentRpc.Served x) (h : ExtentStep nonces.extentServer x l x') :
    ExtentRpc.Served x' ∧ Trace (AtomicCalls.Step (serves nonces .extent)) x.toCalls (x.rpc.observe l)
      x'.toCalls := by
  obtain ⟨hi', hsafe⟩ := ExtentRpc.served_step hi h
  exact ⟨hi', (Remote.refines_step hi.exact hsafe).2⟩

variable {nonces : Nonces τ} {admin : Prop} {s s' : Installation τ}

/-- The steps of the clients and services for one of the installation. -/
abbrev ClientTrace (nonces : Nonces τ) (admin : Prop) (s s' : Installation τ) : Prop :=
  ∃ ls, Trace (Clients.Step (ε := ℤ) (code nonces admin) (serves nonces)) s.toClients ls s'.toClients

theorem ClientTrace.locks {locks : Remote LockRpc.Server} {prog : τ → Option FsProg}
    {awaits : τ → Option (Service × (ℕ × ℕ))}
    {ls : List (ClientLabel τ Service (ℕ × ℕ) ProcCall ProcResult ℤ (Cluster.Act τ))}
    (h : Trace (Clients.Step (code nonces admin) (serves nonces)) s.toClients ls { s.toClients with
      calls := Function.update s.toClients.calls .lock (LockRpc.calls locks)
      prog := prog
      awaits := awaits }) :
    ClientTrace nonces admin s { s with locks := locks, prog := prog, awaits := awaits } := by
  refine ⟨ls, ?_⟩
  rw [toClients_locks s locks prog awaits]
  exact h

theorem ClientTrace.extents {extents : Remote ExtentServer} {prog : τ → Option FsProg}
    {awaits : τ → Option (Service × (ℕ × ℕ))}
    {ls : List (ClientLabel τ Service (ℕ × ℕ) ProcCall ProcResult ℤ (Cluster.Act τ))}
    (h : Trace (Clients.Step (code nonces admin) (serves nonces)) s.toClients ls { s.toClients with
      calls := Function.update s.toClients.calls .extent extents.toCalls
      prog := prog
      awaits := awaits }) :
    ClientTrace nonces admin s { s with extents := extents, prog := prog, awaits := awaits } := by
  refine ⟨ls, ?_⟩
  rw [toClients_extents s extents prog awaits]
  exact h

/-- **Every step of the installation is one of the clients and their services, or none.** -/
theorem refines_step {l : Label τ} (hi : Inv s) (h : Step nonces admin s l s') :
    Inv s' ∧ ClientTrace nonces admin s s' := by
  cases h with
  | @issue t c cl hp hfree hc =>
    have hown : (code nonces admin).own t s.toClients.shared (s.toClients.prog t) (.issue t cl c)
        (s.inums ++ c.draws, s.ops ++ [⟨t, cl, c, none⟩]) (some (c.prog cl)) := by
      show Own t (s.inums, s.ops) (s.prog t) _ _ _
      rw [hp]
      exact .issue cl hc
    exact ⟨⟨hi.locks, hi.extents⟩, _, .single (.own hfree hown)⟩
  | @finish t o hp hfree =>
    have hown : (code nonces admin).own t s.toClients.shared (s.toClients.prog t) (.finish t)
        (s.inums, s.ops.map (Cluster.Operation.close t o s.ops.length)) none := by
      show Own t (s.inums, s.ops) (s.prog t) _ _ _
      rw [hp]
      exact .finish
    exact ⟨⟨hi.locks, hi.extents⟩, _, .single (.own hfree hown)⟩
  | @lockCall t p k proc lid fresh m q cl locks hp hstub hfree hm hcall h =>
    obtain ⟨hi', hrun⟩ := LockRpc.refines_step hi.locks h
    have hobs : s.locks.observeWait (.rpc (.call (nonces.lockClient t) proc.code m.body)) =
        [.issue q.key (LockRpc.input ⟨proc, UInt32.ofNat (nonces.lockClient t), lid⟩)] := by
      rw [Remote.observeWait, RpcSystem.observe, hcall, (Rpcc.call1_ok hcall).1,
        LockRpc.body_of_marshal hm]
      rfl
    rw [hobs] at hrun
    have hcalls : AtomicCalls.Step (serves nonces .lock) (s.toClients.calls .lock) (.issue q.key _)
        (LockRpc.calls locks) := hrun.of_single
    have hnext : (code nonces admin).next t (s.toClients.prog t) =
        some (.lock, LockRpc.input ⟨proc, UInt32.ofNat (nonces.lockClient t), lid⟩) := by
      show (s.prog t).bind _ = _
      rw [hp]
      exact (nextCall_of_lockStub hstub _ ⟨0, []⟩).1
    exact ⟨⟨hi', hi.extents⟩, .locks (.single (.issue hfree hnext hcalls))⟩
  | @lockReturn t p k proc lid key ca hdr r locks hp hstub ht hca hhdr hret h =>
    obtain ⟨hi', hrun⟩ := LockRpc.refines_step hi.locks h
    have hnonneg : 0 ≤ (Rpcc.returned ca).1 := by
      by_contra hneg
      rw [LockRpc.returned, if_pos (by omega)] at hret
      cases hret
    have hobs : s.locks.observeWait (.rpc (.finish key.1 key.2)) =
        [.answer key ⟨(Rpcc.returned ca).1, (Rpcc.returned ca).2⟩] := by
      rw [Remote.observeWait, RpcSystem.observe, hca]
      exact if_pos hnonneg
    rw [hobs] at hrun
    have hcalls : AtomicCalls.Step (serves nonces .lock) (s.toClients.calls .lock) (.answer key _)
        (LockRpc.calls locks) := hrun.of_single
    have hstep : Clients.Step (code nonces admin) (serves nonces) s.toClients (.answer t) _ :=
      .answer ht hcalls
    have hresume : (code nonces admin).resume (s.toClients.prog t)
        ⟨(Rpcc.returned ca).1, (Rpcc.returned ca).2⟩ = some k := by
      show (s.prog t).map _ = _
      rw [hp]
      exact congrArg some (nextCall_of_lockStub hstub 0 _).2
    rw [hresume] at hstep
    exact ⟨⟨hi', hi.extents⟩, .locks (.single hstep)⟩
  | @extentCall t c k fresh m q cl extents hp hfree hfits hm hcall h =>
    obtain ⟨hi', hrun⟩ := extents_refine hi.extents h
    have hobs : s.extents.rpc.observe (.call (nonces.extentClient t) c.toCall.proc m.body) =
        [.issue q.key (ExtentRpc.input c.toCall)] := by
      rw [RpcSystem.observe, hcall, (Rpcc.call1_ok hcall).1, ExtentRpc.body_of_marshal hfits hm]
      rfl
    rw [hobs] at hrun
    have hcalls : AtomicCalls.Step (serves nonces .extent) (s.toClients.calls .extent) (.issue q.key _)
        extents.toCalls := hrun.of_single
    have hnext : (code nonces admin).next t (s.toClients.prog t) =
        some (.extent, ExtentRpc.input c.toCall) := by
      show (s.prog t).bind _ = _
      rw [hp]
      exact if_pos hfits
    exact ⟨⟨hi.locks, hi'⟩, .extents (.single (.issue hfree hnext hcalls))⟩
  | @extentReturn t c k key ca hdr st buf a extents hp ht hca hhdr hst hret h =>
    obtain ⟨hi', hrun⟩ := extents_refine hi.extents h
    have hobs : s.extents.rpc.observe (.finish key.1 key.2) =
        [.answer key ⟨(Rpcc.returned ca).1, (Rpcc.returned ca).2⟩] := by
      rw [RpcSystem.observe, hca]
      exact if_pos (hst ▸ st.code_nonneg)
    rw [hobs] at hrun
    have hcalls : AtomicCalls.Step (serves nonces .extent) (s.toClients.calls .extent) (.answer key _)
        extents.toCalls := hrun.of_single
    have hstep : Clients.Step (code nonces admin) (serves nonces) s.toClients (.answer t) _ :=
      .answer ht hcalls
    have hresume : (code nonces admin).resume (s.toClients.prog t)
        ⟨(Rpcc.returned ca).1, (Rpcc.returned ca).2⟩ = some (k (.reply ⟨st, buf, a⟩)) := by
      show (s.prog t).map _ = _
      rw [hp]
      exact congrArg (fun r => some (k r)) (response_eq hhdr hret)
    rw [hresume] at hstep
    exact ⟨⟨hi.locks, hi'⟩, .extents (.single hstep)⟩
  | @locks l locks hl h =>
    obtain ⟨hi', hrun⟩ := LockRpc.refines_step hi.locks h
    have hfree : ∀ e ∈ s.locks.observeWait l, s.toClients.Free (code nonces admin) .lock e := by
      intro e he
      cases l with
      | handler j => cases he
      | rpc l =>
        cases e with
        | serve => trivial
        | issue k i =>
          obtain ⟨c, proc, body, rfl, q, cl, hc, -, rfl⟩ := RpcSystem.call_of_issue he
          rw [(Rpcc.call1_ok hc).1]
          exact .inl hl
        | answer k o =>
          obtain rfl := RpcSystem.finish_of_return (.inl ⟨o, he⟩)
          exact hl
        | fail k f =>
          obtain rfl := RpcSystem.finish_of_return (.inr ⟨f, he⟩)
          exact hl
    exact ⟨⟨hi', hi.extents⟩, .locks (Clients.trace_others hrun hfree)⟩
  | @extents l extents hl h =>
    obtain ⟨hi', hrun⟩ := extents_refine hi.extents h
    have hfree : ∀ e ∈ s.extents.rpc.observe l, s.toClients.Free (code nonces admin) .extent e := by
      intro e he
      cases e with
      | serve => trivial
      | issue k i =>
        obtain ⟨c, proc, body, rfl, q, cl, hc, -, rfl⟩ := RpcSystem.call_of_issue he
        rw [(Rpcc.call1_ok hc).1]
        refine hl.imp id ?_
        rintro ⟨hadmin, c', fresh, m, hc', hfits, rfl, hm, rfl⟩
        refine ⟨rfl, hadmin, c', hc', hfits, ?_⟩
        rw [ExtentRpc.body_of_marshal hfits hm]
        rfl
      | answer k o =>
        obtain rfl := RpcSystem.finish_of_return (.inl ⟨o, he⟩)
        exact hl
      | fail k f =>
        obtain rfl := RpcSystem.finish_of_return (.inr ⟨f, he⟩)
        exact hl
    exact ⟨⟨hi.locks, hi'⟩, .extents (Clients.trace_others hrun hfree)⟩

/-- **An installation is a system of sequential clients.**  Every run of it, from a state in which the
requests are in order, is a run of clients whose two services serve each call at once, somewhere between
its issue and its answer. -/
theorem refines_clients {s₀ : Installation τ} {t : List (Label τ)} (hi : Inv s₀)
    (h : Trace (Step nonces admin) s₀ t s) : Inv s ∧ ClientTrace nonces admin s₀ s := by
  induction h with
  | nil => exact ⟨hi, [], .nil⟩
  | snoc _ hs ih =>
    obtain ⟨hi', ls, hrun⟩ := ih
    obtain ⟨hi'', ls', hrun'⟩ := refines_step hi' hs
    exact ⟨hi'', ls ++ ls', hrun.append hrun'⟩

end Installation
