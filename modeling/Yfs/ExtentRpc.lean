/-
# Extent calls over the network (`extent_client.cc`, `group_util.cc`, `extent_smain.cc`, `rpc/rpc.h`)

A stub marshals the arguments of a call, the handler that `extent_smain` has registered for the
procedure reads them back, runs the method of the extent server and marshals its out-parameter, and
the stub reads this.  Both sides name the types of a procedure on their own; `reads_handlerArgs` and
`receive_result` say that they agree.

`extent_calls_atomic` puts the stubs, the RPC system and the extent server together: what the clients
see is an extent server that executes each of their calls at once.

* The templates of `rpcc::call` and `rpcs::reg` are written out at the types of each procedure.
* The bodies of requests and replies are the bytes behind the space of the header; `hdr` is what stands
  in this space, and `fresh` the memory that a `marshall` gets.
* The out-parameter `int r` of a handler is not initialised by the server: any `r` may be sent.
* A call stays below `2 ^ 30` bytes.
-/
import Yfs.ExtentCalls
import Yfs.RpcRefinement
import Yfs.WireFormat

open NetworkOrder

/-- The value of a status. -/
def ExtentStatus.code : ExtentStatus → ℤ
  | OK => 0
  | RPCERR => 1
  | NOENT => 2
  | IOERR => 3
  | NOACCESS => 4

theorem ExtentStatus.code_nonneg (st : ExtentStatus) : 0 ≤ st.code := by
  cases st <;> decide

/-- An `unmarshall` of a message whose header has been unpacked. -/
def Unmarshall.behind (hdr body : List UInt8) : Unmarshall := ⟨hdr ++ body, hdr.length, true⟩

/-- The bytes that a `marshall` holds behind the space of the header. -/
def Marshall.body (m : Marshall) : List UInt8 := m.takeBuf.drop rpcHeaderSz

/-! ## The stubs -/

namespace Call

/-- `extent_protocol::rpc_numbers`. -/
def proc : Call → ℕ
  | put .. => 0x6001
  | get .. => 0x6002
  | getattr .. => 0x6003
  | remove .. => 0x6004
  | setattr .. => 0x6005
  | reg .. => 0x6006
  | groupadd .. => 0x6007
  | groupdel .. => 0x6008
  | useradd .. => 0x6009
  | userdel .. => 0x600a

/-- The arguments, as the stubs of `extent_client` and `group_util` hand them to `rpcc::call`. -/
def marshal : Call → Put
  | put id buf userid userkey =>
    Marshall.putULongLong id >=> Marshall.putString buf >=> Marshall.putUInt userid >=>
      Marshall.putString userkey
  | get id userid userkey | getattr id userid userkey | remove id userid userkey =>
    Marshall.putULongLong id >=> Marshall.putUInt userid >=> Marshall.putString userkey
  | setattr id a userid userkey =>
    Marshall.putULongLong id >=> Marshall.putAttr a >=> Marshall.putUInt userid >=>
      Marshall.putString userkey
  | reg userid userkey => Marshall.putUInt userid >=> Marshall.putString userkey
  | groupadd gid admin adminkey | groupdel gid admin adminkey =>
    Marshall.putUInt gid >=> Marshall.putUInt admin >=> Marshall.putString adminkey
  | useradd userid gid admin adminkey | userdel userid gid admin adminkey =>
    Marshall.putUInt userid >=> Marshall.putUInt gid >=> Marshall.putUInt admin >=>
      Marshall.putString adminkey

/-- `u >> r` of `call_m`: the out-parameters `buf` and `attr` of the stub; an `int` is thrown away. -/
def getResult : Call → Get (Str × Attr)
  | get .. => do
    let buf ← Unmarshall.getString
    return (buf, default)
  | getattr .. => do
    let a ← Unmarshall.getAttr
    return ([], a)
  | _ => do
    let _ ← Unmarshall.getInt
    return ([], default)

/-- `call_m` after `call1` has returned `intret`, which is not negative; `none` when the reply cannot be
read and the client stops. -/
def receive (c : Call) (intret : ℤ) (u : Unmarshall) : Option (ℤ × Str × Attr) := do
  let (out, u) ← c.getResult u
  if u.okdone then return (intret, out) else none

end Call

/-! ## The handlers -/

/-- `args >> a1; args >> a2; …` of the handler registered for the procedure. -/
def handlerArgs : ℕ → Option (Get Call)
  | 0x6001 => some do
    let id ← Unmarshall.getULongLong
    let buf ← Unmarshall.getString
    let userid ← Unmarshall.getUInt
    let userkey ← Unmarshall.getString
    return .put id buf userid userkey
  | 0x6002 => some do
    let id ← Unmarshall.getULongLong
    let userid ← Unmarshall.getUInt
    let userkey ← Unmarshall.getString
    return .get id userid userkey
  | 0x6003 => some do
    let id ← Unmarshall.getULongLong
    let userid ← Unmarshall.getUInt
    let userkey ← Unmarshall.getString
    return .getattr id userid userkey
  | 0x6004 => some do
    let id ← Unmarshall.getULongLong
    let userid ← Unmarshall.getUInt
    let userkey ← Unmarshall.getString
    return .remove id userid userkey
  | 0x6005 => some do
    let id ← Unmarshall.getULongLong
    let a ← Unmarshall.getAttr
    let userid ← Unmarshall.getUInt
    let userkey ← Unmarshall.getString
    return .setattr id a userid userkey
  | 0x6006 => some do
    let userid ← Unmarshall.getUInt
    let userkey ← Unmarshall.getString
    return .reg userid userkey
  | 0x6007 => some do
    let gid ← Unmarshall.getUInt
    let admin ← Unmarshall.getUInt
    let adminkey ← Unmarshall.getString
    return .groupadd gid admin adminkey
  | 0x6008 => some do
    let gid ← Unmarshall.getUInt
    let admin ← Unmarshall.getUInt
    let adminkey ← Unmarshall.getString
    return .groupdel gid admin adminkey
  | 0x6009 => some do
    let userid ← Unmarshall.getUInt
    let gid ← Unmarshall.getUInt
    let admin ← Unmarshall.getUInt
    let adminkey ← Unmarshall.getString
    return .useradd userid gid admin adminkey
  | 0x600a => some do
    let userid ← Unmarshall.getUInt
    let gid ← Unmarshall.getUInt
    let admin ← Unmarshall.getUInt
    let adminkey ← Unmarshall.getString
    return .userdel userid gid admin adminkey
  | _ => none

/-- `ret << r`. -/
def Call.putResult (r : Int32) : Call → Reply → Put
  | get .., reply => Marshall.putString reply.buf
  | getattr .., reply => Marshall.putAttr reply.attr
  | _, _ => Marshall.putInt r

/-- `fn` of the handler, as `dispatch` runs it; `none` when the server stops, because the procedure is
not registered or its arguments cannot be read. -/
def handlerFn (env : Env) (r : Int32) (s : ExtentServer) (proc : ℕ) (args : Unmarshall)
    (ret : Marshall) : Option (ℤ × Marshall × ExtentServer) := do
  let getArgs ← handlerArgs proc
  let (c, args) ← getArgs args
  if args.okdone then
    let (reply, s) := s.exec env c
    let ret ← c.putResult r reply ret
    return (reply.status.code, ret, s)
  else none

/-! ## The two sides agree -/

/-- The bytes of a string. -/
def strBytes (s : Str) : List UInt8 := be32 (UInt32.ofNat s.length) ++ s

namespace Call

/-- The bytes of the arguments. -/
def bytes : Call → List UInt8
  | put id buf userid userkey => be64 id ++ (strBytes buf ++ (be32 userid ++ strBytes userkey))
  | get id userid userkey | getattr id userid userkey | remove id userid userkey =>
    be64 id ++ (be32 userid ++ strBytes userkey)
  | setattr id a userid userkey =>
    be64 id ++ (Marshall.attrBytes a ++ (be32 userid ++ strBytes userkey))
  | reg userid userkey => be32 userid ++ strBytes userkey
  | groupadd gid admin adminkey | groupdel gid admin adminkey =>
    be32 gid ++ (be32 admin ++ strBytes adminkey)
  | useradd userid gid admin adminkey | userdel userid gid admin adminkey =>
    be32 userid ++ (be32 gid ++ (be32 admin ++ strBytes adminkey))

/-- The bytes of the result. -/
def resultBytes (r : Int32) : Call → Reply → List UInt8
  | get .., reply => strBytes reply.buf
  | getattr .., reply => Marshall.attrBytes reply.attr
  | _, _ => be32 r.toUInt32

/-- The out-parameters of a call, the others being untouched. -/
def out : Call → Reply → Str × Attr
  | get .., reply => (reply.buf, default)
  | getattr .., reply => ([], reply.attr)
  | _, _ => ([], default)

end Call

namespace ExtentRpc

open Marshall Unmarshall

theorem reads_string (s : Str) : Reads getString (strBytes s) s := WireType.string.reads_get s

/-- The stub of a call stores its bytes. -/
theorem writes_marshal (c : Call) : Writes c.marshal c.bytes := by
  have hid : ∀ x : UInt64, Writes (putULongLong x) (be64 x) := writes_putULongLong
  have hword : ∀ x : UInt32, Writes (putUInt x) (be32 x) := writes_putUInt
  have hstr : ∀ s : Str, Writes (putString s) (strBytes s) := writes_putString
  cases c with
  | put id buf userid userkey =>
    exact (hid id).comp ((hstr buf).comp ((hword userid).comp (hstr userkey)))
  | get id userid userkey | getattr id userid userkey | remove id userid userkey =>
    exact (hid id).comp ((hword userid).comp (hstr userkey))
  | setattr id a userid userkey =>
    exact (hid id).comp ((writes_putAttr a).comp ((hword userid).comp (hstr userkey)))
  | reg userid userkey => exact (hword userid).comp (hstr userkey)
  | groupadd gid admin adminkey | groupdel gid admin adminkey =>
    exact (hword gid).comp ((hword admin).comp (hstr adminkey))
  | useradd userid gid admin adminkey | userdel userid gid admin adminkey =>
    exact (hword userid).comp ((hword gid).comp ((hword admin).comp (hstr adminkey)))

/-- **The handler of a procedure reads the arguments as its stub has written them.** -/
theorem reads_handlerArgs (c : Call) :
    ∃ g, handlerArgs c.proc = some g ∧ Reads g c.bytes c := by
  cases c with
  | put id buf userid userkey =>
    refine ⟨_, rfl, (reads_getULongLong id).bind ((reads_string buf).bind
      ((reads_getUInt userid).bind ?_))⟩
    exact (reads_string userkey).map (fun userkey => Call.put id buf userid userkey)
  | get id userid userkey =>
    refine ⟨_, rfl, (reads_getULongLong id).bind ((reads_getUInt userid).bind ?_)⟩
    exact (reads_string userkey).map (fun userkey => Call.get id userid userkey)
  | getattr id userid userkey =>
    refine ⟨_, rfl, (reads_getULongLong id).bind ((reads_getUInt userid).bind ?_)⟩
    exact (reads_string userkey).map (fun userkey => Call.getattr id userid userkey)
  | remove id userid userkey =>
    refine ⟨_, rfl, (reads_getULongLong id).bind ((reads_getUInt userid).bind ?_)⟩
    exact (reads_string userkey).map (fun userkey => Call.remove id userid userkey)
  | setattr id a userid userkey =>
    refine ⟨_, rfl, (reads_getULongLong id).bind ((reads_getAttr a).bind
      ((reads_getUInt userid).bind ?_))⟩
    exact (reads_string userkey).map (fun userkey => Call.setattr id a userid userkey)
  | reg userid userkey =>
    refine ⟨_, rfl, (reads_getUInt userid).bind ?_⟩
    exact (reads_string userkey).map (fun userkey => Call.reg userid userkey)
  | groupadd gid admin adminkey =>
    refine ⟨_, rfl, (reads_getUInt gid).bind ((reads_getUInt admin).bind ?_)⟩
    exact (reads_string adminkey).map (fun adminkey => Call.groupadd gid admin adminkey)
  | groupdel gid admin adminkey =>
    refine ⟨_, rfl, (reads_getUInt gid).bind ((reads_getUInt admin).bind ?_)⟩
    exact (reads_string adminkey).map (fun adminkey => Call.groupdel gid admin adminkey)
  | useradd userid gid admin adminkey =>
    refine ⟨_, rfl, (reads_getUInt userid).bind ((reads_getUInt gid).bind
      ((reads_getUInt admin).bind ?_))⟩
    exact (reads_string adminkey).map (fun adminkey => Call.useradd userid gid admin adminkey)
  | userdel userid gid admin adminkey =>
    refine ⟨_, rfl, (reads_getUInt userid).bind ((reads_getUInt gid).bind
      ((reads_getUInt admin).bind ?_))⟩
    exact (reads_string adminkey).map (fun adminkey => Call.userdel userid gid admin adminkey)

theorem writes_putResult (r : Int32) (c : Call) (reply : Reply) :
    Writes (c.putResult r reply) (c.resultBytes r reply) := by
  cases c with
  | get => exact writes_putString _
  | getattr => exact writes_putAttr _
  | _ => exact writes_putUInt _

theorem reads_getResult (r : Int32) (c : Call) (reply : Reply) :
    Reads c.getResult (c.resultBytes r reply) (c.out reply) := by
  cases c with
  | get => exact (reads_string reply.buf).map (fun buf => (buf, default))
  | getattr => exact (reads_getAttr reply.attr).map (fun a => ([], a))
  | _ => exact (reads_unpack r).map (fun _ => ([], default))

/-- A whole message body is read. -/
theorem okdone_of_reads {α : Type} {g : Get α} {bs hdr : List UInt8} {a : α} (h : Reads g bs a)
    (hsize : (hdr ++ bs).length < 2 ^ 31) :
    ∃ u, g (behind hdr bs) = some (a, u) ∧ u.okdone = true := by
  have hrest : (behind hdr bs).Rest (bs ++ []) :=
    ⟨rfl, hsize, hdr, by rw [List.append_nil]; rfl, rfl⟩
  obtain ⟨u, hu, hdone, -⟩ := h _ _ hrest
  exact ⟨u, hu, hdone.okdone_iff.2 rfl⟩

/-- What an operation stores in a fresh `marshall` stands behind the space of the header. -/
theorem body_of_writes {p : Put} {bs : List UInt8} (h : Writes p bs)
    (hsize : rpcHeaderSz + bs.length < 2 ^ 30) (fresh : ℕ → UInt8) :
    ∃ m, p (Marshall.init fresh) = some m ∧ m.body = bs := by
  obtain ⟨m, hm, -, -, hbuf, hind⟩ := h (Marshall.init fresh) (room_init fresh) hsize
  refine ⟨m, hm, ?_⟩
  rw [Marshall.body, takeBuf, hind, hbuf]
  show (slice (store fresh rpcHeaderSz bs) 0 (rpcHeaderSz + bs.length)).drop rpcHeaderSz = bs
  rw [slice_add, List.drop_left' (length_slice ..), Nat.zero_add, slice_store_self]

/-! ## The server never stops on the request of a stub -/

/-- The request of the call, and every reply that is as long as its arguments, is short enough. -/
def Fits (c : Call) : Prop := rpcHeaderSz + c.bytes.length < 2 ^ 30

/-- The contents of every extent can be sent. -/
def Small (s : ExtentServer) : Prop :=
  ∀ id buf, s.contents id = some buf → rpcHeaderSz + (strBytes buf).length < 2 ^ 30

/-- A `get` replies with a string that is stored, or with the empty one. -/
theorem get_reply (env : Env) (s : ExtentServer) (id : ExtentId) (userid : UserId) (userkey : Str) :
    (s.get env id userid userkey).1.attr = default ∧
      ((s.get env id userid userkey).1.buf = [] ∨
        s.contents id = some (s.get env id userid userkey).1.buf) := by
  rw [ExtentServer.get_eq]
  obtain ⟨t, -, ⟨-, heq⟩ | ⟨-, ⟨-, heq⟩ | ⟨buf, hbuf, heq⟩⟩⟩ :=
    ExtentServer.guarded_ifContents_spec ExtentServer.readBits id userid userkey s
      (fun buf => ⟨.OK, buf, default⟩)
      (fun a buf => (some { a.getD default with atime := env.time }, some buf))
  · rw [heq]
    exact ⟨rfl, .inl rfl⟩
  · rw [heq]
    exact ⟨rfl, .inl rfl⟩
  · rw [heq]
    exact ⟨rfl, .inr hbuf⟩

/-- A method writes the out-parameters of its own type only. -/
theorem exec_out (env : Env) (s : ExtentServer) (c : Call) :
    c.out (s.exec env c).1 = ((s.exec env c).1.buf, (s.exec env c).1.attr) := by
  cases c with
  | get id userid userkey =>
    have hattr := (get_reply env s id userid userkey).1
    show ((s.get env id userid userkey).1.buf, (default : Attr)) = _
    rw [← hattr]
    rfl
  | getattr id userid userkey =>
    show ([], (s.getattr id).1.attr) = ((s.getattr id).1.buf, (s.getattr id).1.attr)
    unfold ExtentServer.getattr
    split <;> rfl
  | put =>
    simp only [Call.out, ExtentServer.exec, ExtentServer.put]
    split <;> rfl
  | setattr =>
    simp only [Call.out, ExtentServer.exec, ExtentServer.setattr]
    split
    · rfl
    · split <;> rfl
  | remove =>
    simp only [Call.out, ExtentServer.exec, ExtentServer.remove]
    split
    · rfl
    · split <;> rfl
  | reg =>
    simp only [Call.out, ExtentServer.exec, ExtentServer.reg]
    split
    · rfl
    · split <;> rfl
  | groupadd =>
    simp only [Call.out, ExtentServer.exec, ExtentServer.groupadd]
    split <;> rfl
  | groupdel =>
    simp only [Call.out, ExtentServer.exec, ExtentServer.groupdel]
    split
    · rfl
    · split <;> rfl
  | useradd =>
    simp only [Call.out, ExtentServer.exec, ExtentServer.useradd]
    split <;> rfl
  | userdel =>
    simp only [Call.out, ExtentServer.exec, ExtentServer.userdel]
    split
    · rfl
    · split
      · rfl
      · split_ifs <;> rfl

theorem length_resultBytes (r : Int32) (env : Env) {s : ExtentServer} (hs : Small s) (c : Call) :
    rpcHeaderSz + (c.resultBytes r (s.exec env c).1).length < 2 ^ 30 := by
  cases c with
  | get id userid userkey =>
    rcases (get_reply env s id userid userkey).2 with hnil | hbuf
    · show rpcHeaderSz + (strBytes (s.get env id userid userkey).1.buf).length < 2 ^ 30
      rw [hnil]
      decide
    · exact hs id _ hbuf
  | getattr =>
    show rpcHeaderSz + 28 < 2 ^ 30
    decide
  | _ =>
    show rpcHeaderSz + 4 < 2 ^ 30
    decide

theorem small_init (time : UInt32) (uid : UserId) (gid : GroupId) :
    Small (ExtentServer.init time uid gid) := by
  intro id buf hbuf
  by_cases hid : id = 1
  · subst hid
    obtain rfl : [] = buf := by simpa [ExtentServer.init] using hbuf
    decide
  · simp [ExtentServer.init, StdMap.set_of_ne, hid] at hbuf

theorem small_exec (env : Env) {s : ExtentServer} (hkeys : s.SameKeys) (hs : Small s) {c : Call}
    (hc : Fits c) : Small (s.exec env c).2 := by
  have hstep : ExtentServer.Step s ⟨env, c, (s.exec env c).1⟩ (s.exec env c).2 := rfl
  intro id buf hbuf
  rcases (ExtentServer.step_effect hkeys hstep).contents with
    heq | ⟨id', text, userid, userkey, hput, heq⟩ | ⟨id', userid, userkey, -, heq⟩
  · exact hs id buf (heq ▸ hbuf)
  · rw [heq] at hbuf
    by_cases hid : id = id'
    · subst hid
      obtain rfl : text = buf := by simpa using hbuf
      obtain rfl : c = .put id text userid userkey := hput
      -- the string was part of the request
      have hlen : rpcHeaderSz + (be64 id ++ (strBytes text ++ (be32 userid ++ strBytes userkey))).length
          < 2 ^ 30 := hc
      simp only [List.length_append] at hlen
      omega
    · rw [StdMap.set_of_ne _ _ hid] at hbuf
      exact hs id buf hbuf
  · rw [heq] at hbuf
    by_cases hid : id = id'
    · subst hid
      simp at hbuf
    · rw [StdMap.erase_of_ne _ hid] at hbuf
      exact hs id buf hbuf

/-- **The handler of a stub's request executes the call**, whatever stands in the space of the header, in
the fresh memory and in `r`. -/
theorem handlerFn_eq (env : Env) (r : Int32) {s : ExtentServer} (hs : Small s) {c : Call}
    (hc : Fits c) {hdr : List UInt8} (hhdr : hdr.length = rpcHeaderSz) (fresh : ℕ → UInt8) :
    ∃ m, handlerFn env r s c.proc (behind hdr c.bytes) (Marshall.init fresh) =
        some ((s.exec env c).1.status.code, m, (s.exec env c).2) ∧
      m.body = c.resultBytes r (s.exec env c).1 := by
  obtain ⟨g, hg, hreads⟩ := reads_handlerArgs c
  have hsize : (hdr ++ c.bytes).length < 2 ^ 31 := by
    unfold Fits at hc
    rw [List.length_append]
    omega
  obtain ⟨u, hu, hdone⟩ := okdone_of_reads hreads hsize
  obtain ⟨m, hm, hbody⟩ := body_of_writes (writes_putResult r c (s.exec env c).1)
    (length_resultBytes r env hs c) fresh
  refine ⟨m, ?_, hbody⟩
  show (handlerArgs c.proc).bind _ = _
  rw [hg, Option.bind_some]
  show (g (behind hdr c.bytes)).bind _ = _
  rw [hu, Option.bind_some]
  show (if u.okdone then _ else _) = _
  rw [if_pos hdone]
  show (c.putResult r (s.exec env c).1 (Marshall.init fresh)).bind _ = _
  rw [hm, Option.bind_some]
  rfl

/-- **The stub receives the out-parameters of the method.** -/
theorem receive_result (env : Env) (r : Int32) {s : ExtentServer} (hs : Small s) (c : Call)
    {hdr : List UInt8} (hhdr : hdr.length = rpcHeaderSz) (intret : ℤ) :
    c.receive intret (behind hdr (c.resultBytes r (s.exec env c).1)) =
      some (intret, (s.exec env c).1.buf, (s.exec env c).1.attr) := by
  have hlen := length_resultBytes r env hs c
  have hsize : (hdr ++ c.resultBytes r (s.exec env c).1).length < 2 ^ 31 := by
    rw [List.length_append]
    omega
  obtain ⟨u, hu, hdone⟩ := okdone_of_reads (reads_getResult r c (s.exec env c).1) hsize
  unfold Call.receive
  show (c.getResult _).bind _ = _
  rw [hu, Option.bind_some]
  show (if u.okdone then _ else _) = _
  rw [if_pos hdone, exec_out]
  rfl

/-! ## The extent server behind the RPC system -/

/-- What the handlers of `extent_smain` do to the extent server. -/
def Handles (s : ExtentServer) (i : ProcCall) (o : ProcResult) (s' : ExtentServer) : Prop :=
  ∃ env r hdr fresh m, hdr.length = rpcHeaderSz ∧ m.body = o.body ∧
    handlerFn env r s i.proc (behind hdr i.body) (Marshall.init fresh) = some (o.ret, m, s')

/-- The request of a call. -/
def input (c : Call) : ProcCall := ⟨c.proc, c.bytes⟩

/-- What a client is promised: the extent server executes its call, and the stub returns the status and
the out-parameters of this execution. -/
def Executes (s : ExtentServer) (i : ProcCall) (o : ProcResult) (s' : ExtentServer) : Prop :=
  ∃ c env, i = input c ∧ s' = (s.exec env c).2 ∧
    ∀ hdr : List UInt8, hdr.length = rpcHeaderSz → c.receive o.ret (behind hdr o.body) =
      some ((s.exec env c).1.status.code, (s.exec env c).1.buf, (s.exec env c).1.attr)

/-- The clients make the calls of the stubs. -/
def ByStubs : RpcLabel → Prop
  | .call _ proc body => proc = Rpcc.bindProc ∨ ∃ c fresh m, Fits c ∧ proc = c.proc ∧
      c.marshal (Marshall.init fresh) = some m ∧ body = m.body
  | _ => True

/-- The requests in the network are those of stubs, and the server can reply to all of them. -/
structure Served (s : Remote ExtentServer) : Prop where
  exact : s.rpc.Exact
  requests : ∀ q ∈ s.rpc.requests, q.proc = Rpcc.bindProc ∨ ∃ c, Fits c ∧ q.input = input c
  keys : s.service.SameKeys
  small : Small s.service

variable {nonce : ℕ}

theorem served_init (nonce : ℕ) (time : UInt32) (uid : UserId) (gid : GroupId) :
    Served (Remote.init nonce (ExtentServer.init time uid gid)) where
  exact := RpcSystem.exact_init nonce
  requests := by simp [Remote.init, RpcSystem.init]
  keys := ExtentServer.sameKeys_init time uid gid
  small := small_init time uid gid

/-- What the stub of a call stores is the request of the call. -/
theorem body_of_marshal {c : Call} (hc : Fits c) {fresh : ℕ → UInt8} {m : Marshall}
    (hm : c.marshal (Marshall.init fresh) = some m) : m.body = c.bytes := by
  obtain ⟨m', hm', hbody⟩ := body_of_writes (writes_marshal c) hc fresh
  obtain rfl : m' = m := Option.some.inj (hm'.symm.trans hm)
  exact hbody

/-- **A handler keeps the promise.** -/
theorem executes_of_handles {s s' : ExtentServer} {c : Call} {o : ProcResult} (hkeys : s.SameKeys)
    (hs : Small s) (hc : Fits c) (h : Handles s (input c) o s') :
    Executes s (input c) o s' ∧ s'.SameKeys ∧ Small s' := by
  obtain ⟨env, r, hdr, fresh, m, hhdr, hbody, hfn⟩ := h
  obtain ⟨m', hm', hbody'⟩ := handlerFn_eq env r hs hc hhdr fresh
  have hout := Option.some.inj (hm'.symm.trans hfn)
  obtain ⟨hret, hrest⟩ := Prod.mk.inj hout
  obtain ⟨rfl, rfl⟩ := Prod.mk.inj hrest
  refine ⟨⟨c, env, rfl, rfl, fun hdr' hhdr' => ?_⟩, ?_, small_exec env hkeys hs hc⟩
  · rw [← hbody, hbody', ← hret]
    exact receive_result env r hs c hhdr' _
  · exact ExtentServer.step_sameKeys hkeys
      (show ExtentServer.Step s ⟨env, c, (s.exec env c).1⟩ _ from rfl)

/-- Every step of the extent server behind the network is one that keeps the promise. -/
theorem served_step {s s' : Remote ExtentServer} {l : RpcLabel} (hi : Served s)
    (h : Guarded (fun _ l => ByStubs l) (Remote.SafeStep nonce Handles) s l s') :
    Served s' ∧ Remote.SafeStep nonce Executes s l s' := by
  obtain ⟨hstubs, hsafe, hstep⟩ := h
  have hm := RpcSystem.move_of_step hstep.rpc
  have hrequests : ∀ q ∈ s'.rpc.requests,
      q.proc = Rpcc.bindProc ∨ ∃ c, Fits c ∧ q.input = input c := by
    intro q hq
    rcases RpcSystem.requests_of_move hm with hreq | ⟨c, proc, body, q', cl, rfl, hc, hreq⟩
    · rw [hreq] at hq
      exact hi.requests q hq
    · rw [hreq] at hq
      rcases List.mem_append.1 hq with hq | hq
      · exact hi.requests q hq
      · rw [List.mem_singleton.1 hq, (Rpcc.call1_ok hc).1]
        refine hstubs.imp id ?_
        rintro ⟨c, fresh, m, hfits, rfl, hmarshal, rfl⟩
        refine ⟨c, hfits, ?_⟩
        rw [input, ← body_of_marshal hfits hmarshal]
        rfl
  have hexact := RpcSystem.exact_step hi.exact hsafe hm
  cases hstep with
  | other h hl => exact ⟨⟨hexact, hrequests, hi.keys, hi.small⟩, hsafe, .other h hl⟩
  | @handler r r' x x' j ret body q h hj hx =>
    cases hx with
    | rpcbind hbind =>
      exact ⟨⟨hexact, hrequests, hi.keys, hi.small⟩, hsafe, .handler h hj (.rpcbind hbind)⟩
    | service hbind hserves =>
      obtain hq | ⟨c, hfits, hq⟩ := hi.requests q (hi.exact.sound.delivered.job j _ hj)
      · exact absurd hq hbind
      · rw [hq] at hserves
        obtain ⟨hexecutes, hkeys, hsmall⟩ := executes_of_handles hi.keys hi.small hfits hserves
        rw [← hq] at hexecutes
        exact ⟨⟨hexact, hrequests, hkeys, hsmall⟩, hsafe, .handler h hj (.service hbind hexecutes)⟩

theorem byStubs_binding (c nonce : ℕ) : ∀ l ∈ RpcSystem.binding c nonce, ByStubs l := by
  simp [RpcSystem.binding, RpcSystem.served, ByStubs]

end ExtentRpc
