/-
# The extent server (`extent_server.cc`, `extent_protocol.h`)

The server keeps four maps: the attributes and the contents of each extent, the key of each user and
the members of each group.  Its ten operations are functions from the state before a call to the
reply and the state after it; each holds the server's mutex, so calls are atomic.  (`reg` and the
group operations take no lock in the source; they are modelled as atomic too.)

* Maps are `StdMap`s, so that `authenticate` and `ingroup`, which read through `operator[]`, insert
  the entry they look for (`touchKey`, `touchGroup`).
* What a call reads from outside the state is an `Env`: the clock, and what is on the stack where
  `put` leaves the owner of a new record uninitialised.
* The texts the server prints are left out.
-/
import Yfs.StdMap
import Yfs.Trace

/-- A `std::string`: a list of bytes. -/
abbrev Str := List UInt8

/-- `extent_protocol::extentid_t`, an `unsigned long long`. -/
abbrev ExtentId := UInt64

/-- `extent_protocol::userid_t`, an `unsigned int`. -/
abbrev UserId := UInt32

/-- `extent_protocol::groupid_t`, an `unsigned int`. -/
abbrev GroupId := UInt32

/-- `extent_protocol::xxstatus`. -/
inductive ExtentStatus
  | OK
  | RPCERR
  | NOENT
  | IOERR
  | NOACCESS
  deriving DecidableEq, Repr

/-- `extent_protocol::attr`. -/
structure Attr where
  atime : UInt32
  mtime : UInt32
  ctime : UInt32
  size : UInt32
  mode : UInt32
  uid : UserId
  gid : GroupId
  deriving DecidableEq, Repr, Inhabited

/-- What a call reads from outside the server: `time(NULL)` as stored in an `unsigned int`, and the
contents of the stack slot of the local `attr a` of `put`. -/
structure Env where
  time : UInt32
  stack : Attr
  deriving DecidableEq, Repr, Inhabited

/-- The state of `extent_server`. -/
structure ExtentServer where
  attrs : StdMap ExtentId Attr
  contents : StdMap ExtentId Str
  userkeys : StdMap UserId Str
  groupusers : StdMap GroupId (Finset UserId)

/-- What a call sends back: the status and the out-parameter `buf` of `get`, `a` of `getattr`. -/
structure Reply where
  status : ExtentStatus
  buf : Str := []
  attr : Attr := default
  deriving DecidableEq, Repr

/-- A call of one of the ten registered operations, with its arguments. -/
inductive Call
  | put (id : ExtentId) (buf : Str) (userid : UserId) (userkey : Str)
  | get (id : ExtentId) (userid : UserId) (userkey : Str)
  | getattr (id : ExtentId) (userid : UserId) (userkey : Str)
  | setattr (id : ExtentId) (a : Attr) (userid : UserId) (userkey : Str)
  | remove (id : ExtentId) (userid : UserId) (userkey : Str)
  | reg (userid : UserId) (userkey : Str)
  | groupadd (gid : GroupId) (admin : UserId) (adminkey : Str)
  | groupdel (gid : GroupId) (admin : UserId) (adminkey : Str)
  | useradd (userid : UserId) (gid : GroupId) (admin : UserId) (adminkey : Str)
  | userdel (userid : UserId) (gid : GroupId) (admin : UserId) (adminkey : Str)
  deriving DecidableEq, Repr

namespace ExtentServer

/-! ## Authentication and permission checks -/

/-- The state after `userkeys[userid]` has been evaluated. -/
def touchKey (s : ExtentServer) (userid : UserId) : ExtentServer :=
  { s with userkeys := s.userkeys.touch userid }

/-- The state after `groupusers[groupid]` has been evaluated. -/
def touchGroup (s : ExtentServer) (groupid : GroupId) : ExtentServer :=
  { s with groupusers := s.groupusers.touch groupid }

/-- `authenticate`: the stored key is read through `operator[]`. -/
def authenticate (s : ExtentServer) (userid : UserId) (userkey : Str) : Bool × ExtentServer :=
  (s.userkeys.get userid == userkey, s.touchKey userid)

/-- `isadmin`: the check is commented out in the source. -/
def isadmin (_s : ExtentServer) (_userid : UserId) : Bool := true

/-- `ingroup`: the member set is read through `operator[]`. -/
def ingroup (s : ExtentServer) (userid : UserId) (groupid : GroupId) : Bool × ExtentServer :=
  (decide (userid ∈ s.groupusers.get groupid), s.touchGroup groupid)

/-- The mode bits of one kind of access: for everybody, for the owner, for the group. -/
structure PermBits where
  other : UInt32
  owner : UInt32
  group : UInt32

/-- The common body of `has_read_perm`, `has_write_perm` and `has_execute_perm`.  `ingroup` is
reached, and inserts the group, only when the first two disjuncts are false. -/
def hasPerm (bits : PermBits) (s : ExtentServer) (id : ExtentId) (userid : UserId)
    (userkey : Str) : Bool × ExtentServer :=
  match s.authenticate userid userkey with
  | (false, s) => (false, s)
  | (true, s) =>
    match s.attrs id with
    | none => (true, s)
    | some a =>
      if a.mode &&& bits.other ≠ 0 then (true, s)
      else if a.uid = userid ∧ a.mode &&& bits.owner ≠ 0 then (true, s)
      else
        match s.ingroup userid a.gid with
        | (b, s) => (b && decide (a.mode &&& bits.group ≠ 0), s)

/-- The bits `has_read_perm` tests. -/
def readBits : PermBits := ⟨0o004, 0o400, 0o040⟩

/-- The bits `has_write_perm` tests. -/
def writeBits : PermBits := ⟨0o002, 0o200, 0o020⟩

/-- The bits `has_execute_perm` tests. -/
def executeBits : PermBits := ⟨0o001, 0o100, 0o010⟩

/-- `has_read_perm`. -/
def hasReadPerm (s : ExtentServer) (id : ExtentId) (userid : UserId) (userkey : Str) :
    Bool × ExtentServer :=
  hasPerm readBits s id userid userkey

/-- `has_write_perm`. -/
def hasWritePerm (s : ExtentServer) (id : ExtentId) (userid : UserId) (userkey : Str) :
    Bool × ExtentServer :=
  hasPerm writeBits s id userid userkey

/-- `has_execute_perm`. -/
def hasExecutePerm (s : ExtentServer) (id : ExtentId) (userid : UserId) (userkey : Str) :
    Bool × ExtentServer :=
  hasPerm executeBits s id userid userkey

/-! ## The operations -/

/-- The constructor: one record, the root directory `0x00000001`. -/
def init (time : UInt32) (uid : UserId) (gid : GroupId) : ExtentServer where
  attrs := StdMap.set (fun _ => none) 1
    { atime := time, mtime := time, ctime := time, size := 0, mode := 0o777, uid := uid, gid := gid }
  contents := StdMap.set (fun _ => none) 1 []
  userkeys := fun _ => none
  groupusers := fun _ => none

/-- The attributes `put` is about to store: those of the record, or those of a new one, whose owner
and group stay as they happen to be on the stack. -/
def putAttr (env : Env) (s : ExtentServer) (id : ExtentId) (buf : Str) : Attr :=
  let a := match s.attrs id with
    | none => { env.stack with atime := env.time, mode := 0o777 }
    | some a => a
  { a with ctime := env.time, mtime := env.time, size := UInt32.ofNat buf.length }

/-- `put`. -/
def put (env : Env) (s : ExtentServer) (id : ExtentId) (buf : Str) (userid : UserId)
    (userkey : Str) : Reply × ExtentServer :=
  let a := putAttr env s id buf
  match s.hasWritePerm id userid userkey with
  | (false, s) => (⟨.NOACCESS, [], default⟩, s)
  | (true, s) =>
    (⟨.OK, [], default⟩, { s with attrs := s.attrs.set id a, contents := s.contents.set id buf })

/-- `get`: `attrs[id].atime` is written through `operator[]`. -/
def get (env : Env) (s : ExtentServer) (id : ExtentId) (userid : UserId) (userkey : Str) :
    Reply × ExtentServer :=
  match s.hasReadPerm id userid userkey with
  | (false, s) => (⟨.NOACCESS, [], default⟩, s)
  | (true, s) =>
    match s.contents id with
    | none => (⟨.NOENT, [], default⟩, s)
    | some buf =>
      (⟨.OK, buf, default⟩,
        { s with attrs := s.attrs.set id { s.attrs.get id with atime := env.time } })

/-- `getattr`: no permission is needed, and the credentials are not looked at. -/
def getattr (s : ExtentServer) (id : ExtentId) : Reply × ExtentServer :=
  match s.contents id with
  | none => (⟨.NOENT, [], ⟨0, 0, 0, 0, 0o777, 0, 0⟩⟩, s)
  | some _ => (⟨.OK, [], s.attrs.get id⟩, { s with attrs := s.attrs.touch id })

/-- `setattr`: only the mode, the owner and the group are taken from `a`. -/
def setattr (s : ExtentServer) (id : ExtentId) (a : Attr) (userid : UserId) (userkey : Str) :
    Reply × ExtentServer :=
  match s.hasWritePerm id userid userkey with
  | (false, s) => (⟨.NOACCESS, [], default⟩, s)
  | (true, s) =>
    match s.contents id with
    | none => (⟨.NOENT, [], default⟩, s)
    | some _ =>
      (⟨.OK, [], default⟩,
        { s with attrs :=
            s.attrs.set id { s.attrs.get id with mode := a.mode, uid := a.uid, gid := a.gid } })

/-- `remove`. -/
def remove (s : ExtentServer) (id : ExtentId) (userid : UserId) (userkey : Str) :
    Reply × ExtentServer :=
  match s.hasWritePerm id userid userkey with
  | (false, s) => (⟨.NOACCESS, [], default⟩, s)
  | (true, s) =>
    match s.contents id with
    | none => (⟨.NOENT, [], default⟩, s)
    | some _ =>
      (⟨.OK, [], default⟩,
        { s with attrs := s.attrs.erase id, contents := s.contents.erase id })

/-- `reg`: the first registration of a user stores the key, later ones are checked against it. -/
def reg (s : ExtentServer) (userid : UserId) (userkey : Str) : Reply × ExtentServer :=
  match s.userkeys userid with
  | none => (⟨.OK, [], default⟩, { s with userkeys := s.userkeys.set userid userkey })
  | some _ =>
    match s.authenticate userid userkey with
    | (false, s) => (⟨.NOACCESS, [], default⟩, s)
    | (true, s) => (⟨.OK, [], default⟩, s)

/-- The check every group operation starts with, `!isadmin(admin) || !authenticate(admin, adminkey)`
negated. -/
def adminOk (s : ExtentServer) (admin : UserId) (adminkey : Str) : Bool × ExtentServer :=
  if s.isadmin admin then s.authenticate admin adminkey else (false, s)

/-- `groupadd`: evaluating `groupusers[gid]` creates the group. -/
def groupadd (s : ExtentServer) (gid : GroupId) (admin : UserId) (adminkey : Str) :
    Reply × ExtentServer :=
  match s.adminOk admin adminkey with
  | (false, s) => (⟨.NOACCESS, [], default⟩, s)
  | (true, s) => (⟨.OK, [], default⟩, s.touchGroup gid)

/-- `groupdel`. -/
def groupdel (s : ExtentServer) (gid : GroupId) (admin : UserId) (adminkey : Str) :
    Reply × ExtentServer :=
  match s.adminOk admin adminkey with
  | (false, s) => (⟨.NOACCESS, [], default⟩, s)
  | (true, s) =>
    match s.groupusers gid with
    | none => (⟨.NOENT, [], default⟩, s)
    | some _ => (⟨.OK, [], default⟩, { s with groupusers := s.groupusers.erase gid })

/-- `useradd`. -/
def useradd (s : ExtentServer) (userid : UserId) (gid : GroupId) (admin : UserId)
    (adminkey : Str) : Reply × ExtentServer :=
  match s.adminOk admin adminkey with
  | (false, s) => (⟨.NOACCESS, [], default⟩, s)
  | (true, s) =>
    (⟨.OK, [], default⟩,
      { s with groupusers := s.groupusers.set gid (insert userid (s.groupusers.get gid)) })

/-- `userdel`: unlike its siblings it answers `OK` to a caller it rejects. -/
def userdel (s : ExtentServer) (userid : UserId) (gid : GroupId) (admin : UserId)
    (adminkey : Str) : Reply × ExtentServer :=
  match s.adminOk admin adminkey with
  | (false, s) => (⟨.OK, [], default⟩, s)
  | (true, s) =>
    match s.groupusers gid with
    | none => (⟨.NOENT, [], default⟩, s)
    | some users =>
      if userid ∈ users then
        (⟨.OK, [], default⟩, { s with groupusers := s.groupusers.set gid (users.erase userid) })
      else (⟨.NOENT, [], default⟩, s)

/-- One call of the server. -/
def exec (env : Env) (s : ExtentServer) : Call → Reply × ExtentServer
  | .put id buf userid userkey => put env s id buf userid userkey
  | .get id userid userkey => get env s id userid userkey
  | .getattr id _ _ => getattr s id
  | .setattr id a userid userkey => setattr s id a userid userkey
  | .remove id userid userkey => remove s id userid userkey
  | .reg userid userkey => reg s userid userkey
  | .groupadd gid admin adminkey => groupadd s gid admin adminkey
  | .groupdel gid admin adminkey => groupdel s gid admin adminkey
  | .useradd userid gid admin adminkey => useradd s userid gid admin adminkey
  | .userdel userid gid admin adminkey => userdel s userid gid admin adminkey

/-! ## Runs -/

/-- One call in a history: the environment it read, the call and the reply. -/
structure Event where
  env : Env
  call : Call
  reply : Reply

/-- The calls of the server as a labelled step relation. -/
def Step (s : ExtentServer) (e : Event) (s' : ExtentServer) : Prop :=
  exec e.env s e.call = (e.reply, s')

/-- Make the calls `cs` one after another: the history and the final state. -/
def replay (s : ExtentServer) : List (Env × Call) → List Event × ExtentServer
  | [] => ([], s)
  | (env, c) :: cs =>
    let r := replay (exec env s c).2 cs
    (⟨env, c, (exec env s c).1⟩ :: r.1, r.2)

theorem trace_replay (s : ExtentServer) (cs : List (Env × Call)) :
    Trace Step s (replay s cs).1 (replay s cs).2 := by
  induction cs generalizing s with
  | nil => exact .nil
  | cons c cs ih => exact (Trace.single (a := ⟨c.1, c.2, (exec c.1 s c.2).1⟩) rfl).append (ih _)

/-- A run whose steps meet a condition goes on with any call that meets it. -/
theorem snoc_exec {C : ExtentServer → Event → Prop} {s₀ s : ExtentServer} {h : List Event}
    (ht : Trace (Guarded C Step) s₀ h s) (env : Env) (c : Call)
    (hc : C s ⟨env, c, (exec env s c).1⟩) :
    Trace (Guarded C Step) s₀ (h ++ [⟨env, c, (exec env s c).1⟩]) (exec env s c).2 :=
  ht.snoc ⟨hc, rfl⟩

/-- `Run h s`: the calls `h`, made one after another on a server fresh from its constructor, get the
replies recorded in `h` and lead to `s`. -/
def Run (h : List Event) (s : ExtentServer) : Prop :=
  ∃ time uid gid, Trace Step (init time uid gid) h s

end ExtentServer
