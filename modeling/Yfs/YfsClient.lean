/-
# The file system client (`yfs_client.cc`, `extent_client.cc`, `server_slock.h`)

Every operation of `yfs_client` is a `Prog`: it takes locks of the lock server through
`ServerScopedLock` (`Prog.withLock`), makes calls of the extent server through `extent_client`, and
returns.  The program says in which order the source makes its calls and what it does with each
response; what the servers do is not part of it.

* A directory is a string `name/inum/name/inum/…`, which the operations split and search.
* A call may fail in the RPC layer.  `call_m` then returns the negative code and leaves the
  out-parameter as it was (`Resp.failed`); any other response overwrites it.
* Strings throw on positions beyond their end; an operation that does not catch this ends with
  `Outcome.throw`, its scoped locks released.  Dereferencing the past-the-end iterator ends it with
  `Outcome.undef`.
* The texts the client prints are left out.
-/
import Yfs.ExtentServer
import Yfs.Prog
import Yfs.Rpcc
import Yfs.StdString

/-- `yfs_client::inum`. -/
abbrev Inum := UInt64

/-- `yfs_client::xxstatus`. -/
inductive FsStatus
  | OK
  | RPCERR
  | NOENT
  | IOERR
  | EXIST
  | NOACCESS
  deriving DecidableEq, Repr

/-- The five operations of `extent_client` that the file system uses. -/
inductive ExtentOp
  | put (buf : Str)
  | get
  | getattr
  | setattr (a : Attr)
  | remove
  deriving DecidableEq, Repr

/-- A call of `extent_client`: the operation, the extent and the credentials it adds. -/
structure ExtentCall where
  op : ExtentOp
  id : ExtentId
  userid : UserId
  userkey : Str
  deriving DecidableEq, Repr

/-- The call the server receives. -/
def ExtentCall.toCall (c : ExtentCall) : Call :=
  match c.op with
  | .put buf => .put c.id buf c.userid c.userkey
  | .get => .get c.id c.userid c.userkey
  | .getattr => .getattr c.id c.userid c.userkey
  | .setattr a => .setattr c.id a c.userid c.userkey
  | .remove => .remove c.id c.userid c.userkey

/-- What a call of `extent_client` comes back with. -/
inductive Resp
  | failed (f : RpcFailure)
  | reply (r : Reply)
  deriving DecidableEq, Repr

namespace Resp

/-- The returned status is `st`. -/
def Is (r : Resp) (st : ExtentStatus) : Prop :=
  match r with
  | failed _ => False
  | reply r => r.status = st

instance (r : Resp) (st : ExtentStatus) : Decidable (r.Is st) :=
  match r with
  | failed _ => .isFalse id
  | reply r => inferInstanceAs (Decidable (r.status = st))

/-- A response has one status. -/
theorem Is.eq {r : Resp} {st st' : ExtentStatus} (h : r.Is st) (h' : r.Is st') : st = st' := by
  cases r with
  | failed f => exact h.elim
  | reply r => exact h.symm.trans h'

/-- The out-parameter of `get`, `s` before the call. -/
def bufOr (s : Str) : Resp → Str
  | failed _ => s
  | reply r => r.buf

/-- The out-parameter of `getattr`, `a` before the call. -/
def attrOr (a : Attr) : Resp → Attr
  | failed _ => a
  | reply r => r.attr

end Resp

/-- How an operation ends. -/
inductive Outcome (β : Type)
  | ret (b : β)
  | throw
  | undef
  deriving DecidableEq, Repr

/-- `yfs_client::fileinfo`. -/
structure FileInfo where
  size : UInt64
  atime : UInt64
  mtime : UInt64
  ctime : UInt64
  mode : UInt64
  uid : UInt64
  gid : UInt64
  deriving DecidableEq, Repr

/-- `yfs_client::dirinfo`. -/
structure DirInfo where
  atime : UInt64
  mtime : UInt64
  ctime : UInt64
  mode : UInt64
  uid : UInt64
  gid : UInt64
  deriving DecidableEq, Repr

/-- `yfs_client::dirent`. -/
structure Dirent where
  name : Str
  inum : Inum
  deriving DecidableEq, Repr

/-- The out-parameter an operation has written. -/
inductive Out
  | untouched
  | fin (i : FileInfo)
  | din (i : DirInfo)
  | fnum (n : Inum)
  | dirents (es : List Dirent)
  | buf (s : Str)
  deriving DecidableEq, Repr

/-- What an operation returns. -/
structure FsReply where
  status : FsStatus
  out : Out
  deriving DecidableEq, Repr

/-- A `yfs_client` at the moment of a call: the credentials of its `extent_client`, what `getuid` and
`getgid` return, and what is on the stack where a local `attr` and the local `finum` of `n2i` are not
initialised. -/
structure YfsClient where
  userid : UserId
  userkey : Str
  uid : UInt32
  gid : UInt32
  stack : Attr
  finum : Inum
  deriving DecidableEq, Repr

/-- An operation of the file system as a program. -/
abbrev FsProg := Prog ExtentId ExtentCall Resp (Outcome FsReply)

namespace YfsClient

/-! ## Directory strings -/

/-- The separator `'/'`. -/
def slash : UInt8 := 47

/-- `yfs_client::filename`. -/
def filename (n : Inum) : Str := StdString.print n.toNat

/-- `yfs_client::n2i`: a text of white space leaves `finum` as it was. -/
def n2i (cl : YfsClient) (n : Str) : Inum := (StdString.extract n).getD cl.finum

/-- `std::find` over the tokens followed by `++it`: the tokens after the first `fname`. -/
def after (fname : Str) : List Str → Option (List Str)
  | [] => none
  | t :: ts => if t = fname then some ts else after fname ts

/-- The loop of `readdir`, which takes the tokens two at a time; `none` when it dereferences the end
iterator. -/
def pairs (cl : YfsClient) : List Str → Option (List Dirent)
  | [] => some []
  | [_] => none
  | name :: num :: ts => (pairs cl ts).map (fun es => ⟨name, cl.n2i num⟩ :: es)

/-- The pair `create` adds to a directory. -/
def entry (fname : Str) (fnum : Inum) : Str :=
  fname ++ [slash] ++ filename fnum ++ [slash]

/-- `buf.erase(buf.find(fname), npos)` of `unlink`, where the file number's text is `num`. -/
def eraseEntry (buf fname num : Str) : Option Str :=
  StdString.erase buf ((StdString.find buf fname).getD (2 ^ 64 - 1))
    (fname.length + 1 + num.length + 1)

/-! ## File contents -/

/-- The edit of `write`: the comparison is `off < (int) size`, the distance `off - size` is computed
in `size_t`. -/
def writeContent (content : Str) (off : Int64) (buf : Str) : Option Str :=
  let size := UInt64.ofNat content.length
  if off.toInt < size.toUInt32.toInt32.toInt then
    StdString.replace content off.toUInt64.toNat buf.length buf
  else
    (StdString.fill (off.toUInt64 - size).toNat 0).bind (fun null =>
      (StdString.append content null).bind (fun content => StdString.append content buf))

/-- The edit of `truncate`: `content.size() - size` is computed in `size_t`. -/
def truncateContent (content : Str) (size : UInt64) : Option Str :=
  StdString.erase content (UInt64.ofNat content.length - size).toNat (2 ^ 64 - 1)

/-- `buf.replace(0, size, content, off, size)` of `read`. -/
def readContent (content : Str) (off : Int64) (size : UInt64) (buf : Str) : Option Str :=
  (StdString.substr content off.toUInt64.toNat size.toNat).bind (fun s =>
    StdString.replace buf 0 size.toNat s)

/-- The `fileinfo` of `getfile`. -/
def fileInfo (a : Attr) : FileInfo :=
  ⟨a.size.toUInt64, a.atime.toUInt64, a.mtime.toUInt64, a.ctime.toUInt64, a.mode.toUInt64,
    a.uid.toUInt64, a.gid.toUInt64⟩

/-- The `dirinfo` of `getdir`. -/
def dirInfo (a : Attr) : DirInfo :=
  ⟨a.atime.toUInt64, a.mtime.toUInt64, a.ctime.toUInt64, a.mode.toUInt64, a.uid.toUInt64,
    a.gid.toUInt64⟩

/-! ## The operations -/

/-- `return st`. -/
def done (st : FsStatus) (out : Out := .untouched) : FsProg :=
  .ret (.ret ⟨st, out⟩)

/-- A call through `ec`. -/
def ec (cl : YfsClient) (op : ExtentOp) (id : ExtentId) (k : Resp → FsProg) : FsProg :=
  .call ⟨op, id, cl.userid, cl.userkey⟩ k

/-- `getfile`: every response other than `NOENT` is taken for a success. -/
def getfile (cl : YfsClient) (inum : Inum) : FsProg :=
  .withLock inum (ec cl .getattr inum (fun r =>
    if r.Is .NOENT then done .NOENT
    else done .OK (.fin (fileInfo (r.attrOr cl.stack)))))

/-- `getdir`. -/
def getdir (cl : YfsClient) (inum : Inum) : FsProg :=
  .withLock inum (ec cl .getattr inum (fun r =>
    if r.Is .NOENT then done .NOENT
    else done .OK (.din (dirInfo (r.attrOr cl.stack)))))

/-- `lookup`. -/
def lookup (cl : YfsClient) (pnum : Inum) (fname : Str) : FsProg :=
  .withLock pnum (ec cl .get pnum (fun r =>
    if r.Is .NOENT then done .IOERR
    else if r.Is .NOACCESS then done .NOACCESS
    else
      match after fname (StdString.split slash (r.bufOr [])) with
      | none => done .NOENT (.fnum 0)
      | some [] => .ret .undef
      | some (num :: _) => done .OK (.fnum (cl.n2i num))))

/-- `create` once the name is known to be new: `buf` is the new directory string. -/
def createNew (cl : YfsClient) (pnum fnum : Inum) (buf : Str) (mode : UInt32) : FsProg :=
  ec cl (.put buf) pnum (fun r =>
    if r.Is .NOACCESS then done .NOACCESS
    else ec cl (.put []) fnum (fun r =>
      if r.Is .NOACCESS then done .NOACCESS
      else ec cl .getattr fnum (fun r =>
        let a := { r.attrOr cl.stack with mode := mode, uid := cl.uid, gid := cl.gid }
        ec cl (.setattr a) fnum (fun r =>
          if r.Is .NOACCESS then done .NOACCESS
          else done .OK))))

/-- `create`: the name is searched in the whole directory string. -/
def create (cl : YfsClient) (pnum fnum : Inum) (fname : Str) (mode : UInt32) : FsProg :=
  .withLock pnum (.withLock fnum (ec cl .get pnum (fun r =>
    if r.Is .NOENT then done .IOERR
    else if r.Is .NOACCESS then done .NOACCESS
    else if StdString.find (r.bufOr []) fname ≠ none then done .EXIST
    else
      match StdString.append (r.bufOr []) (entry fname fnum) with
      | none => .ret .throw
      | some buf => createNew cl pnum fnum buf mode)))

/-- `readdir` into an empty list. -/
def readdir (cl : YfsClient) (num : Inum) : FsProg :=
  .withLock num (ec cl .get num (fun r =>
    if r.Is .NOENT then done .IOERR
    else if r.Is .NOACCESS then done .NOACCESS
    else
      match pairs cl (StdString.split slash (r.bufOr [])) with
      | none => .ret .undef
      | some es => done .OK (.dirents es)))

/-- The common body of `write` and `truncate`: read the file, edit it, write it back. -/
def modify (cl : YfsClient) (num : Inum) (edit : Str → Option Str) : FsProg :=
  .withLock num (ec cl .get num (fun r =>
    if r.Is .NOENT then done .NOENT
    else if r.Is .NOACCESS then done .NOACCESS
    else
      match edit (r.bufOr []) with
      | none => .ret .throw
      | some content =>
        ec cl (.put content) num (fun r =>
          if r.Is .NOACCESS then done .NOACCESS
          else done .OK)))

/-- `write`. -/
def write (cl : YfsClient) (num : Inum) (off : Int64) (buf : Str) : FsProg :=
  modify cl num (fun content => writeContent content off buf)

/-- `truncate`. -/
def truncate (cl : YfsClient) (num : Inum) (size : UInt64) : FsProg :=
  modify cl num (fun content => truncateContent content size)

/-- `read` into a string that holds `buf`. -/
def read (cl : YfsClient) (num : Inum) (off : Int64) (size : UInt64) (buf : Str) : FsProg :=
  .withLock num (ec cl .get num (fun r =>
    if r.Is .NOENT then done .NOENT
    else if r.Is .NOACCESS then done .NOACCESS
    else
      match readContent (r.bufOr []) off size buf with
      | none => .ret .throw
      | some s => done .OK (.buf s)))

/-- `unlink` after the directory has been written back: the file's lock is taken only now. -/
def unlinkFile (cl : YfsClient) (fnum : Inum) : FsProg :=
  .withLock fnum (ec cl .remove fnum (fun r =>
    if r.Is .NOACCESS then done .NOACCESS
    else done .OK))

/-- `unlink`. -/
def unlink (cl : YfsClient) (pnum : Inum) (fname : Str) : FsProg :=
  .withLock pnum (ec cl .get pnum (fun r =>
    if r.Is .NOENT then done .NOENT
    else if r.Is .NOACCESS then done .NOACCESS
    else
      match after fname (StdString.split slash (r.bufOr [])) with
      | none => done .NOENT
      | some [] => .ret .undef
      | some (num :: _) =>
        match eraseEntry (r.bufOr []) fname num with
        | none => .ret .throw
        | some buf =>
          ec cl (.put buf) pnum (fun r =>
            if r.Is .NOACCESS then done .NOACCESS
            else unlinkFile cl (cl.n2i num))))

/-- The common body of `chmod`, `chuid` and `chgid`: read the attributes, change one, write them
back. -/
def change (cl : YfsClient) (fnum : Inum) (edit : Attr → Attr) : FsProg :=
  .withLock fnum (ec cl .getattr fnum (fun r =>
    if r.Is .NOENT then done .NOENT
    else ec cl (.setattr (edit (r.attrOr cl.stack))) fnum (fun r =>
      if r.Is .NOACCESS then done .NOACCESS
      else done .OK)))

/-- `chmod`. -/
def chmod (cl : YfsClient) (fnum : Inum) (mode : UInt64) : FsProg :=
  change cl fnum (fun a => { a with mode := mode.toUInt32 })

/-- `chuid`. -/
def chuid (cl : YfsClient) (fnum : Inum) (uid : UInt64) : FsProg :=
  change cl fnum (fun a => { a with uid := uid.toUInt32 })

/-- `chgid`. -/
def chgid (cl : YfsClient) (fnum : Inum) (gid : UInt64) : FsProg :=
  change cl fnum (fun a => { a with gid := gid.toUInt32 })

/-! ## After the first `get`

The rests of the programs that start with a `get`, given the string it has left in `buf`. -/

/-- `lookup` in the directory string `buf`. -/
def lookupIn (cl : YfsClient) (fname buf : Str) : FsProg :=
  match after fname (StdString.split slash buf) with
  | none => done .NOENT (.fnum 0)
  | some [] => .ret .undef
  | some (num :: _) => done .OK (.fnum (cl.n2i num))

/-- `create` in the directory string `buf`. -/
def createIn (cl : YfsClient) (pnum fnum : Inum) (fname : Str) (mode : UInt32) (buf : Str) : FsProg :=
  if StdString.find buf fname ≠ none then done .EXIST
  else
    match StdString.append buf (entry fname fnum) with
    | none => .ret .throw
    | some buf => createNew cl pnum fnum buf mode

/-- `readdir` of the directory string `buf`. -/
def readdirIn (cl : YfsClient) (buf : Str) : FsProg :=
  match pairs cl (StdString.split slash buf) with
  | none => .ret .undef
  | some es => done .OK (.dirents es)

/-- `write` and `truncate` of the content `buf`. -/
def modifyIn (cl : YfsClient) (num : Inum) (edit : Str → Option Str) (buf : Str) : FsProg :=
  match edit buf with
  | none => .ret .throw
  | some content =>
    ec cl (.put content) num (fun r =>
      if r.Is .NOACCESS then done .NOACCESS
      else done .OK)

/-- `unlink` in the directory string `buf`. -/
def unlinkIn (cl : YfsClient) (pnum : Inum) (fname buf : Str) : FsProg :=
  match after fname (StdString.split slash buf) with
  | none => done .NOENT
  | some [] => .ret .undef
  | some (num :: _) =>
    match eraseEntry buf fname num with
    | none => .ret .throw
    | some buf =>
      ec cl (.put buf) pnum (fun r =>
        if r.Is .NOACCESS then done .NOACCESS
        else unlinkFile cl (cl.n2i num))

/-- A new name in a string that stays short is added. -/
theorem createIn_of_new (cl : YfsClient) {pnum fnum : Inum} {fname buf : Str} {mode : UInt32}
    (hnew : ¬ fname <:+: buf)
    (hlen : buf.length + (entry fname fnum).length ≤ StdString.maxSize) :
    cl.createIn pnum fnum fname mode buf = createNew cl pnum fnum (buf ++ entry fname fnum) mode := by
  rw [createIn, if_neg (not_not.2 (StdString.find_eq_none_iff.2 hnew)), StdString.append, if_pos hlen]

end YfsClient

/-- A call of one of the operations of `yfs_client`, with its arguments. -/
inductive FsCall
  | getfile (inum : Inum)
  | getdir (inum : Inum)
  | lookup (pnum : Inum) (fname : Str)
  | create (pnum fnum : Inum) (fname : Str) (mode : UInt32)
  | unlink (pnum : Inum) (fname : Str)
  | readdir (num : Inum)
  | write (num : Inum) (off : Int64) (buf : Str)
  | read (num : Inum) (off : Int64) (size : UInt64) (buf : Str)
  | truncate (num : Inum) (size : UInt64)
  | chmod (fnum : Inum) (mode : UInt64)
  | chuid (fnum : Inum) (uid : UInt64)
  | chgid (fnum : Inum) (gid : UInt64)
  deriving DecidableEq, Repr

/-- The program of a call made by the client `cl`. -/
def FsCall.prog (cl : YfsClient) : FsCall → FsProg
  | .getfile inum => cl.getfile inum
  | .getdir inum => cl.getdir inum
  | .lookup pnum fname => cl.lookup pnum fname
  | .create pnum fnum fname mode => cl.create pnum fnum fname mode
  | .unlink pnum fname => cl.unlink pnum fname
  | .readdir num => cl.readdir num
  | .write num off buf => cl.write num off buf
  | .read num off size buf => cl.read num off size buf
  | .truncate num size => cl.truncate num size
  | .chmod fnum mode => cl.chmod fnum mode
  | .chuid fnum uid => cl.chuid fnum uid
  | .chgid fnum gid => cl.chgid fnum gid

/-- The extent server's answer to a call that reaches it and comes back. -/
def serve (env : Env) (c : ExtentCall) (s : ExtentServer) : Resp × ExtentServer :=
  let (r, s) := ExtentServer.exec env s c.toCall
  (.reply r, s)
