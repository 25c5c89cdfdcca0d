/-
# The file system the clients share

What yfs is for: one tree of directories and files with owners and modes, on which every operation
takes effect at once.  A directory is a `Directory`, a file is its bytes, and no string is parsed.

`Does` lists the rules of the operations.  They are those of the program, with its habits:

* `create` refuses a name that occurs in a listed name or in the number of an entry;
* `create` and `unlink` change the directory before they are refused for the file;
* `truncate` is told how many bytes to cut off, and fails when there are fewer.

The clock is left open: a rule says which of the times it sets, but not to what.
-/
import Yfs.ArrayFile
import Yfs.Deadlock

open YfsClient ArrayFile

/-- What a node holds. -/
inductive Body
  | dir (d : Directory)
  | file (bytes : Str)

/-- A file or a directory with its owner and mode. -/
structure Node where
  atime : UInt32
  mtime : UInt32
  ctime : UInt32
  mode : UInt32
  uid : UserId
  gid : GroupId
  body : Body

/-- The nodes, the keys of the users and the members of the groups. -/
structure FileSystem where
  nodes : Inum → Option Node
  keys : UserId → Str
  groups : GroupId → Finset UserId

/-- The string a body is stored as. -/
def Body.text : Body → Str
  | .dir d => d.text
  | .file bytes => bytes

/-- An empty directory or file, whichever the number is for. -/
def Body.new (i : Inum) : Body :=
  if isdir i then .dir Directory.empty else .file []

/-- The body is of the kind its number is for, and a file has a size that an `int` can hold. -/
def Body.Fits (i : Inum) : Body → Prop
  | .dir _ => isdir i
  | .file bytes => isfile i ∧ bytes.length < 2 ^ 31

/-- The name occurs in a listed name or in the number of an entry. -/
def Directory.Mentions (d : Directory) (name : Str) : Prop :=
  ∃ e ∈ d.entries, name <:+: e.name ∨ name <:+: filename e.inum

namespace Node

/-- After a read. -/
def accessed (n : Node) (time : UInt32) : Node := { n with atime := time }

/-- With a new body. -/
def stored (n : Node) (body : Body) (time : UInt32) : Node :=
  { n with body := body, mtime := time, ctime := time }

/-- What `getfile` reports. -/
def fileInfo (n : Node) : FileInfo :=
  ⟨UInt64.ofNat n.body.text.length, n.atime.toUInt64, n.mtime.toUInt64, n.ctime.toUInt64,
    n.mode.toUInt64, n.uid.toUInt64, n.gid.toUInt64⟩

/-- What `getdir` reports. -/
def dirInfo (n : Node) : DirInfo :=
  ⟨n.atime.toUInt64, n.mtime.toUInt64, n.ctime.toUInt64, n.mode.toUInt64, n.uid.toUInt64,
    n.gid.toUInt64⟩

/-- The node grants the access to everybody, to its owner or to its group. -/
def Permits (n : Node) (bits : ExtentServer.PermBits) (groups : GroupId → Finset UserId)
    (u : UserId) : Prop :=
  n.mode &&& bits.other ≠ 0 ∨ (n.uid = u ∧ n.mode &&& bits.owner ≠ 0) ∨
    (u ∈ groups n.gid ∧ n.mode &&& bits.group ≠ 0)

end Node

namespace FsCall

/-- The node the call opens for reading, and the status it returns when there is none. -/
def opens : FsCall → Option (Inum × FsStatus)
  | .lookup p _ | .create p _ _ _ | .readdir p => some (p, .IOERR)
  | .unlink i _ | .write i _ _ | .read i _ _ _ | .truncate i _ => some (i, .NOENT)
  | _ => none

/-- The node whose attributes the call reads first. -/
def stats : FsCall → Option Inum
  | .getfile i | .getdir i | .chmod i _ | .chuid i _ | .chgid i _ => some i
  | _ => none

/-- The change of owner, group or mode that the call makes. -/
def changes : FsCall → Option (Node → Node)
  | .chmod _ mode => some (fun n => { n with mode := mode.toUInt32 })
  | .chuid _ uid => some (fun n => { n with uid := uid.toUInt32 })
  | .chgid _ gid => some (fun n => { n with gid := gid.toUInt32 })
  | _ => none

/-- The calls of the handlers: directory operations on directories, file operations on files, proper
names, a new file other than its directory, `read` into an empty string, and no write that ends beyond
the range of an `int`. -/
def Proper : FsCall → Prop
  | .getfile i | .truncate i _ => isfile i
  | .getdir i | .readdir i => isdir i
  | .lookup p name | .unlink p name => isdir p ∧ Cluster.ProperName name
  | .create p f name _ => isdir p ∧ f ≠ p ∧ Cluster.ProperName name
  | .write i off buf => isfile i ∧ 0 ≤ off.toInt ∧ off.toInt + buf.length < 2 ^ 31
  | .read i off _ buf => isfile i ∧ 0 ≤ off.toInt ∧ buf = []
  | _ => True

end FsCall

namespace FileSystem

/-- The file system with the node `n` under the number `i`. -/
def set (fs : FileSystem) (i : Inum) (n : Option Node) : FileSystem :=
  { fs with nodes := Function.update fs.nodes i n }

/-- The client has its key, and the node, if there is one, lets its user read. -/
def MayRead (fs : FileSystem) (cl : YfsClient) (i : Inum) : Prop :=
  fs.keys cl.userid = cl.userkey ∧
    ∀ n, fs.nodes i = some n → n.Permits ExtentServer.readBits fs.groups cl.userid

/-- The client has its key, and the node, if there is one, lets its user write. -/
def MayWrite (fs : FileSystem) (cl : YfsClient) (i : Inum) : Prop :=
  fs.keys cl.userid = cl.userkey ∧
    ∀ n, fs.nodes i = some n → n.Permits ExtentServer.writeBits fs.groups cl.userid

/-- The client opens the node for reading and finds the body `b`; `n` is the node afterwards. -/
structure Opens (fs : FileSystem) (cl : YfsClient) (i : Inum) (b : Body) (n : Node) : Prop where
  mayRead : fs.MayRead cl i
  node : ∃ m time, fs.nodes i = some m ∧ n = m.accessed time
  body : n.body = b

/-- What `create` needs to write the directory `d`, which `d'` is to replace. -/
structure Adds (fs : FileSystem) (cl : YfsClient) (p f : Inum) (name : Str) (d d' : Directory) :
    Prop where
  new : ¬ d.Mentions name
  room : d'.text.length ≤ StdString.maxSize
  mayWrite : fs.MayWrite cl p
  entries : d'.entries = d.entries ++ [⟨name, f⟩]

/-- **The rules of the file system**: the client `cl` makes a call, which ends with an outcome and
leaves the file system in the last argument. -/
inductive Does (cl : YfsClient) (fs : FileSystem) : FsCall → Outcome FsReply → FileSystem → Prop
  | attr_missing {c : FsCall} {i : Inum} (hc : c.stats = some i) (hn : fs.nodes i = none) :
      Does cl fs c (.ret ⟨.NOENT, .untouched⟩) fs
  | getfile {i : Inum} {n : Node} (hn : fs.nodes i = some n) :
      Does cl fs (.getfile i) (.ret ⟨.OK, .fin n.fileInfo⟩) fs
  | getdir {i : Inum} {n : Node} (hn : fs.nodes i = some n) :
      Does cl fs (.getdir i) (.ret ⟨.OK, .din n.dirInfo⟩) fs
  | change_denied {c : FsCall} {i : Inum} {g : Node → Node} {n : Node} (hc : c.stats = some i)
      (hg : c.changes = some g) (hn : fs.nodes i = some n) (hw : ¬ fs.MayWrite cl i) :
      Does cl fs c (.ret ⟨.NOACCESS, .untouched⟩) fs
  | change {c : FsCall} {i : Inum} {g : Node → Node} {n : Node} (hc : c.stats = some i)
      (hg : c.changes = some g) (hn : fs.nodes i = some n) (hw : fs.MayWrite cl i) :
      Does cl fs c (.ret ⟨.OK, .untouched⟩) (fs.set i (g n))
  | denied {c : FsCall} {i : Inum} {st : FsStatus} (hc : c.opens = some (i, st))
      (hr : ¬ fs.MayRead cl i) : Does cl fs c (.ret ⟨.NOACCESS, .untouched⟩) fs
  | missing {c : FsCall} {i : Inum} {st : FsStatus} (hc : c.opens = some (i, st))
      (hr : fs.MayRead cl i) (hn : fs.nodes i = none) : Does cl fs c (.ret ⟨st, .untouched⟩) fs
  | lookup {p : Inum} {d : Directory} {n : Node} {e : Dirent} (ho : fs.Opens cl p (.dir d) n)
      (he : e ∈ d.entries) :
      Does cl fs (.lookup p e.name) (.ret ⟨.OK, .fnum e.inum⟩) (fs.set p n)
  | lookup_absent {p : Inum} {d : Directory} {n : Node} {name : Str}
      (ho : fs.Opens cl p (.dir d) n) (hname : name ∉ d.entries.map Dirent.name) :
      Does cl fs (.lookup p name) (.ret ⟨.NOENT, .fnum 0⟩) (fs.set p n)
  | readdir {p : Inum} {d : Directory} {n : Node} (ho : fs.Opens cl p (.dir d) n) :
      Does cl fs (.readdir p) (.ret ⟨.OK, .dirents d.entries⟩) (fs.set p n)
  | create_exists {p f : Inum} {d : Directory} {n : Node} {name : Str} {mode : UInt32}
      (ho : fs.Opens cl p (.dir d) n) (hname : d.Mentions name) :
      Does cl fs (.create p f name mode) (.ret ⟨.EXIST, .untouched⟩) (fs.set p n)
  | create_full {p f : Inum} {d : Directory} {n : Node} {name : Str} {mode : UInt32}
      (ho : fs.Opens cl p (.dir d) n) (hname : ¬ d.Mentions name)
      (hfull : StdString.maxSize < d.text.length + (entry name f).length) :
      Does cl fs (.create p f name mode) .throw (fs.set p n)
  | create_denied {p f : Inum} {d : Directory} {n : Node} {name : Str} {mode : UInt32}
      (ho : fs.Opens cl p (.dir d) n) (hname : ¬ d.Mentions name) (hw : ¬ fs.MayWrite cl p) :
      Does cl fs (.create p f name mode) (.ret ⟨.NOACCESS, .untouched⟩) (fs.set p n)
  | create_half {p f : Inum} {d d' : Directory} {n : Node} {name : Str} {mode time : UInt32}
      (ho : fs.Opens cl p (.dir d) n) (ha : fs.Adds cl p f name d d') (hw : ¬ fs.MayWrite cl f) :
      Does cl fs (.create p f name mode) (.ret ⟨.NOACCESS, .untouched⟩)
        (fs.set p (n.stored (.dir d') time))
  | create {p f : Inum} {d d' : Directory} {n m : Node} {name : Str} {mode time : UInt32}
      (ho : fs.Opens cl p (.dir d) n) (ha : fs.Adds cl p f name d d') (hw : fs.MayWrite cl f)
      (howner : m.mode = mode ∧ m.uid = cl.uid ∧ m.gid = cl.gid) (hbody : m.body = Body.new f) :
      Does cl fs (.create p f name mode) (.ret ⟨.OK, .untouched⟩)
        ((fs.set p (n.stored (.dir d') time)).set f m)
  | unlink_absent {p : Inum} {d : Directory} {n : Node} {name : Str}
      (ho : fs.Opens cl p (.dir d) n) (hname : name ∉ d.entries.map Dirent.name) :
      Does cl fs (.unlink p name) (.ret ⟨.NOENT, .untouched⟩) (fs.set p n)
  | unlink_denied {p : Inum} {d : Directory} {n : Node} {e : Dirent}
      (ho : fs.Opens cl p (.dir d) n) (he : e ∈ d.entries) (hw : ¬ fs.MayWrite cl p) :
      Does cl fs (.unlink p e.name) (.ret ⟨.NOACCESS, .untouched⟩) (fs.set p n)
  | unlink_half {p : Inum} {d : Directory} {n : Node} {e : Dirent} {time : UInt32}
      (ho : fs.Opens cl p (.dir d) n) (he : e ∈ d.entries) (hne : e.inum ≠ p)
      (hp : fs.MayWrite cl p) (hw : ¬ fs.MayWrite cl e.inum) :
      Does cl fs (.unlink p e.name) (.ret ⟨.NOACCESS, .untouched⟩)
        (fs.set p (n.stored (.dir (d.remove e.name)) time))
  | unlink {p : Inum} {d : Directory} {n : Node} {e : Dirent} {time : UInt32}
      (ho : fs.Opens cl p (.dir d) n) (he : e ∈ d.entries) (hne : e.inum ≠ p)
      (hp : fs.MayWrite cl p) (hw : fs.MayWrite cl e.inum) :
      Does cl fs (.unlink p e.name) (.ret ⟨.OK, .untouched⟩)
        ((fs.set p (n.stored (.dir (d.remove e.name)) time)).set e.inum none)
  | read {i : Inum} {bytes : Str} {n : Node} {off : Int64} {size : UInt64}
      (ho : fs.Opens cl i (.file bytes) n) (hoff : off.toInt ≤ bytes.length) :
      Does cl fs (.read i off size []) (.ret ⟨.OK, .buf (slice bytes off.toInt.toNat
        (min (off.toInt.toNat + size.toNat) bytes.length))⟩) (fs.set i n)
  | read_beyond {i : Inum} {bytes : Str} {n : Node} {off : Int64} {size : UInt64}
      (ho : fs.Opens cl i (.file bytes) n) (hoff : bytes.length < off.toInt) :
      Does cl fs (.read i off size []) .throw (fs.set i n)
  | write {i : Inum} {bytes buf : Str} {n : Node} {off : Int64} {time : UInt32}
      (ho : fs.Opens cl i (.file bytes) n) (hw : fs.MayWrite cl i) :
      Does cl fs (.write i off buf) (.ret ⟨.OK, .untouched⟩)
        (fs.set i (n.stored (.file (written off.toInt.toNat buf bytes)) time))
  | write_denied {i : Inum} {bytes buf : Str} {n : Node} {off : Int64}
      (ho : fs.Opens cl i (.file bytes) n) (hw : ¬ fs.MayWrite cl i) :
      Does cl fs (.write i off buf) (.ret ⟨.NOACCESS, .untouched⟩) (fs.set i n)
  | truncate {i : Inum} {bytes : Str} {n : Node} {size : UInt64} {time : UInt32}
      (ho : fs.Opens cl i (.file bytes) n) (hsize : size.toNat ≤ bytes.length)
      (hw : fs.MayWrite cl i) :
      Does cl fs (.truncate i size) (.ret ⟨.OK, .untouched⟩)
        (fs.set i (n.stored (.file (bytes.take (bytes.length - size.toNat))) time))
  | truncate_denied {i : Inum} {bytes : Str} {n : Node} {size : UInt64}
      (ho : fs.Opens cl i (.file bytes) n) (hsize : size.toNat ≤ bytes.length)
      (hw : ¬ fs.MayWrite cl i) :
      Does cl fs (.truncate i size) (.ret ⟨.NOACCESS, .untouched⟩) (fs.set i n)
  | truncate_beyond {i : Inum} {bytes : Str} {n : Node} {size : UInt64}
      (ho : fs.Opens cl i (.file bytes) n) (hsize : bytes.length < size.toNat) :
      Does cl fs (.truncate i size) .throw (fs.set i n)

/-- The calls of a list, made one after another. -/
inductive Runs : FileSystem → List (YfsClient × FsCall × Outcome FsReply) → FileSystem → Prop
  | nil {fs : FileSystem} : Runs fs [] fs
  | cons {fs fs' fs'' : FileSystem} {cl : YfsClient} {c : FsCall} {o : Outcome FsReply}
      {xs : List (YfsClient × FsCall × Outcome FsReply)} (h : Does cl fs c o fs')
      (hxs : Runs fs' xs fs'') : Runs fs ((cl, c, o) :: xs) fs''

end FileSystem
