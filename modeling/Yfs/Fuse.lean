/-
# The FUSE handlers (`fuse.cc`)

A handler is a program over calls of `yfs_client`: it makes one call after another, looks at what they
return, and sends one reply to the kernel.  Between two of its calls it holds no lock of the lock
server, so the calls of other clients may come in between.

* `getattr`, `lookup` and `createhelper` are the helpers the handlers share.  They are written with
  the rest of the handler as a continuation on the status and the out-parameter.
* An exception of a `yfs_client` call is not caught by a handler: the process ends without a reply.
* `random_inum` takes what `rand` returns as an argument.
* The texts the handlers print are left out.

`Handles` runs a handler against the extent server with nobody else around, each of its calls to the
end.
-/
import Yfs.DirectoryRuns

namespace YfsClient

/-- `yfs_client::isfile`. -/
def isfile (inum : Inum) : Bool := inum &&& 0x80000000 != 0

/-- `yfs_client::isdir`. -/
def isdir (inum : Inum) : Bool := !isfile inum

end YfsClient

/-- The error numbers the handlers reply with. -/
inductive Errno
  | ENOENT
  | EACCES
  | EEXIST
  | ENOTDIR
  | ENOSYS
  deriving DecidableEq, Repr

/-- The fields of `struct stat` that are ever set. -/
structure Stat where
  ino : UInt64
  mode : UInt32
  nlink : UInt64
  atime : UInt64
  mtime : UInt64
  ctime : UInt64
  size : Int64
  uid : UInt32
  gid : UInt32
  deriving DecidableEq, Repr

/-- `struct fuse_entry_param`. -/
structure EntryParam where
  ino : UInt64
  attr : Stat
  generation : UInt64 := 0
  attrTimeout : ℕ := 0
  entryTimeout : ℕ := 0
  deriving DecidableEq, Repr

/-- What a handler replies: `fuse_reply_err` with an error or with `0`, `fuse_reply_attr`,
`fuse_reply_entry`, `fuse_reply_create`, `fuse_reply_buf`. -/
inductive FuseReply
  | err (e : Errno)
  | ok
  | attr (st : Stat)
  | entry (e : EntryParam)
  | create (e : EntryParam)
  | buf (s : Str)
  deriving DecidableEq, Repr

/-- The credentials of the calling process, `fuse_get_context()`. -/
structure FuseContext where
  uid : UInt32
  gid : UInt32
  deriving DecidableEq, Repr

/-- A handler as a program over calls of `yfs_client`. -/
abbrev Handler := Prog Empty FsCall FsReply (Outcome FuseReply)

namespace Fuse

open YfsClient

/-- Send the reply and return. -/
def reply (r : FuseReply) : Handler := .ret (.ret r)

/-- `random_inum`, where `r₁` and `r₂` are the results of `rand()`: the `int` is widened to an
`unsigned long` with its sign. -/
def randomInum (isFile : Bool) (r₁ r₂ : UInt32) : Inum :=
  let r := (r₁ <<< 16 ||| r₂).toInt32.toInt64.toUInt64
  (if isFile then 0x80000000 ||| r else 0x7FFFFFFF &&& r) &&& 0xFFFFFFFF

/-! ## Attributes -/

/-- `bzero(&st, sizeof(st)); st.st_ino = inum`. -/
def zeroStat (inum : Inum) : Stat := ⟨inum, 0, 0, 0, 0, 0, 0, 0, 0⟩

/-- The `struct stat` of a file: `S_IFREG | info.mode`, one link. -/
def fileStat (inum : Inum) (info : FileInfo) : Stat where
  ino := inum
  mode := (0o100000 ||| info.mode).toUInt32
  nlink := 1
  atime := info.atime
  mtime := info.mtime
  ctime := info.ctime
  size := info.size.toInt64
  uid := info.uid.toUInt32
  gid := info.gid.toUInt32

/-- The `struct stat` of a directory: `S_IFDIR | info.mode`, two links; the size stays zero. -/
def dirStat (inum : Inum) (info : DirInfo) : Stat where
  ino := inum
  mode := (0o040000 ||| info.mode).toUInt32
  nlink := 2
  atime := info.atime
  mtime := info.mtime
  ctime := info.ctime
  size := 0
  uid := info.uid.toUInt32
  gid := info.gid.toUInt32

/-- The `struct stat` that `getattr` fills from what `getfile` or `getdir` has written. -/
def statOf (inum : Inum) : Out → Stat
  | .fin info => fileStat inum info
  | .din info => dirStat inum info
  | _ => zeroStat inum

/-- The call `getattr` makes, by the type of the inum. -/
def attrCall (inum : Inum) : FsCall := if isfile inum then .getfile inum else .getdir inum

/-- `getattr`: the rest of the handler goes on with the status and the attributes. -/
def getattr (inum : Inum) (k : FsStatus → Stat → Handler) : Handler :=
  .call (attrCall inum) (fun r =>
    if r.status ≠ .OK then k r.status (zeroStat inum)
    else k .OK (statOf inum r.out))

/-- `fuseserver_getattr`. -/
def fuseserverGetattr (ino : Inum) : Handler :=
  getattr ino (fun ret st =>
    if ret ≠ .OK then reply (.err .ENOENT)
    else reply (.attr st))

/-- `FUSE_SET_ATTR_MODE`. -/
def setAttrMode : UInt32 := 1

/-- `FUSE_SET_ATTR_UID`. -/
def setAttrUid : UInt32 := 2

/-- `FUSE_SET_ATTR_GID`. -/
def setAttrGid : UInt32 := 4

/-- `FUSE_SET_ATTR_SIZE`. -/
def setAttrSize : UInt32 := 8

/-- The call that gives a file the size `new` when `getattr` has reported the size `old`: write zeros
at the end, or cut off the difference.  `none` when the string of zeros is too long. -/
def sizeCall (inum : Inum) (new old : Int64) : Option FsCall :=
  if old < new then
    (StdString.fill (new - old).toUInt64.toNat 0).map (fun nullStr => .write inum old nullStr)
  else some (.truncate inum (old - new).toUInt64)

/-- `if (flag & to_set) ret = c;`. -/
def setting (flag toSet : UInt32) (c : FsCall) (ret : FsStatus) (k : FsStatus → Handler) : Handler :=
  if flag &&& toSet ≠ 0 then .call c (fun r => k r.status) else k ret

/-- The end of `fuseserver_setattr`, with the status of the last change. -/
def setattrReply (inum : Inum) (ret : FsStatus) : Handler :=
  if ret = .NOACCESS then reply (.err .EACCES)
  else if ret = .IOERR then reply (.err .ENOENT)
  else getattr inum (fun _ st => reply (.attr st))

/-- `fuseserver_setattr` after the size has been dealt with. -/
def setattrRest (inum : Inum) (attr : Stat) (toSet : UInt32) (ret : FsStatus) : Handler :=
  setting setAttrMode toSet (.chmod inum attr.mode.toUInt64) ret (fun ret =>
    setting setAttrUid toSet (.chuid inum attr.uid.toUInt64) ret (fun ret =>
      setting setAttrGid toSet (.chgid inum attr.gid.toUInt64) ret (setattrReply inum)))

/-- `fuseserver_setattr`. -/
def fuseserverSetattr (ino : Inum) (attr : Stat) (toSet : UInt32) : Handler :=
  getattr ino (fun ret st =>
    if ret ≠ .OK then reply (.err .ENOENT)
    else if setAttrSize &&& toSet ≠ 0 then
      match sizeCall ino attr.size st.size with
      | none => .ret .throw
      | some c => .call c (fun r => setattrRest ino attr toSet r.status)
    else setattrRest ino attr toSet ret)

/-! ## Access checks -/

/-- `R_OK`. -/
def rOk : UInt32 := 4

/-- `W_OK`. -/
def wOk : UInt32 := 2

/-- `X_OK`. -/
def xOk : UInt32 := 1

/-- `F_OK`. -/
def fOk : UInt32 := 0

/-- One of the three tests of `fuseserver_access`: the access is not asked for, or the mode grants it
to everybody, to the owner or to the group. -/
def accessOk (bits : ExtentServer.PermBits) (flag mask : UInt32) (fc : FuseContext) (st : Stat) :
    Bool :=
  mask &&& flag == 0 || (st.mode &&& bits.other != 0 || (st.uid == fc.uid && st.mode &&& bits.owner != 0)
    || (st.gid == fc.gid && st.mode &&& bits.group != 0))

/-- The reply of `fuseserver_access` once the attributes are known.  `F_OK` is zero, so its test never
succeeds. -/
def accessReply (fc : FuseContext) (mask : UInt32) (st : Stat) : FuseReply :=
  if mask &&& fOk ≠ 0 then .ok
  else if accessOk ExtentServer.readBits rOk mask fc st &&
      accessOk ExtentServer.writeBits wOk mask fc st &&
      accessOk ExtentServer.executeBits xOk mask fc st then .ok
  else .err .EACCES

/-- `fuseserver_access`. -/
def fuseserverAccess (fc : FuseContext) (ino : Inum) (mask : UInt32) : Handler :=
  getattr ino (fun ret st =>
    if ret ≠ .OK then reply (.err .ENOENT)
    else reply (accessReply fc mask st))

/-! ## Contents -/

/-- The reply of `fuseserver_read` to what `read` has returned into the string `buf`, empty before. -/
def readReply (r : FsReply) : FuseReply :=
  match r.status, r.out with
  | .NOACCESS, _ => .err .EACCES
  | .NOENT, _ => .err .ENOENT
  | _, .buf s => .buf s
  | _, _ => .buf []

/-- `fuseserver_read`: what `getattr` reports decides only whether the file is read at all. -/
def fuseserverRead (ino : Inum) (size : UInt64) (off : Int64) : Handler :=
  getattr ino (fun ret _ =>
    if ret ≠ .OK then reply (.err .ENOENT)
    else .call (.read ino off size []) (fun r => reply (readReply r)))

/-! ## Names -/

/-- `lookup`, the helper: the rest of the handler goes on with the status and, on success, the
entry. -/
def lookup (pnum : Inum) (fname : Str) (k : FsStatus → Option EntryParam → Handler) : Handler :=
  .call (.lookup pnum fname) (fun r =>
    if r.status ≠ .OK then k r.status none
    else
      match r.out with
      | .fnum fnum => getattr fnum (fun ret st =>
          if ret ≠ .OK then k ret none
          else k ret (some ⟨fnum, st, 0, 0, 0⟩))
      | _ => .ret .undef)

/-- `fuseserver_lookup`. -/
def fuseserverLookup (parent : Inum) (name : Str) : Handler :=
  if !isdir parent then reply (.err .ENOTDIR)
  else lookup parent name (fun ret e =>
    match ret, e with
    | .OK, some e => reply (.entry e)
    | .IOERR, _ => reply (.err .EACCES)
    | _, _ => reply (.err .ENOENT))

/-- `fuseserver_createhelper`, where `r₁` and `r₂` are drawn by `rand`: create the file or directory,
then read its attributes. -/
def createhelper (parent : Inum) (name : Str) (mode : UInt32) (isFile : Bool) (r₁ r₂ : UInt32)
    (k : FsStatus → Option EntryParam → Handler) : Handler :=
  let fnum := randomInum isFile r₁ r₂
  .call (.create parent fnum name mode) (fun r =>
    if r.status ≠ .OK then k r.status none
    else getattr fnum (fun ret st =>
      if ret ≠ .OK then k ret none
      else k ret (some ⟨fnum, st, 0, 0, 0⟩)))

/-- The reply of the handlers that create. -/
def createReply (success : EntryParam → FuseReply) : FsStatus → Option EntryParam → FuseReply
  | .OK, some e => success e
  | .EXIST, _ => .err .EEXIST
  | _, _ => .err .ENOENT

/-- The common body of `fuseserver_create`, `fuseserver_mknod` and `fuseserver_mkdir`. -/
def creating (success : EntryParam → FuseReply) (isFile : Bool) (parent : Inum) (name : Str)
    (mode : UInt32) (r₁ r₂ : UInt32) : Handler :=
  createhelper parent name mode isFile r₁ r₂ (fun ret e => reply (createReply success ret e))

/-- `fuseserver_create`. -/
def fuseserverCreate (parent : Inum) (name : Str) (mode : UInt32) (r₁ r₂ : UInt32) : Handler :=
  creating .create true parent name mode r₁ r₂

/-- `fuseserver_mknod`. -/
def fuseserverMknod (parent : Inum) (name : Str) (mode : UInt32) (r₁ r₂ : UInt32) : Handler :=
  creating .entry true parent name mode r₁ r₂

/-- `fuseserver_mkdir`. -/
def fuseserverMkdir (parent : Inum) (name : Str) (mode : UInt32) (r₁ r₂ : UInt32) : Handler :=
  creating .entry false parent name mode r₁ r₂

/-- `fuseserver_unlink`: the parent must not be a file; what the name stands for is not looked at. -/
def fuseserverUnlink (parent : Inum) (name : Str) : Handler :=
  if isfile parent then reply (.err .ENOSYS)
  else .call (.unlink parent name) (fun r =>
    match r.status with
    | .OK => reply .ok
    | .NOENT => reply (.err .ENOENT)
    | .NOACCESS => reply (.err .EACCES)
    | _ => reply (.err .ENOSYS))

/-! ## Reading the attributes -/

/-- A 32-bit size stays what it is as an `off_t`. -/
theorem toInt_size_bounds (size : UInt32) :
    0 ≤ size.toUInt64.toInt64.toInt ∧ size.toUInt64.toInt64.toInt < 2 ^ 32 := by
  have hlt := size.toNat_lt
  have hint : size.toUInt64.toInt64.toInt = size.toUInt64.toBitVec.toInt := rfl
  have hnat : size.toUInt64.toBitVec.toNat = size.toNat := by simp
  rw [hint, BitVec.toInt_eq_toNat_cond, hnat]
  omega

/-- The call of `getattr` changes no contents, and what it reports is a 32-bit size. -/
theorem attrCall_ok {cl : YfsClient} {inum : Inum} {s s' : ExtentServer} {o : Outcome FsReply}
    (h : Performs cl (attrCall inum) s o s') :
    s'.contents = s.contents ∧
      ∀ r, o = .ret r → 0 ≤ (statOf inum r.out).size.toInt ∧
        (statOf inum r.out).size.toInt < 2 ^ 32 := by
  obtain ⟨tr, h, hok⟩ := h
  unfold attrCall at h
  cases hf : isfile inum
  all_goals
    simp only [hf, if_true, Bool.false_eq_true, if_false, FsCall.prog, getfile, getdir,
      Prog.alone_withLock] at h
    obtain ⟨r₁, s₁, tr₁, hr₁, -, hs₁, rfl, h, -⟩ := alone_ec_ok h.2 hok
    rw [if_neg (fun hne => by simpa using hr₁.eq hne)] at h
    obtain ⟨-, rfl, rfl⟩ := Prog.alone_ret.1 h
    refine ⟨hs₁, ?_⟩
    rintro r hr
    cases hr
  · exact ⟨le_refl 0, show (0 : ℤ) < 2 ^ 32 by decide⟩
  · generalize (r₁.attrOr cl.stack) = a
    exact toInt_size_bounds a.size

/-! ## Running a handler -/

/-- `Handles cl s h tr o s'`: run by the client `cl` with nobody else around, the handler `h` makes the
extent calls recorded in `tr`, ends with `o` and leaves the server in `s'`.  Each call of `yfs_client`
finds its own uninitialised variables. -/
inductive Handles (cl : YfsClient) : ExtentServer → Handler → List (ExtentCall × Resp) →
    Outcome FuseReply → ExtentServer → Prop
  | ret {s : ExtentServer} (o : Outcome FuseReply) : Handles cl s (.ret o) [] o s
  | call {s s₁ s' : ExtentServer} {c : FsCall} {k : FsReply → Handler} {r : FsReply}
      {tr tr' : List (ExtentCall × Resp)} {o : Outcome FuseReply} (stack : Attr) (finum : Inum) :
      Prog.Alone serve ∅ s (c.prog { cl with stack := stack, finum := finum }) tr (.ret r) s₁ →
      Handles cl s₁ (k r) tr' o s' → Handles cl s (.call c k) (tr ++ tr') o s'
  | throw {s s' : ExtentServer} {c : FsCall} {k : FsReply → Handler}
      {tr : List (ExtentCall × Resp)} (stack : Attr) (finum : Inum) :
      Prog.Alone serve ∅ s (c.prog { cl with stack := stack, finum := finum }) tr .throw s' →
      Handles cl s (.call c k) tr .throw s'
  | undef {s s' : ExtentServer} {c : FsCall} {k : FsReply → Handler}
      {tr : List (ExtentCall × Resp)} (stack : Attr) (finum : Inum) :
      Prog.Alone serve ∅ s (c.prog { cl with stack := stack, finum := finum }) tr .undef s' →
      Handles cl s (.call c k) tr .undef s'

variable {cl : YfsClient} {s s' : ExtentServer} {tr : List (ExtentCall × Resp)}
  {o : Outcome FuseReply}

theorem handles_ret {o' : Outcome FuseReply} :
    Handles cl s (.ret o') tr o s' ↔ tr = [] ∧ o = o' ∧ s' = s := by
  constructor
  · intro h
    cases h
    exact ⟨rfl, rfl, rfl⟩
  · rintro ⟨rfl, rfl, rfl⟩
    exact .ret o

/-- The first call of a handler returns, or the handler ends with it. -/
theorem handles_call {c : FsCall} {k : FsReply → Handler} (h : Handles cl s (.call c k) tr o s') :
    ∃ stack finum tr₁ a s₁,
      Prog.Alone serve ∅ s (c.prog { cl with stack := stack, finum := finum }) tr₁ a s₁ ∧
      ((∃ r tr₂, a = .ret r ∧ tr = tr₁ ++ tr₂ ∧ Handles cl s₁ (k r) tr₂ o s') ∨
        ((∀ r, a ≠ .ret r) ∧ tr = tr₁ ∧ s' = s₁ ∧ ∀ r, o ≠ .ret r)) := by
  cases h with
  | call stack finum h h' => exact ⟨stack, finum, _, _, _, h, .inl ⟨_, _, rfl, rfl, h'⟩⟩
  | throw stack finum h => exact ⟨stack, finum, _, _, _, h, .inr ⟨by simp, rfl, rfl, by simp⟩⟩
  | undef stack finum h => exact ⟨stack, finum, _, _, _, h, .inr ⟨by simp, rfl, rfl, by simp⟩⟩

/-- None of the calls of a handler asks for a lock it holds, whatever the calls before it return. -/
def Unblocked : Handler → Prop
  | .ret _ => True
  | .acquire i _ => i.elim
  | .release i _ => i.elim
  | .call c k => (∀ cl : YfsClient, (c.prog cl).Unblocked ∅) ∧ ∀ r, Unblocked (k r)

/-- Such a handler comes to its end. -/
theorem exists_handles {h : Handler} (hu : Unblocked h) (cl : YfsClient) (s : ExtentServer) :
    ∃ tr o s', Handles cl s h tr o s' := by
  induction h generalizing s with
  | ret o => exact ⟨[], o, s, .ret o⟩
  | acquire i k ih => exact i.elim
  | release i k ih => exact i.elim
  | call c k ih =>
    obtain ⟨tr, a, s₁, hrun⟩ := Prog.exists_alone_of_unblocked serve default
      (hu.1 { cl with stack := default, finum := 0 }) s
    have hrun := Prog.alone_of_fixed default hrun
    cases a with
    | ret r =>
      obtain ⟨tr', o, s', hrest⟩ := ih r (hu.2 r) s₁
      exact ⟨_, o, s', .call default 0 hrun hrest⟩
    | throw => exact ⟨tr, _, s₁, .throw default 0 hrun⟩
    | undef => exact ⟨tr, _, s₁, .undef default 0 hrun⟩

/-- A handler that goes on after `getattr` with its reply only changes no contents. -/
theorem getattr_contents {inum : Inum} {k : FsStatus → Stat → Handler}
    (hk : ∀ ret st, ∃ o, k ret st = .ret o) (h : Handles cl s (getattr inum k) tr o s')
    (hok : Succeeds tr) : s'.contents = s.contents := by
  obtain ⟨stack, finum, tr₁, a, s₁, halone, hrest⟩ := handles_call h
  have hsub : Succeeds tr₁ := by
    rcases hrest with ⟨r, tr₂, -, rfl, -⟩ | ⟨-, rfl, -⟩
    · exact fun x hx => hok x (List.mem_append_left _ hx)
    · exact hok
  have hs₁ := (attrCall_ok ⟨tr₁, halone, hsub⟩).1
  rcases hrest with ⟨r, tr₂, -, -, hk'⟩ | ⟨-, -, rfl, -⟩
  · split_ifs at hk'
    all_goals
      obtain ⟨o', ho'⟩ := hk _ _
      rw [ho'] at hk'
      rw [(handles_ret.1 hk').2.2, hs₁]
  · exact hs₁

end Fuse
