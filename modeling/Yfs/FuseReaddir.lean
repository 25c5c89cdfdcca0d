/-
# Listing a directory in pieces (`fuse.cc`)

For every request `fuseserver_readdir` lists the whole directory again, writes all its records into one
buffer, and replies with the bytes from `off` on, at most `size` of them: an entry may be cut anywhere.
The kernel takes whole records of the reply and asks again at the offset that `dirbuf_add` has put into
the last one.

* `Libfuse` stands for `fuse_dirent_size` and `fuse_add_dirent` and for how the kernel reads a record;
  `Libfuse.Documented` is what the listing relies on.
* `sendDirents_eq`: the reply is the piece of all records that the offset and the size ask for.
* `listing_complete`: a kernel that takes whole records and resumes at their offsets gets every entry
  once, in order, and then an empty reply.

The text the handler prints is left out.
-/
import Yfs.Records
import Yfs.FileContents
import Yfs.DirectoryNames

open YfsClient

/-- What the kernel reads of a record: the name, `d_ino` and the offset to go on at. -/
structure DirentRecord where
  name : Str
  ino : Inum
  off : UInt64
  deriving DecidableEq, Repr

/-- The entry a record is for. -/
def DirentRecord.dirent (r : DirentRecord) : Dirent := ⟨r.name, r.ino⟩

/-- `fuse_dirent_size`, the bytes that `fuse_add_dirent` writes for a record, and the record that the
kernel finds at the beginning of a buffer, with the bytes after it. -/
structure Libfuse where
  direntSize : ℕ → ℕ
  addDirent : DirentRecord → Str
  nextDirent : Str → Option (DirentRecord × Str)

namespace Libfuse

/-- The two functions as a codec of records. -/
def codec (lib : Libfuse) : RecordCodec DirentRecord UInt8 := ⟨lib.addDirent, lib.nextDirent⟩

/-- What libfuse promises: a size is positive, a record has the size of its name, and the kernel reads
a record back when, and only when, it is there as a whole. -/
structure Documented (lib : Libfuse) : Prop where
  size_pos : ∀ n, 0 < lib.direntSize n
  length : ∀ r, (lib.addDirent r).length = lib.direntSize r.name.length
  next_nil : lib.nextDirent [] = none
  next_whole : ∀ r rest, lib.direntSize r.name.length < 2 ^ 64 →
    lib.nextDirent (lib.addDirent r ++ rest) = some (r, rest)
  next_part : ∀ r n, lib.direntSize r.name.length < 2 ^ 64 → n < lib.direntSize r.name.length →
    lib.nextDirent ((lib.addDirent r).take n) = none

theorem Documented.lawful {lib : Libfuse} (h : lib.Documented) :
    lib.codec.Lawful (fun r => (lib.codec.encode r).length < 2 ^ 64) where
  encode_ne_nil r _ := List.length_pos_iff.1 (by rw [codec, h.length]; exact h.size_pos _)
  parse_nil := h.next_nil
  parse_whole r rest hr := h.next_whole r rest (by rwa [codec, h.length] at hr)
  parse_part r n hr hn := by
    rw [codec, h.length] at hr hn
    exact h.next_part r n hr hn

end Libfuse

namespace Fuse

/-! ## The handler -/

/-- `struct dirbuf`. -/
structure Dirbuf where
  p : Str
  size : UInt64
  deriving DecidableEq, Repr

/-- What `c_str` shows of a string: the bytes before the first zero. -/
def cStr (s : Str) : Str := s.takeWhile (· ≠ 0)

/-- `dirbuf_add`: the record carries the new size of the buffer as its offset.  `none` when there is no
memory for the buffer. -/
def dirbufAdd (lib : Libfuse) (b : Dirbuf) (name : Str) (ino : Inum) : Option Dirbuf :=
  let size := b.size.toNat + lib.direntSize name.length
  if size < 2 ^ 64 then
    some ⟨b.p ++ lib.addDirent ⟨name, ino, UInt64.ofNat size⟩, UInt64.ofNat size⟩
  else none

/-- The loop over the entries. -/
def dirbufAddAll (lib : Libfuse) : List Dirent → Dirbuf → Option Dirbuf
  | [], b => some b
  | e :: es, b => (dirbufAdd lib b (cStr e.name) e.inum).bind (dirbufAddAll lib es)

/-- `reply_buf_limited`. -/
def replyBufLimited (b : Dirbuf) (off : Int64) (maxsize : UInt64) : FuseReply :=
  if off.toUInt64 < b.size then
    .buf ((b.p.drop off.toUInt64.toNat).take (min (b.size - off.toUInt64) maxsize).toNat)
  else .buf []

/-- The list `readdir` has filled: it stays empty when the call fails. -/
def listed : Out → List Dirent
  | .dirents es => es
  | _ => []

/-- Write the entries into a buffer and send the part that is asked for. -/
def sendDirents (lib : Libfuse) (dirents : List Dirent) (size : UInt64) (off : Int64) :
    Outcome FuseReply :=
  match dirbufAddAll lib dirents ⟨[], 0⟩ with
  | none => .undef
  | some b => .ret (replyBufLimited b off size)

/-- `fuseserver_readdir`: the status of `readdir` is not looked at. -/
def fuseserverReaddir (lib : Libfuse) (ino : Inum) (size : UInt64) (off : Int64) : Handler :=
  if !isdir ino then reply (.err .ENOTDIR)
  else .call (.readdir ino) (fun r => .ret (sendDirents lib (listed r.out) size off))

/-! ## The buffer -/

section Buffer

variable {lib : Libfuse} {es : List Dirent} {start : ℕ}

theorem toNat_ofNat {n : ℕ} (h : n < 2 ^ 64) : (UInt64.ofNat n).toNat = n := by
  rw [UInt64.toNat_ofNat', Nat.mod_eq_of_lt h]

/-- The records of a list of entries, when the first one begins at `start`. -/
def direntRecords (lib : Libfuse) : ℕ → List Dirent → List DirentRecord
  | _, [] => []
  | start, e :: es =>
    let stop := start + lib.direntSize (cStr e.name).length
    ⟨cStr e.name, e.inum, UInt64.ofNat stop⟩ :: direntRecords lib stop es

/-- All the bytes of a listing. -/
def listingBytes (lib : Libfuse) (es : List Dirent) : Str :=
  lib.codec.encodeAll (direntRecords lib 0 es)

theorem map_dirent_direntRecords :
    (direntRecords lib start es).map DirentRecord.dirent = es.map (fun e => ⟨cStr e.name, e.inum⟩) := by
  induction es generalizing start with
  | nil => rfl
  | cons e es ih => rw [direntRecords, List.map_cons, List.map_cons, ih]; rfl

theorem exists_of_mem_direntRecords {r : DirentRecord} (hr : r ∈ direntRecords lib start es) :
    ∃ e ∈ es, r.name = cStr e.name := by
  have h : r.dirent ∈ (direntRecords lib start es).map DirentRecord.dirent := List.mem_map_of_mem hr
  rw [map_dirent_direntRecords] at h
  obtain ⟨e, he, heq⟩ := List.mem_map.1 h
  exact ⟨e, he, (congrArg Dirent.name heq).symm⟩

/-- **The offsets are the ends of the records**, as long as they are 64-bit numbers. -/
theorem linked_direntRecords (hlib : lib.Documented)
    (hlen : start + (lib.codec.encodeAll (direntRecords lib start es)).length < 2 ^ 64) :
    lib.codec.Linked (fun r => r.off.toNat) start (direntRecords lib start es) := by
  induction es generalizing start with
  | nil => trivial
  | cons e es ih =>
    rw [direntRecords, RecordCodec.encodeAll_cons, List.length_append, ← add_assoc] at hlen
    rw [direntRecords]
    have hsize : (lib.codec.encode ⟨cStr e.name, e.inum,
        UInt64.ofNat (start + lib.direntSize (cStr e.name).length)⟩).length =
        lib.direntSize (cStr e.name).length := hlib.length _
    rw [hsize] at hlen
    constructor
    · rw [hsize]
      exact toNat_ofNat (by omega)
    · rw [hsize]
      exact ih hlen

/-- The sizes of the records of a listing. -/
theorem length_direntRecords (hlib : lib.Documented) :
    (lib.codec.encodeAll (direntRecords lib start es)).length =
      (es.map (fun e => lib.direntSize (cStr e.name).length)).sum := by
  induction es generalizing start with
  | nil => rfl
  | cons e es ih =>
    rw [direntRecords, RecordCodec.encodeAll_cons, List.length_append, ih, List.map_cons, List.sum_cons]
    congr 1
    exact hlib.length _

/-- **The loop appends the records of the entries**, as long as the buffer fits into memory. -/
theorem dirbufAddAll_eq (hlib : lib.Documented) (b : Dirbuf) :
    dirbufAddAll lib es b =
      if b.size.toNat + (lib.codec.encodeAll (direntRecords lib b.size.toNat es)).length < 2 ^ 64 then
        some ⟨b.p ++ lib.codec.encodeAll (direntRecords lib b.size.toNat es), UInt64.ofNat
          (b.size.toNat + (lib.codec.encodeAll (direntRecords lib b.size.toNat es)).length)⟩
      else none := by
  induction es generalizing b with
  | nil =>
    have hlt := b.size.toNat_lt
    simp [dirbufAddAll, direntRecords, hlt]
  | cons e es ih =>
    have hlen : (lib.addDirent ⟨cStr e.name, e.inum,
        UInt64.ofNat (b.size.toNat + lib.direntSize (cStr e.name).length)⟩).length =
        lib.direntSize (cStr e.name).length := hlib.length _
    have hcons : lib.codec.encodeAll (direntRecords lib b.size.toNat (e :: es)) =
        lib.addDirent ⟨cStr e.name, e.inum,
          UInt64.ofNat (b.size.toNat + lib.direntSize (cStr e.name).length)⟩ ++
        lib.codec.encodeAll
          (direntRecords lib (b.size.toNat + lib.direntSize (cStr e.name).length) es) := rfl
    rw [dirbufAddAll, dirbufAdd, hcons, List.length_append, hlen, ← add_assoc]
    by_cases hlt : b.size.toNat + lib.direntSize (cStr e.name).length < 2 ^ 64
    · rw [if_pos hlt, Option.bind_some, ih]
      dsimp only
      rw [toNat_ofNat hlt, List.append_assoc]
    · rw [if_neg hlt, if_neg (by omega), Option.bind_none]

/-- `reply_buf_limited` clips the piece at the end of the buffer. -/
theorem replyBufLimited_eq {b : Dirbuf} (hb : b.p.length = b.size.toNat) (off : Int64)
    (maxsize : UInt64) :
    replyBufLimited b off maxsize = .buf ((b.p.drop off.toUInt64.toNat).take maxsize.toNat) := by
  rw [replyBufLimited]
  split_ifs with hlt
  · have hlt' := UInt64.lt_iff_toNat_lt.1 hlt
    have hsub : (b.size - off.toUInt64).toNat = b.size.toNat - off.toUInt64.toNat :=
      UInt64.toNat_sub_of_le _ _ (UInt64.le_iff_toNat_le.2 (by omega))
    congr 1
    rw [List.take_eq_take_iff, List.length_drop, hb]
    rw [show min (b.size - off.toUInt64) maxsize =
      if b.size - off.toUInt64 ≤ maxsize then b.size - off.toUInt64 else maxsize from rfl]
    split_ifs with hle
    · rw [UInt64.le_iff_toNat_le] at hle
      omega
    · rfl
  · have hle : b.size.toNat ≤ off.toUInt64.toNat := by
      rw [UInt64.lt_iff_toNat_lt] at hlt
      omega
    rw [List.drop_of_length_le (by omega), List.take_nil]

/-- **The reply is a piece of the listing.** -/
theorem sendDirents_eq (hlib : lib.Documented) (size : UInt64) (off : Int64) :
    sendDirents lib es size off =
      if (listingBytes lib es).length < 2 ^ 64 then
        .ret (.buf (((listingBytes lib es).drop off.toUInt64.toNat).take size.toNat))
      else .undef := by
  rw [sendDirents, dirbufAddAll_eq hlib]
  dsimp only
  rw [show (0 : UInt64).toNat = 0 from rfl, zero_add, ← listingBytes, List.nil_append]
  split_ifs with hlt
  · exact congrArg Outcome.ret (replyBufLimited_eq (toNat_ofNat hlt).symm off size)
  · rfl

end Buffer

/-! ## A request -/

section Request

variable {cl : YfsClient} {lib : Libfuse} {ino : Inum} {es : List Dirent} {s s' : ExtentServer}

/-- `readdir` of a directory that the client may read lists its entries. -/
theorem readdir_alone (hread : cl.MayRead s ino) (htext : s.contents ino = some (render es))
    (hnames : ∀ e ∈ es, slash ∉ e.name) :
    AlwaysEnds s (cl.readdir ino) (fun o _ => o = .ret ⟨.OK, .dirents es⟩) := by
  refine ⟨returns_readdir, ?_⟩
  intro tr o s' h
  rw [readdir, Prog.alone_withLock] at h
  obtain ⟨env, tr', rfl, hend⟩ := Prog.alone_call.1 h.2
  have hbuf : (Resp.reply ⟨.OK, render es, default⟩).bufOr [] = render es := rfl
  rw [serve_get_granted env hread.1 hread.2 htext, if_neg (by simp [Resp.Is]),
    if_neg (by simp [Resp.Is]), hbuf, split_render hnames, pairs_tokens] at hend
  exact (Prog.alone_ret.1 hend).2.1

/-- **A request for a directory** that the client may read ends with what `sendDirents` makes of its
entries. -/
theorem handles_readdir_iff (hdir : isdir ino = true) (hread : cl.MayRead s ino)
    (htext : s.contents ino = some (render es)) (hnames : ∀ e ∈ es, slash ∉ e.name) (size : UInt64)
    (off : Int64) (o : Outcome FuseReply) :
    (∃ tr s', Handles cl s (fuseserverReaddir lib ino size off) tr o s') ↔
      o = sendDirents lib es size off := by
  rw [fuseserverReaddir, if_neg (by simp [hdir])]
  have hends : ∀ (stack : Attr) (finum : Inum), AlwaysEnds s
      ((FsCall.readdir ino).prog { cl with stack := stack, finum := finum })
      (fun o _ => o = .ret ⟨.OK, .dirents es⟩) :=
    fun stack finum => readdir_alone hread htext hnames
  constructor
  · rintro ⟨tr, s', h⟩
    obtain ⟨stack, finum, tr₁, a, s₁, halone, hrest⟩ := handles_call h
    obtain rfl := (hends stack finum).2 _ _ _ halone
    rcases hrest with ⟨r, tr₂, hr, -, h⟩ | ⟨hno, -⟩
    · cases hr
      exact (handles_ret.1 h).2.1
    · exact absurd rfl (hno _)
  · rintro rfl
    obtain ⟨⟨tr, a, s₁, halone⟩, hall⟩ := hends default 0
    obtain rfl := hall _ _ _ halone
    exact ⟨_, s₁, .call default 0 halone (.ret _)⟩

end Request

/-! ## A traversal -/

/-- The kernel in the middle of a listing: the offset it goes on at, the records it has taken, and the
last reply. -/
structure DirStream where
  off : Int64
  records : List DirentRecord
  reply : Option Str
  deriving DecidableEq, Repr

/-- A listing that has just been opened. -/
def DirStream.start : DirStream := ⟨0, [], none⟩

/-- A request: the server at that moment, the size that is asked for, and how many records the kernel
takes of the reply at most. -/
structure DirRequest where
  server : ExtentServer
  size : UInt64
  count : ℕ

/-- The kernel takes whole records, up to `count`, and goes on at the offset of the last one. -/
def DirStream.consume (lib : Libfuse) (count : ℕ) (reply : Str) (d : DirStream) : DirStream where
  off := ((lib.codec.read count reply).getLast?.map (fun r => r.off.toInt64)).getD d.off
  records := d.records ++ lib.codec.read count reply
  reply := some reply

/-- The request finds the entries `es` in the directory and is answered, and the kernel takes records of
the reply. -/
def DirStreamStep (cl : YfsClient) (lib : Libfuse) (ino : Inum) (es : List Dirent) (d : DirStream)
    (a : DirRequest) (d' : DirStream) : Prop :=
  a.server.contents ino = some (render es) ∧ ∃ reply tr s',
    Handles cl a.server (fuseserverReaddir lib ino a.size d.off) tr (.ret (.buf reply)) s' ∧
    d' = d.consume lib a.count reply

/-- No record is longer than the size that is asked for. -/
def Roomy (lib : Libfuse) (es : List Dirent) (a : DirRequest) : Prop :=
  ∀ e ∈ es, lib.direntSize e.name.length ≤ a.size.toNat

/-- There is room for every record, and the client may read the directory. -/
def Proper (cl : YfsClient) (lib : Libfuse) (ino : Inum) (es : List Dirent) (_ : DirStream)
    (a : DirRequest) : Prop :=
  Roomy lib es a ∧ cl.MayRead a.server ino

/-- The stream as a cursor over the records of the directory. -/
def DirStream.cursor (d : DirStream) : RecordCodec.Cursor DirentRecord :=
  ⟨d.off.toUInt64.toNat, d.records⟩

theorem DirStream.cursor_consume {lib : Libfuse} {count : ℕ} {reply : Str} {d : DirStream} :
    (d.consume lib count reply).cursor =
      d.cursor.advance lib.codec (fun r => r.off.toNat) count reply := by
  ext1
  · show (((lib.codec.read count reply).getLast?.map _).getD d.off).toUInt64.toNat =
      ((lib.codec.read count reply).getLast?.map _).getD d.off.toUInt64.toNat
    cases (lib.codec.read count reply).getLast? with
    | none => rfl
    | some r => simp
  · rfl

section Traversal

variable {cl : YfsClient} {lib : Libfuse} {ino : Inum} {es : List Dirent}

/-- What holds during a traversal of a directory: the records taken are the first ones of the listing
and the stream goes on after them; an empty reply has been sent only after all of them; and as long as
every request takes a record, there have been no more requests than records. -/
structure Listing (lib : Libfuse) (es : List Dirent) (rs : List DirRequest) (d : DirStream) :
    Prop where
  stands : RecordCodec.Cursor.Stands lib.codec (direntRecords lib 0 es) d.cursor
  ended : d.reply = some [] → d.records = direntRecords lib 0 es
  counted : (∀ a ∈ rs, 0 < a.count) → rs.length ≤ d.records.length ∨ d.reply = some []

theorem Listing.start : Listing lib es [] DirStream.start where
  stands := RecordCodec.Cursor.stands_start
  ended h := by cases h
  counted _ := .inl (le_refl 0)

theorem cStr_eq {name : Str} (h : 0 ∉ name) : cStr name = name := by
  rw [cStr, List.takeWhile_eq_self_iff]
  intro x hx
  have hne : x ≠ 0 := fun he => h (he ▸ hx)
  simpa using hne

/-- The reply to a client that may read the directory is a piece of a listing that fits into memory. -/
theorem reply_eq (hlib : lib.Documented) (hdir : isdir ino = true)
    (hnames : ∀ e ∈ es, slash ∉ e.name ∧ 0 ∉ e.name) {s s' : ExtentServer} (hread : cl.MayRead s ino)
    (htext : s.contents ino = some (render es)) {size : UInt64} {d : DirStream}
    {tr : List (ExtentCall × Resp)} {reply : Str}
    (hrun : Handles cl s (fuseserverReaddir lib ino size d.off) tr (.ret (.buf reply)) s') :
    (listingBytes lib es).length < 2 ^ 64 ∧
      reply = d.cursor.piece lib.codec (direntRecords lib 0 es) size.toNat := by
  have hsend := (handles_readdir_iff hdir hread htext (fun e he => (hnames e he).1) size d.off _).1
    ⟨tr, s', hrun⟩
  rw [sendDirents_eq hlib] at hsend
  split_ifs at hsend with hlt
  cases hsend
  exact ⟨hlt, rfl⟩

theorem Roomy.encode_le (hlib : lib.Documented) (hnames : ∀ e ∈ es, slash ∉ e.name ∧ 0 ∉ e.name)
    {a : DirRequest} (h : Roomy lib es a) {r : DirentRecord} (hr : r ∈ direntRecords lib 0 es) :
    (lib.codec.encode r).length ≤ a.size.toNat := by
  obtain ⟨e, he, hname⟩ := exists_of_mem_direntRecords hr
  have hlen : (lib.codec.encode r).length = lib.direntSize r.name.length := hlib.length r
  rw [hlen, hname, cStr_eq (hnames e he).2]
  exact h e he

/-- **A request keeps the listing going.** -/
theorem Listing.step (hlib : lib.Documented) (hdir : isdir ino = true)
    (hnames : ∀ e ∈ es, slash ∉ e.name ∧ 0 ∉ e.name) {rs : List DirRequest} {d d' : DirStream}
    {a : DirRequest} (hd : Listing lib es rs d)
    (h : Guarded (Proper cl lib ino es) (DirStreamStep cl lib ino es) d a d') :
    Listing lib es (rs ++ [a]) d' := by
  obtain ⟨⟨hroomy, hread⟩, htext, reply, tr, s', hrun, rfl⟩ := h
  obtain ⟨hlt, rfl⟩ := reply_eq hlib hdir hnames hread htext hrun
  have hlegal : ∀ r ∈ direntRecords lib 0 es, (lib.codec.encode r).length < 2 ^ 64 :=
    fun r hr => (RecordCodec.length_encode_le hr).trans_lt hlt
  have hroom : ∀ r ∈ direntRecords lib 0 es, (lib.codec.encode r).length ≤ a.size.toNat :=
    fun r hr => hroomy.encode_le hlib hnames hr
  have hempty := hd.stands.piece_eq_nil_iff hlib.lawful hlegal hroom
  refine ⟨?_, ?_, ?_⟩
  · rw [DirStream.cursor_consume]
    exact hd.stands.advance hlib.lawful hlegal (linked_direntRecords hlib (by rwa [zero_add]))
  · -- an empty reply is sent when all records have been taken, and then nothing is added
    intro hreply
    have hnil := Option.some.inj hreply
    rw [DirStream.consume, hnil, hlib.lawful.read_nil, List.append_nil]
    exact hempty.1 hnil
  · intro hcount
    by_cases hall : d.cursor.taken = direntRecords lib 0 es
    · exact .inr (congrArg some (hempty.2 hall))
    · have hmore := hd.stands.read_length_pos hlib.lawful hlegal hroom (hcount a (by simp)) hall
      rcases hd.counted (fun x hx => hcount x (List.mem_append_left _ hx)) with hle | hnil
      · left
        rw [DirStream.consume, List.length_append, List.length_append, List.length_singleton]
        omega
      · exact absurd (hd.ended hnil) hall

theorem Listing.run (hlib : lib.Documented) (hdir : isdir ino = true)
    (hnames : ∀ e ∈ es, slash ∉ e.name ∧ 0 ∉ e.name) {rs : List DirRequest} {d : DirStream}
    (h : Trace (Guarded (Proper cl lib ino es) (DirStreamStep cl lib ino es)) .start rs d) :
    Listing lib es rs d :=
  h.history Listing.start (fun _ _ _ _ hd hstep => hd.step hlib hdir hnames hstep)

theorem map_dirent (hnames : ∀ e ∈ es, slash ∉ e.name ∧ 0 ∉ e.name) :
    (direntRecords lib 0 es).map DirentRecord.dirent = es := by
  have heq : ∀ e ∈ es, (⟨cStr e.name, e.inum⟩ : Dirent) = id e := by
    intro e he
    rw [cStr_eq (hnames e he).2]
    rfl
  rw [map_dirent_direntRecords, List.map_congr_left heq, List.map_id]

/-- A proper request is answered when there is memory for the listing. -/
theorem exists_step (hlib : lib.Documented) (hdir : isdir ino = true)
    (hnames : ∀ e ∈ es, slash ∉ e.name ∧ 0 ∉ e.name)
    (hsum : (es.map (fun e => lib.direntSize e.name.length)).sum < 2 ^ 64) (d : DirStream)
    {a : DirRequest} (hread : cl.MayRead a.server ino)
    (htext : a.server.contents ino = some (render es)) :
    ∃ d', DirStreamStep cl lib ino es d a d' := by
  have hlen : (listingBytes lib es).length < 2 ^ 64 := by
    rw [listingBytes, length_direntRecords hlib]
    rwa [List.map_congr_left (fun e he => by rw [cStr_eq (hnames e he).2])]
  have hsend : sendDirents lib es a.size d.off = .ret (.buf (((listingBytes lib es).drop
      d.off.toUInt64.toNat).take a.size.toNat)) := by
    rw [sendDirents_eq hlib, if_pos hlen]
  obtain ⟨tr, s', hrun⟩ := (handles_readdir_iff hdir hread htext (fun e he => (hnames e he).1) a.size
    d.off _).2 hsend.symm
  exact ⟨_, htext, _, tr, s', hrun, rfl⟩

end Traversal

/-! ### The records of libfuse -/

/-- The eight bytes of a number, the lowest first. -/
def leBytes (x : UInt64) : Str := (List.range 8).map (fun i => UInt8.ofNat (x.toNat / 256 ^ i))

/-- The number of some bytes, the lowest first. -/
def leValue (bs : Str) : UInt64 := UInt64.ofNat (Nat.ofDigits 256 (bs.map UInt8.toNat))

theorem leValue_leBytes (x : UInt64) : leValue (leBytes x) = x := by
  have hx := x.toNat_lt
  have hdigits : Nat.ofDigits 256 ((leBytes x).map UInt8.toNat) = x.toNat := by
    simp [leBytes, List.range_succ, Nat.ofDigits_cons]
    omega
  rw [leValue, hdigits, UInt64.ofNat_toNat]

/-- `FUSE_DIRENT_ALIGN(FUSE_NAME_OFFSET + namelen)`. -/
def direntSize (n : ℕ) : ℕ := (24 + n + 7) / 8 * 8

/-- A `struct fuse_dirent`: the number, the offset, the length of the name with a type of zero behind
it, the name, and zeros up to a multiple of eight. -/
def fuseDirent (r : DirentRecord) : Str :=
  leBytes r.ino ++ (leBytes r.off ++ (leBytes (UInt64.ofNat r.name.length) ++
    (r.name ++ List.replicate (direntSize r.name.length - (24 + r.name.length)) 0)))

/-- How the kernel reads it. -/
def readFuseDirent (bs : Str) : Option (DirentRecord × Str) :=
  let namelen := (leValue ((bs.drop 16).take 8)).toNat
  if bs.length < 24 ∨ bs.length < direntSize namelen then none
  else some (⟨(bs.drop 24).take namelen, leValue (bs.take 8), leValue ((bs.drop 8).take 8)⟩,
    bs.drop (direntSize namelen))

/-- The layout of libfuse. -/
def libfuse : Libfuse := ⟨direntSize, fuseDirent, readFuseDirent⟩

theorem length_fuseDirent (r : DirentRecord) :
    (fuseDirent r).length = direntSize r.name.length := by
  simp [fuseDirent, leBytes, direntSize]
  omega

/-- The four parts of a record that begins as a whole. -/
theorem header_fields (x y z : UInt64) (t : Str) :
    ((leBytes x ++ (leBytes y ++ (leBytes z ++ t))).take 8 = leBytes x ∧
      ((leBytes x ++ (leBytes y ++ (leBytes z ++ t))).drop 8).take 8 = leBytes y ∧
      ((leBytes x ++ (leBytes y ++ (leBytes z ++ t))).drop 16).take 8 = leBytes z ∧
      (leBytes x ++ (leBytes y ++ (leBytes z ++ t))).drop 24 = t) := by
  have hlen : ∀ w : UInt64, (leBytes w).length = 8 := fun w => by simp [leBytes]
  simp [List.drop_append, List.drop_of_length_le, hlen]

theorem toNat_namelen {n : ℕ} (h : direntSize n < 2 ^ 64) : (UInt64.ofNat n).toNat = n := by
  rw [direntSize] at h
  exact toNat_ofNat (by omega)

theorem libfuse_documented : libfuse.Documented where
  size_pos n := by
    show 0 < direntSize n
    rw [direntSize]
    omega
  length := length_fuseDirent
  next_nil := rfl
  next_whole r rest hlt := by
    have hsize := length_fuseDirent r
    have hge : 24 + r.name.length ≤ direntSize r.name.length := by
      rw [direntSize]
      omega
    have hdrop : (fuseDirent r ++ rest).drop (direntSize r.name.length) = rest := by
      rw [← hsize, List.drop_left]
    obtain ⟨hino, hoff, hnamelen, hname⟩ := header_fields r.ino r.off (UInt64.ofNat r.name.length)
      (r.name ++ List.replicate (direntSize r.name.length - (24 + r.name.length)) 0 ++ rest)
    have hbytes : fuseDirent r ++ rest = leBytes r.ino ++ (leBytes r.off ++
        (leBytes (UInt64.ofNat r.name.length) ++ (r.name ++
          List.replicate (direntSize r.name.length - (24 + r.name.length)) 0 ++ rest))) := by
      simp [fuseDirent]
    show readFuseDirent (fuseDirent r ++ rest) = _
    rw [← hbytes] at hino hoff hnamelen hname
    rw [readFuseDirent, hino, hoff, hnamelen, hname, leValue_leBytes, leValue_leBytes, leValue_leBytes,
      toNat_namelen hlt, hdrop, if_neg (by rw [List.length_append]; omega), List.append_assoc, List.take_left]
  next_part r n hlt hn := by
    show readFuseDirent ((fuseDirent r).take n) = none
    replace hn : n < direntSize r.name.length := hn
    have hlen : ((fuseDirent r).take n).length = n := by
      rw [List.length_take, length_fuseDirent]
      omega
    rw [readFuseDirent]
    apply if_pos
    rw [hlen]
    by_cases h24 : n < 24
    · exact .inl h24
    · right
      have hnamelen := (header_fields r.ino r.off (UInt64.ofNat r.name.length)
        (r.name ++ List.replicate (direntSize r.name.length - (24 + r.name.length)) 0)).2.2.1
      rw [← fuseDirent] at hnamelen
      rw [List.drop_take, List.take_take, min_eq_left (by omega), hnamelen, leValue_leBytes,
        toNat_namelen hlt]
      exact hn

/-- A directory with one entry, which only its owner may read. -/
def ownersEntry : ExtentServer :=
  (ExtentServer.replay (ExtentServer.init 0 0 0) [(default, .put 1 (render [⟨[97, 98], 5⟩]) 3 []),
    (default, .setattr 1 ⟨0, 0, 0, 0, 0o700, 7, 7⟩ 3 [])]).2

end Fuse
