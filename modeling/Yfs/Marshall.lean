/-
# Marshalling (`rpc/marshall.h`, `rpc/rpc.cc`)

`marshall` appends the bytes of values to a buffer that grows, behind the space kept for the header;
`unmarshall` reads them back.

* The memory behind `_buf` is a function from indices to bytes, so that `malloc` and `realloc` may
  leave anything in the bytes that have not been written.  A `Put` fails (`none`) when a capacity
  does not fit in an `int` or a byte would be stored beyond the capacity.
* An `unmarshall` holds the `_sz` bytes of its buffer; `_sz` is an `int`.  A `Get` fails when it
  reads beyond them.  A value that is read goes into a fresh variable.
* A `char` is signed: `rawbyte` extends its sign to an `unsigned int`.
* Checksums are compiled out.

`Writes` and `Reads` say what a `Put` stores and what a `Get` makes of stored bytes; both compose.
-/
import Yfs.ExtentServer
import Yfs.NetworkOrder
import Yfs.OrderedMap

open NetworkOrder

/-- `RPC_HEADER_SZ`: the larger of the two headers and the four bytes for the size of the PDU. -/
def rpcHeaderSz : ℕ := 24

/-- `DEFAULT_RPC_SZ`. -/
def defaultRpcSz : ℕ := 1024

/-- `req_header`. -/
structure ReqHeader where
  xid : Int32
  proc : Int32
  cltNonce : UInt32
  srvNonce : UInt32
  xidRep : Int32
  deriving DecidableEq, Repr

/-- `reply_header`. -/
structure ReplyHeader where
  xid : Int32
  ret : Int32
  deriving DecidableEq, Repr

/-! ## Writing -/

/-- A `marshall`: the memory behind `_buf`, `_capa` and `_ind`. -/
structure Marshall where
  buf : ℕ → UInt8
  capa : ℕ
  ind : ℕ

/-- An operation on a `marshall`. -/
abbrev Put := Marshall → Option Marshall

namespace Marshall

/-- The memory after the bytes `bs` have been stored from `pos` on. -/
def store (buf : ℕ → UInt8) (pos : ℕ) (bs : List UInt8) (i : ℕ) : UInt8 :=
  if pos ≤ i then bs[i - pos]?.getD (buf i) else buf i

/-- The constructor; `buf` is what `malloc` has left in the memory. -/
def init (buf : ℕ → UInt8) : Marshall := ⟨buf, defaultRpcSz, rpcHeaderSz⟩

/-- `rawbyte`. -/
def rawbyte (x : UInt8) : Put := fun m =>
  let capa := if m.capa ≤ m.ind then m.capa * 2 else m.capa
  if capa < 2 ^ 31 ∧ m.ind < capa then some ⟨store m.buf m.ind [x], capa, m.ind + 1⟩ else none

/-- `rawbytes(p, n)`. -/
def rawbytes (p : List UInt8) (n : Int32) : Put := fun m =>
  if 0 ≤ n.toInt ∧ n.toInt.toNat ≤ p.length then
    let n := n.toInt.toNat
    let capa := if m.capa < m.ind + n then (if n < m.capa then 2 * m.capa else m.capa + n) else m.capa
    if capa < 2 ^ 31 ∧ m.ind + n ≤ capa then
      some ⟨store m.buf m.ind (p.take n), capa, m.ind + n⟩
    else none
  else none

/-- `operator<<` of an `unsigned char`. -/
def putUChar (x : UInt8) : Put := rawbyte x

/-- `operator<<` of a `bool`. -/
def putBool (x : Bool) : Put := rawbyte x.toUInt8

/-- `operator<<` of a `char`. -/
def putChar (x : Int8) : Put := putUChar x.toUInt8

/-- `operator<<` of an `unsigned short`. -/
def putUShort (x : UInt16) : Put :=
  rawbyte (x >>> 8 &&& 0xff).toUInt8 >=> rawbyte (x &&& 0xff).toUInt8

/-- `operator<<` of a `short`. -/
def putShort (x : Int16) : Put := putUShort x.toUInt16

/-- `operator<<` of an `unsigned int`. -/
def putUInt (x : UInt32) : Put :=
  rawbyte (x >>> 24 &&& 0xff).toUInt8 >=> rawbyte (x >>> 16 &&& 0xff).toUInt8 >=>
    rawbyte (x >>> 8 &&& 0xff).toUInt8 >=> rawbyte (x &&& 0xff).toUInt8

/-- `operator<<` of an `int`. -/
def putInt (x : Int32) : Put := putUInt x.toUInt32

/-- `operator<<` of a `std::string`. -/
def putString (s : Str) : Put :=
  putUInt (UInt32.ofNat s.length) >=> rawbytes s (Int32.ofNat s.length)

/-- `operator<<` of an `unsigned long long`. -/
def putULongLong (x : UInt64) : Put := putUInt (x >>> 32).toUInt32 >=> putUInt x.toUInt32

/-- `operator<<` of an `extent_protocol::attr`. -/
def putAttr (a : Attr) : Put :=
  putUInt a.atime >=> putUInt a.mtime >=> putUInt a.ctime >=> putUInt a.size >=> putUInt a.mode >=>
    putUInt a.uid >=> putUInt a.gid

/-- The operations of a loop, one after another. -/
def putAll : List Put → Put
  | [] => some
  | p :: ps => p >=> putAll ps

/-- `operator<<` of a `std::vector`, with `operator<<` of its items. -/
def putVector {α : Type} (put : α → Put) (v : List α) : Put :=
  putUInt (UInt32.ofNat v.length) >=> putAll (v.map put)

/-- `operator<<` of a `std::map`. -/
def putMap {α β : Type} [LinearOrder α] (putKey : α → Put) (put : β → Put) (d : OrderedMap α β) :
    Put :=
  putUInt (UInt32.ofNat d.pairs.length) >=>
    putAll (d.pairs.map (fun x => putKey x.1 >=> put x.2))

/-- `pack`: the shifts of an `int` keep its sign. -/
def pack (x : Int32) : Put :=
  rawbyte (x >>> 24 &&& 0xff).toUInt32.toUInt8 >=> rawbyte (x >>> 16 &&& 0xff).toUInt32.toUInt8 >=>
    rawbyte (x >>> 8 &&& 0xff).toUInt32.toUInt8 >=> rawbyte (x &&& 0xff).toUInt32.toUInt8

/-- Write into the space of the header: `_ind` is set behind the size of the PDU and restored at the
end. -/
def packHeader (p : Put) : Put := fun m =>
  (p { m with ind := 4 }).map (fun m' => { m' with ind := m.ind })

/-- `pack_req_header`. -/
def packReqHeader (h : ReqHeader) : Put :=
  packHeader (pack h.xid >=> pack h.proc >=> pack h.cltNonce.toInt32 >=> pack h.srvNonce.toInt32 >=>
    pack h.xidRep)

/-- `pack_reply_header`. -/
def packReplyHeader (h : ReplyHeader) : Put := packHeader (pack h.xid >=> pack h.ret)

/-- The `n` bytes of the memory from `pos` on. -/
def slice (buf : ℕ → UInt8) (pos n : ℕ) : List UInt8 := (List.range n).map (fun i => buf (pos + i))

/-- What `take_buf` hands over: the first `_ind` bytes. -/
def takeBuf (m : Marshall) : List UInt8 := slice m.buf 0 m.ind

end Marshall

/-! ## Reading -/

/-- An `unmarshall`: the `_sz` bytes behind `_buf`, `_ind` and `_ok`. -/
structure Unmarshall where
  buf : List UInt8
  ind : ℕ
  ok : Bool
  deriving DecidableEq, Repr

/-- An operation on an `unmarshall` that reads a value. -/
abbrev Get (α : Type) := StateT Unmarshall Option α

namespace Unmarshall

/-- `unmarshall(b, sz)`. -/
def ofBuf (b : List UInt8) : Unmarshall := ⟨b, 0, true⟩

/-- `take_in(another)`, on any `unmarshall`. -/
def takeIn (another : Unmarshall) : Unmarshall :=
  ⟨another.buf, rpcHeaderSz, decide (rpcHeaderSz ≤ another.buf.length)⟩

/-- `okdone`. -/
def okdone (u : Unmarshall) : Bool := u.ok && u.ind == u.buf.length

/-- `rawbyte`. -/
def rawbyte : Get UInt32 := fun u =>
  if u.buf.length ≤ u.ind then some (0, { u with ok := false })
  else some ((u.buf.getD u.ind 0).toInt8.toInt32.toUInt32, { u with ind := u.ind + 1 })

/-- `rawbytes(ss, n)`, where `ss` holds `old`: `_ind + n` is computed in an `unsigned int`. -/
def rawbytes (old : Str) (n : UInt32) : Get Str := fun u =>
  if u.buf.length < (UInt32.ofNat u.ind + n).toNat then some (old, { u with ok := false })
  else if u.ind + n.toNat ≤ u.buf.length then
    some ((u.buf.drop u.ind).take n.toNat, { u with ind := u.ind + n.toNat })
  else none

/-- `operator>>` of a `bool`. -/
def getBool : Get Bool := do
  let c ← rawbyte
  return c != 0

/-- `operator>>` of an `unsigned char`. -/
def getUChar : Get UInt8 := do
  let c ← rawbyte
  return c.toUInt8

/-- `operator>>` of a `char`. -/
def getChar : Get Int8 := do
  let c ← rawbyte
  return c.toUInt8.toInt8

/-- `operator>>` of an `unsigned short`. -/
def getUShort : Get UInt16 := do
  let a ← rawbyte
  let b ← rawbyte
  let x := ((a &&& 0xff) <<< 8).toUInt16
  return (x.toUInt32 ||| (b &&& 0xff)).toUInt16

/-- `operator>>` of a `short`. -/
def getShort : Get Int16 := do
  let a ← rawbyte
  let b ← rawbyte
  let x := ((a &&& 0xff) <<< 8).toUInt16.toInt16
  return (x.toInt32.toUInt32 ||| (b &&& 0xff)).toUInt16.toInt16

/-- `operator>>` of an `unsigned int`. -/
def getUInt : Get UInt32 := do
  let a ← rawbyte
  let b ← rawbyte
  let c ← rawbyte
  let d ← rawbyte
  return ((a &&& 0xff) <<< 24) ||| ((b &&& 0xff) <<< 16) ||| ((c &&& 0xff) <<< 8) ||| (d &&& 0xff)

/-- `unpack`: the bits are collected in an `int`. -/
def unpack : Get Int32 := do
  let a ← rawbyte
  let b ← rawbyte
  let c ← rawbyte
  let d ← rawbyte
  let x := ((a &&& 0xff) <<< 24).toInt32
  let x := (x.toUInt32 ||| ((b &&& 0xff) <<< 16)).toInt32
  let x := (x.toUInt32 ||| ((c &&& 0xff) <<< 8)).toInt32
  return (x.toUInt32 ||| (d &&& 0xff)).toInt32

/-- `operator>>` of an `int`, which has the body of `unpack`. -/
def getInt : Get Int32 := unpack

/-- `operator>>` of an `unsigned long long`. -/
def getULongLong : Get UInt64 := do
  let h ← getUInt
  let l ← getUInt
  return l.toUInt64 ||| (h.toUInt64 <<< 32)

/-- `operator>>` of a `std::string`. -/
def getString : Get Str := do
  let sz ← getUInt
  let u ← get
  if u.ok then rawbytes [] sz else return []

/-- `operator>>` of an `extent_protocol::attr`. -/
def getAttr : Get Attr := do
  let atime ← getUInt
  let mtime ← getUInt
  let ctime ← getUInt
  let size ← getUInt
  let mode ← getUInt
  let uid ← getUInt
  let gid ← getUInt
  return ⟨atime, mtime, ctime, size, mode, uid, gid⟩

/-- The loop of `operator>>` of a `std::vector`: `n` items are appended to `v`. -/
def getItems {α : Type} (item : Get α) : ℕ → List α → Get (List α)
  | 0, v => return v
  | n + 1, v => do
    let z ← item
    getItems item n (v ++ [z])

/-- `operator>>` of a `std::vector`, with `operator>>` of its items. -/
def getVector {α : Type} (item : Get α) : Get (List α) := do
  let n ← getUInt
  getItems item n.toNat []

/-- The loop of `operator>>` of a `std::map`: `n` times `d[a] = b`. -/
def getPairs {α β : Type} [LinearOrder α] (key : Get α) (item : Get β) :
    ℕ → OrderedMap α β → Get (OrderedMap α β)
  | 0, d => return d
  | n + 1, d => do
    let a ← key
    let b ← item
    getPairs key item n (d.insertOrAssign a b)

/-- `operator>>` of a `std::map`. -/
def getMap {α β : Type} [LinearOrder α] (key : Get α) (item : Get β) : Get (OrderedMap α β) := do
  let n ← getUInt
  getPairs key item n.toNat OrderedMap.empty

/-- Read from the space of the header: behind the size of the PDU first, at the end `_ind` is set to
the first value. -/
def unpackHeader {α : Type} (g : Get α) : Get α := do
  modify (fun u => { u with ind := 4 })
  let h ← g
  modify (fun u => { u with ind := rpcHeaderSz })
  return h

/-- `unpack_req_header`. -/
def unpackReqHeader : Get ReqHeader := unpackHeader do
  let xid ← unpack
  let proc ← unpack
  let cltNonce ← unpack
  let srvNonce ← unpack
  let xidRep ← unpack
  return ⟨xid, proc, cltNonce.toUInt32, srvNonce.toUInt32, xidRep⟩

/-- `unpack_reply_header`. -/
def unpackReplyHeader : Get ReplyHeader := unpackHeader do
  let xid ← unpack
  let ret ← unpack
  return ⟨xid, ret⟩

end Unmarshall

/-! ## What is stored -/

namespace Marshall

variable {buf : ℕ → UInt8} {pos n : ℕ} {bs bs' : List UInt8}

theorem store_append (buf : ℕ → UInt8) (pos : ℕ) (bs bs' : List UInt8) :
    store (store buf pos bs) (pos + bs.length) bs' = store buf pos (bs ++ bs') := by
  funext i
  unfold store
  by_cases hlow : pos ≤ i
  · by_cases hhigh : pos + bs.length ≤ i
    · rw [if_pos hhigh, if_pos hlow, if_pos hlow, List.getElem?_append_right (by omega),
        List.getElem?_eq_none (show bs.length ≤ i - pos by omega), Option.getD_none,
        show i - (pos + bs.length) = i - pos - bs.length by omega]
    · rw [if_neg hhigh, if_pos hlow, if_pos hlow, List.getElem?_append_left (by omega)]
  · rw [if_neg (by omega), if_neg hlow, if_neg hlow]

theorem slice_add (buf : ℕ → UInt8) (pos n k : ℕ) :
    slice buf pos (n + k) = slice buf pos n ++ slice buf (pos + n) k := by
  unfold slice
  rw [List.range_add, List.map_append, List.map_map]
  congr 2
  funext i
  show buf (pos + (n + i)) = buf (pos + n + i)
  rw [Nat.add_assoc]

/-- The bytes that have been stored. -/
theorem slice_store_self (buf : ℕ → UInt8) (pos : ℕ) (bs : List UInt8) :
    slice (store buf pos bs) pos bs.length = bs := by
  apply List.ext_getElem
  · simp [slice]
  · intro i _ hi
    simp [slice, store, hi]

/-- The bytes elsewhere are as before. -/
theorem slice_store_of_disjoint {pos' : ℕ} (h : pos + n ≤ pos' ∨ pos' + bs.length ≤ pos) :
    slice (store buf pos' bs) pos n = slice buf pos n := by
  unfold slice
  apply List.map_congr_left
  intro i hi
  have hin := List.mem_range.1 hi
  unfold store
  by_cases hlow : pos' ≤ pos + i
  · rw [if_pos hlow, List.getElem?_eq_none (by omega), Option.getD_none]
  · rw [if_neg hlow]

@[simp] theorem length_slice (buf : ℕ → UInt8) (pos n : ℕ) : (slice buf pos n).length = n := by
  simp [slice]

/-- There is room: `_ind` is within a capacity that fits in an `int`. -/
structure Room (m : Marshall) : Prop where
  ind : m.ind ≤ m.capa
  pos : 0 < m.capa
  capa : m.capa < 2 ^ 31

/-- The operation stores the bytes `bs` at `_ind`, as long as the whole stays below `2 ^ 30` bytes. -/
def Writes (p : Put) (bs : List UInt8) : Prop :=
  ∀ m, Room m → m.ind + bs.length < 2 ^ 30 →
    ∃ m', p m = some m' ∧ Room m' ∧ m.capa ≤ m'.capa ∧ m'.buf = store m.buf m.ind bs ∧
      m'.ind = m.ind + bs.length

theorem writes_some : Writes some [] := by
  intro m hm _
  refine ⟨m, rfl, hm, le_refl _, ?_, rfl⟩
  funext i
  simp [store]

/-- One operation after another. -/
theorem Writes.comp {p q : Put} (hp : Writes p bs) (hq : Writes q bs') :
    Writes (p >=> q) (bs ++ bs') := by
  intro m hm hlen
  rw [List.length_append] at hlen
  obtain ⟨m₁, h₁, hm₁, hcapa₁, hbuf₁, hind₁⟩ := hp m hm (by omega)
  obtain ⟨m₂, h₂, hm₂, hcapa₂, hbuf₂, hind₂⟩ := hq m₁ hm₁ (by omega)
  refine ⟨m₂, ?_, hm₂, hcapa₁.trans hcapa₂, ?_, ?_⟩
  · show (p m).bind q = some m₂
    rw [h₁, Option.bind_some, h₂]
  · rw [hbuf₂, hbuf₁, hind₁, store_append]
  · rw [hind₂, hind₁, List.length_append, Nat.add_assoc]

theorem writes_rawbyte (x : UInt8) : Writes (rawbyte x) [x] := by
  rintro ⟨buf, capa, ind⟩ ⟨hind, hpos, hcapa⟩ hlen
  simp only [List.length_singleton] at hind hpos hcapa hlen
  have hroom : (if capa ≤ ind then capa * 2 else capa) < 2 ^ 31 ∧
      ind < (if capa ≤ ind then capa * 2 else capa) := by
    split_ifs <;> omega
  refine ⟨⟨store buf ind [x], _, ind + 1⟩, if_pos hroom, ⟨?_, ?_, hroom.1⟩, ?_, rfl, rfl⟩
  · exact hroom.2
  · exact Nat.lt_of_le_of_lt (Nat.zero_le _) hroom.2
  · show capa ≤ if capa ≤ ind then capa * 2 else capa
    split_ifs <;> omega

theorem writes_rawbytes (p : List UInt8) : Writes (rawbytes p (Int32.ofNat p.length)) p := by
  rintro ⟨buf, capa, ind⟩ ⟨hind, hpos, hcapa⟩ hlen
  simp only at hind hpos hcapa hlen
  have hn : (Int32.ofNat p.length).toInt = p.length := Int32.toInt_ofNat_of_lt (by omega)
  have hroom : (if capa < ind + p.length then (if p.length < capa then 2 * capa else capa + p.length)
        else capa) < 2 ^ 31 ∧
      ind + p.length ≤ (if capa < ind + p.length then
        (if p.length < capa then 2 * capa else capa + p.length) else capa) := by
    split_ifs <;> omega
  have hgrow : capa ≤ if capa < ind + p.length then
      (if p.length < capa then 2 * capa else capa + p.length) else capa := by
    split_ifs <;> omega
  refine ⟨⟨store buf ind p, _, ind + p.length⟩, ?_, ⟨hroom.2, hpos.trans_le hgrow, hroom.1⟩, hgrow,
    rfl, rfl⟩
  unfold rawbytes
  rw [hn]
  simp only [Int.toNat_natCast, Int.natCast_nonneg, le_refl, and_self, if_true, List.take_length]
  exact if_pos hroom

theorem writes_putUInt (x : UInt32) : Writes (putUInt x) (be32 x) := by
  have hbytes := (writes_rawbyte (x >>> 24 &&& 0xff).toUInt8).comp
    ((writes_rawbyte (x >>> 16 &&& 0xff).toUInt8).comp
      ((writes_rawbyte (x >>> 8 &&& 0xff).toUInt8).comp (writes_rawbyte (x &&& 0xff).toUInt8)))
  simp only [toUInt8_and] at hbytes
  unfold putUInt
  simp only [toUInt8_and]
  exact hbytes

theorem writes_putUShort (x : UInt16) : Writes (putUShort x) (be16 x) := by
  have hbytes := (writes_rawbyte (x >>> 8 &&& 0xff).toUInt8).comp
    (writes_rawbyte (x &&& 0xff).toUInt8)
  simp only [toUInt8_and16] at hbytes
  unfold putUShort
  simp only [toUInt8_and16]
  exact hbytes

theorem writes_pack (x : Int32) : Writes (pack x) (be32 x.toUInt32) := by
  rw [be32_toUInt32]
  exact (writes_rawbyte _).comp ((writes_rawbyte _).comp ((writes_rawbyte _).comp (writes_rawbyte _)))

theorem writes_putULongLong (x : UInt64) : Writes (putULongLong x) (be64 x) :=
  (writes_putUInt _).comp (writes_putUInt _)

theorem writes_putString (s : Str) :
    Writes (putString s) (be32 (UInt32.ofNat s.length) ++ s) :=
  (writes_putUInt _).comp (writes_rawbytes s)

/-- The bytes of an `extent_protocol::attr`. -/
def attrBytes (a : Attr) : List UInt8 :=
  be32 a.atime ++ (be32 a.mtime ++ (be32 a.ctime ++ (be32 a.size ++ (be32 a.mode ++
    (be32 a.uid ++ be32 a.gid)))))

theorem writes_putAttr (a : Attr) : Writes (putAttr a) (attrBytes a) :=
  (writes_putUInt _).comp ((writes_putUInt _).comp ((writes_putUInt _).comp ((writes_putUInt _).comp
    ((writes_putUInt _).comp ((writes_putUInt _).comp (writes_putUInt _))))))

/-- A loop stores what its passes store. -/
theorem writes_putAll {α : Type} {put : α → Put} {bytes : α → List UInt8} {l : List α}
    (h : ∀ x ∈ l, Writes (put x) (bytes x)) : Writes (putAll (l.map put)) (l.flatMap bytes) := by
  induction l with
  | nil => exact writes_some
  | cons x l ih =>
    exact (h x (List.mem_cons_self ..)).comp (ih (fun y hy => h y (List.mem_cons_of_mem _ hy)))

/-- The bytes of a `req_header`. -/
def reqHeaderBytes (h : ReqHeader) : List UInt8 :=
  be32 h.xid.toUInt32 ++ (be32 h.proc.toUInt32 ++ (be32 h.cltNonce ++ (be32 h.srvNonce ++
    be32 h.xidRep.toUInt32)))

/-- The bytes of a `reply_header`. -/
def replyHeaderBytes (h : ReplyHeader) : List UInt8 := be32 h.xid.toUInt32 ++ be32 h.ret.toUInt32

/-- A header goes into the space kept for it; nothing else changes. -/
theorem packHeader_of_writes {p : Put} (hp : Writes p bs) (hbs : bs.length ≤ 20) {m : Marshall}
    (hm : Room m) (hind : rpcHeaderSz ≤ m.ind) :
    ∃ m', packHeader p m = some m' ∧ Room m' ∧ m'.buf = store m.buf 4 bs ∧ m'.ind = m.ind := by
  have h4 : Room { m with ind := 4 } := by
    refine ⟨?_, hm.pos, hm.capa⟩
    have h := hm.ind
    unfold rpcHeaderSz at hind
    show 4 ≤ m.capa
    omega
  obtain ⟨m', h', hm', hcapa, hbuf, -⟩ := hp _ h4 (by show 4 + bs.length < 2 ^ 30; omega)
  refine ⟨{ m' with ind := m.ind }, ?_, ⟨hm.ind.trans hcapa, hm'.pos, hm'.capa⟩, hbuf, rfl⟩
  unfold packHeader
  rw [h']
  rfl

theorem writes_reqHeader (h : ReqHeader) :
    Writes (pack h.xid >=> pack h.proc >=> pack h.cltNonce.toInt32 >=> pack h.srvNonce.toInt32 >=>
      pack h.xidRep) (reqHeaderBytes h) :=
  (writes_pack _).comp ((writes_pack _).comp ((writes_pack _).comp ((writes_pack _).comp
    (writes_pack _))))

theorem writes_replyHeader (h : ReplyHeader) :
    Writes (pack h.xid >=> pack h.ret) (replyHeaderBytes h) :=
  (writes_pack _).comp (writes_pack _)

theorem room_init (buf : ℕ → UInt8) : Room (init buf) :=
  ⟨by show 24 ≤ 1024; decide, by show 0 < 1024; decide, by show 1024 < 2 ^ 31; decide⟩

/-- **The layout of a message**: four bytes for the size, the header, the rest of its space, the
values. -/
theorem takeBuf_eq {m : Marshall} {hdr body : List UInt8} (hhdr : hdr.length ≤ 20)
    (hbuf : m.buf = store (store buf rpcHeaderSz body) 4 hdr)
    (hind : m.ind = rpcHeaderSz + body.length) :
    ∃ front gap, m.takeBuf = front ++ (hdr ++ (gap ++ body)) ∧ front.length = 4 ∧
      gap.length = 20 - hdr.length := by
  refine ⟨slice m.buf 0 4, slice m.buf (4 + hdr.length) (20 - hdr.length), ?_, by simp, by simp⟩
  have hlen : m.ind = 4 + (hdr.length + (20 - hdr.length + body.length)) := by
    rw [hind, rpcHeaderSz]
    omega
  have hhdr' : slice m.buf 4 hdr.length = hdr := by
    rw [hbuf, slice_store_self]
  have hbody : slice m.buf 24 body.length = body := by
    rw [hbuf, slice_store_of_disjoint (.inr (by omega))]
    exact slice_store_self ..
  rw [takeBuf, hlen, slice_add, slice_add, slice_add, Nat.zero_add, hhdr',
    show 4 + hdr.length + (20 - hdr.length) = 24 by omega, hbody]

end Marshall

/-! ## What is read -/

namespace Unmarshall

/-- The bytes `bs` are still to be read, and nothing has gone wrong. -/
structure Rest (u : Unmarshall) (bs : List UInt8) : Prop where
  ok : u.ok = true
  size : u.buf.length < 2 ^ 31
  split : ∃ pre, u.buf = pre ++ bs ∧ u.ind = pre.length

/-- The operation makes the value `a` of the bytes `bs`. -/
def Reads {α : Type} (g : Get α) (bs : List UInt8) (a : α) : Prop :=
  ∀ u post, Rest u (bs ++ post) → ∃ u', g u = some (a, u') ∧ Rest u' post ∧ u'.buf = u.buf

variable {α β : Type} {bs bs' : List UInt8}

theorem reads_pure (a : α) : Reads (pure a) [] a := by
  intro u post hu
  exact ⟨u, rfl, hu, rfl⟩

/-- Only bytes that fit in a buffer are ever read. -/
theorem reads_of_fits {g : Get α} {a : α} (h : bs.length < 2 ^ 31 → Reads g bs a) :
    Reads g bs a := by
  intro u post hu
  refine h ?_ u post hu
  obtain ⟨pre, hbuf, -⟩ := hu.split
  have hsize := hu.size
  rw [hbuf, List.length_append, List.length_append] at hsize
  omega

/-- One operation after another. -/
theorem Reads.bind {g : Get α} {f : α → Get β} {a : α} {b : β} (hg : Reads g bs a)
    (hf : Reads (f a) bs' b) : Reads (g >>= f) (bs ++ bs') b := by
  intro u post hu
  rw [List.append_assoc] at hu
  obtain ⟨u₁, h₁, hu₁, hbuf₁⟩ := hg u _ hu
  obtain ⟨u₂, h₂, hu₂, hbuf₂⟩ := hf u₁ _ hu₁
  refine ⟨u₂, ?_, hu₂, hbuf₂.trans hbuf₁⟩
  show (g u).bind (fun x => f x.1 x.2) = _
  rw [h₁]
  exact h₂

/-- The result of the last operation, converted. -/
theorem Reads.map {g : Get α} {a : α} (hg : Reads g bs a) (f : α → β) :
    Reads (g >>= fun x => pure (f x)) bs (f a) := by
  have h := hg.bind (f := fun x => pure (f x)) (reads_pure (f a))
  rwa [List.append_nil] at h

theorem reads_rawbyte (x : UInt8) : Reads rawbyte [x] x.toInt8.toInt32.toUInt32 := by
  rintro ⟨buf, ind, ok⟩ post ⟨hok, hsize, pre, hbuf, hind⟩
  simp only at hok hsize hbuf hind
  subst hbuf hind hok
  refine ⟨⟨pre ++ ([x] ++ post), pre.length + 1, true⟩, ?_, ⟨rfl, hsize, pre ++ [x], ?_, ?_⟩, rfl⟩
  · have hin : ¬ (pre ++ ([x] ++ post)).length ≤ pre.length := by simp
    have hget : (pre ++ ([x] ++ post)).getD pre.length 0 = x := by simp
    unfold rawbyte
    rw [if_neg hin, hget]
  · show pre ++ ([x] ++ post) = pre ++ [x] ++ post
    rw [List.append_assoc]
  · simp

theorem reads_rawbytes (old s : Str) (hs : s.length < 2 ^ 32) :
    Reads (rawbytes old (UInt32.ofNat s.length)) s s := by
  rintro ⟨buf, ind, ok⟩ post ⟨hok, hsize, pre, hbuf, hind⟩
  simp only at hok hsize hbuf hind
  subst hbuf hind hok
  rw [List.length_append, List.length_append] at hsize
  have hn : (UInt32.ofNat s.length).toNat = s.length := UInt32.toNat_ofNat_of_lt' hs
  -- the sum does not wrap around
  have hsum : (UInt32.ofNat pre.length + UInt32.ofNat s.length).toNat = pre.length + s.length := by
    rw [UInt32.toNat_add, hn, UInt32.toNat_ofNat_of_lt' (by show _ < 2 ^ 32; omega)]
    exact Nat.mod_eq_of_lt (by omega)
  refine ⟨⟨pre ++ (s ++ post), pre.length + s.length, true⟩, ?_, ⟨rfl, ?_, pre ++ s, ?_, ?_⟩, rfl⟩
  · unfold rawbytes
    rw [hsum, hn, if_neg (by simp only [List.length_append]; omega),
      if_pos (by simp only [List.length_append]; omega)]
    simp
  · simp only [List.length_append]
    omega
  · show pre ++ (s ++ post) = pre ++ s ++ post
    rw [List.append_assoc]
  · simp

theorem reads_getBool (x : Bool) : Reads getBool [x.toUInt8] x := by
  have h := (reads_rawbyte x.toUInt8).map (fun c => c != 0)
  cases x <;> exact h

theorem reads_getUChar (x : UInt8) : Reads getUChar [x] x := by
  have h := (reads_rawbyte x).map UInt32.toUInt8
  rwa [← toUInt8_and, signExtend_and, UInt8.toUInt8_toUInt32] at h

theorem reads_getChar (x : Int8) : Reads getChar [x.toUInt8] x := by
  have h := (reads_rawbyte x.toUInt8).map (fun c => c.toUInt8.toInt8)
  rwa [← toUInt8_and, signExtend_and, UInt8.toUInt8_toUInt32, Int8.toInt8_toUInt8] at h

/-- An operation that starts with a byte. -/
theorem Reads.byte {x : UInt8} {f : UInt32 → Get β} {b : β}
    (h : Reads (f x.toInt8.toInt32.toUInt32) bs b) : Reads (rawbyte >>= f) (x :: bs) b :=
  (reads_rawbyte x).bind h

theorem reads_getUShort (x : UInt16) : Reads getUShort (be16 x) x := by
  refine Reads.byte (Reads.byte ?_)
  simp only [signExtend_and]
  rw [or_bytes16]
  exact reads_pure x

theorem reads_getShort (x : Int16) : Reads getShort (be16 x.toUInt16) x := by
  refine Reads.byte (Reads.byte ?_)
  simp only [signExtend_and]
  rw [or_signed16, Int16.toInt16_toUInt16]
  exact reads_pure x

theorem reads_getUInt (x : UInt32) : Reads getUInt (be32 x) x := by
  refine Reads.byte (Reads.byte (Reads.byte (Reads.byte ?_)))
  simp only [signExtend_and]
  rw [show _ ||| _ = x from word32_be32 x]
  exact reads_pure x

theorem reads_unpack (x : Int32) : Reads unpack (be32 x.toUInt32) x := by
  refine Reads.byte (Reads.byte (Reads.byte (Reads.byte ?_)))
  simp only [signExtend_and, UInt32.toUInt32_toInt32]
  rw [show _ ||| _ = x.toUInt32 from word32_be32 x.toUInt32, Int32.toInt32_toUInt32]
  exact reads_pure x

theorem reads_getULongLong (x : UInt64) : Reads getULongLong (be64 x) x := by
  refine (reads_getUInt (x >>> 32).toUInt32).bind ?_
  have h := (reads_getUInt x.toUInt32).map
    (fun l => l.toUInt64 ||| ((x >>> 32).toUInt32.toUInt64 <<< 32))
  rwa [or_halves] at h

theorem reads_getString (s : Str) (hs : s.length < 2 ^ 32) :
    Reads getString (be32 (UInt32.ofNat s.length) ++ s) s := by
  refine (reads_getUInt _).bind ?_
  intro u post hu
  obtain ⟨u', h, hu'⟩ := reads_rawbytes [] s hs u post hu
  refine ⟨u', ?_, hu'⟩
  show (if u.ok then rawbytes [] (UInt32.ofNat s.length) else pure []) u = _
  rw [if_pos hu.ok, h]

theorem reads_getAttr (a : Attr) : Reads getAttr (Marshall.attrBytes a) a := by
  refine (reads_getUInt a.atime).bind ((reads_getUInt a.mtime).bind ((reads_getUInt a.ctime).bind
    ((reads_getUInt a.size).bind ((reads_getUInt a.mode).bind ((reads_getUInt a.uid).bind ?_)))))
  exact (reads_getUInt a.gid).map (fun gid => { a with gid := gid })

/-- The loop of a vector reads its items. -/
theorem reads_getItems {item : Get α} {bytes : α → List UInt8} {l : List α}
    (h : ∀ x ∈ l, Reads item (bytes x) x) (v : List α) :
    Reads (getItems item l.length v) (l.flatMap bytes) (v ++ l) := by
  induction l generalizing v with
  | nil =>
    rw [List.append_nil]
    exact reads_pure v
  | cons x l ih =>
    have hl := ih (fun y hy => h y (List.mem_cons_of_mem _ hy)) (v ++ [x])
    rw [List.append_assoc] at hl
    exact (h x (List.mem_cons_self ..)).bind hl

/-- The loop of a map reads pairs with ascending keys. -/
theorem reads_getPairs [LinearOrder α] {key : Get α} {item : Get β} {keyBytes : α → List UInt8}
    {bytes : β → List UInt8} {l : List (α × β)} (hkey : ∀ x ∈ l, Reads key (keyBytes x.1) x.1)
    (hitem : ∀ x ∈ l, Reads item (bytes x.2) x.2) (d d' : OrderedMap α β)
    (hd : d'.pairs = d.pairs ++ l) :
    Reads (getPairs key item l.length d) (l.flatMap (fun x => keyBytes x.1 ++ bytes x.2)) d' := by
  induction l generalizing d with
  | nil =>
    rw [List.append_nil] at hd
    rw [OrderedMap.ext hd]
    exact reads_pure d
  | cons x l ih =>
    have hsorted := d'.sorted
    rw [hd] at hsorted
    -- the key is above all keys so far
    have hlast : (d.insertOrAssign x.1 x.2).pairs = d.pairs ++ [x] := by
      apply OrderedMap.assign_of_lt
      intro y hy
      exact (List.pairwise_append.1 hsorted).2.2 y hy x (List.mem_cons_self ..)
    have hl := ih (fun y hy => hkey y (List.mem_cons_of_mem _ hy))
      (fun y hy => hitem y (List.mem_cons_of_mem _ hy)) (d.insertOrAssign x.1 x.2)
      (by rw [hd, hlast, List.append_assoc]; rfl)
    rw [List.flatMap_cons, List.append_assoc]
    refine (hkey x (List.mem_cons_self ..)).bind ((hitem x (List.mem_cons_self ..)).bind ?_)
    exact hl

/-- A header is read from its space, and the values are next. -/
theorem unpackHeader_of_reads {g : Get α} {a : α} {front gap body : List UInt8} (hg : Reads g bs a)
    (hbs : bs.length ≤ 20) (hfront : front.length = 4) (hgap : gap.length = 20 - bs.length)
    (hsize : (front ++ (bs ++ (gap ++ body))).length < 2 ^ 31) :
    ∃ u, unpackHeader g (ofBuf (front ++ (bs ++ (gap ++ body)))) = some (a, u) ∧ Rest u body ∧
      u.buf = front ++ (bs ++ (gap ++ body)) := by
  obtain ⟨u, hu, hrest, hbuf⟩ := hg ⟨front ++ (bs ++ (gap ++ body)), 4, true⟩ (gap ++ body)
    ⟨rfl, hsize, front, rfl, hfront.symm⟩
  have hsplit : front ++ (bs ++ (gap ++ body)) = front ++ bs ++ gap ++ body := by
    simp only [List.append_assoc]
  refine ⟨{ u with ind := rpcHeaderSz }, ?_, ⟨hrest.ok, ?_, front ++ bs ++ gap, ?_, ?_⟩, hbuf⟩
  · show (g ⟨front ++ (bs ++ (gap ++ body)), 4, true⟩).bind
      (fun x => some (x.1, { x.2 with ind := rpcHeaderSz })) = _
    rw [hu]
    rfl
  · show u.buf.length < 2 ^ 31
    rw [hbuf]
    exact hsize
  · exact hbuf.trans hsplit
  · simp only [List.length_append, rpcHeaderSz]
    omega

/-- `take_in` goes on with the values of a message. -/
theorem rest_takeIn {u : Unmarshall} {hdr body : List UInt8} (hbuf : u.buf = hdr ++ body)
    (hhdr : hdr.length = rpcHeaderSz) (hsize : u.buf.length < 2 ^ 31) : Rest (takeIn u) body := by
  refine ⟨?_, hsize, hdr, hbuf, hhdr.symm⟩
  show decide (rpcHeaderSz ≤ u.buf.length) = true
  rw [hbuf, List.length_append, hhdr, decide_eq_true_eq]
  omega

theorem reads_reqHeader (h : ReqHeader) : Reads (do
    let xid ← unpack
    let proc ← unpack
    let cltNonce ← unpack
    let srvNonce ← unpack
    let xidRep ← unpack
    return (⟨xid, proc, cltNonce.toUInt32, srvNonce.toUInt32, xidRep⟩ : ReqHeader))
    (Marshall.reqHeaderBytes h) h := by
  have hclt := reads_unpack h.cltNonce.toInt32
  have hsrv := reads_unpack h.srvNonce.toInt32
  rw [UInt32.toUInt32_toInt32] at hclt hsrv
  refine (reads_unpack _).bind ((reads_unpack _).bind (hclt.bind (hsrv.bind ?_)))
  have hlast := (reads_unpack h.xidRep).map (fun xidRep => (⟨h.xid, h.proc,
    h.cltNonce.toInt32.toUInt32, h.srvNonce.toInt32.toUInt32, xidRep⟩ : ReqHeader))
  rwa [UInt32.toUInt32_toInt32, UInt32.toUInt32_toInt32] at hlast

theorem reads_replyHeader (h : ReplyHeader) : Reads (do
    let xid ← unpack
    let ret ← unpack
    return (⟨xid, ret⟩ : ReplyHeader)) (Marshall.replyHeaderBytes h) h :=
  (reads_unpack _).bind ((reads_unpack h.ret).map (fun ret => (⟨h.xid, ret⟩ : ReplyHeader)))

end Unmarshall
