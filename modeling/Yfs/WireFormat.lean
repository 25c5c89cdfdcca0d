/-
# The wire format

The types with an `operator<<` and an `operator>>` are a universe `WireType`; a type stands for its
values (`Val`), for its two operators (`put`, `get`) and for the bytes of its values (`encode`).  The
universe knows which types have an `operator<`, since only these can be the keys of a `std::map`.

A message is a list of values behind a header.  `wire_round_trip`: what is marshalled and packed comes
back, value by value.
-/
import Yfs.Marshall

open NetworkOrder

/-- The types that can be marshalled; the index says whether the type has an `operator<`. -/
inductive WireType : Bool → Type
  | bool : WireType true
  | char : WireType true
  | uchar : WireType true
  | short : WireType true
  | ushort : WireType true
  | int : WireType true
  | uint : WireType true
  | ulonglong : WireType true
  | string : WireType true
  | attr : WireType false
  | vector {o : Bool} (t : WireType o) : WireType o
  | map {o : Bool} (k : WireType true) (t : WireType o) : WireType o

namespace WireType

/-- The values of a type, and their order. -/
def sem : {o : Bool} → WireType o → (A : Type) × (o = true → LinearOrder A)
  | _, .bool => ⟨Bool, fun _ => inferInstance⟩
  | _, .char => ⟨Int8, fun _ => LinearOrder.lift' Int8.toInt (fun _ _ => Int8.toInt_inj.1)⟩
  | _, .uchar => ⟨UInt8, fun _ => LinearOrder.lift' UInt8.toNat (fun _ _ => UInt8.toNat_inj.1)⟩
  | _, .short => ⟨Int16, fun _ => LinearOrder.lift' Int16.toInt (fun _ _ => Int16.toInt_inj.1)⟩
  | _, .ushort => ⟨UInt16, fun _ => LinearOrder.lift' UInt16.toNat (fun _ _ => UInt16.toNat_inj.1)⟩
  | _, .int => ⟨Int32, fun _ => LinearOrder.lift' Int32.toInt (fun _ _ => Int32.toInt_inj.1)⟩
  | _, .uint => ⟨UInt32, fun _ => LinearOrder.lift' UInt32.toNat (fun _ _ => UInt32.toNat_inj.1)⟩
  | _, .ulonglong =>
    ⟨UInt64, fun _ => LinearOrder.lift' UInt64.toNat (fun _ _ => UInt64.toNat_inj.1)⟩
  -- the characters of a string are compared as unsigned bytes
  | _, .string => ⟨Str, fun _ =>
      letI : LinearOrder UInt8 := LinearOrder.lift' UInt8.toNat (fun _ _ => UInt8.toNat_inj.1)
      inferInstanceAs (LinearOrder (List UInt8))⟩
  | _, .attr => ⟨Attr, fun h => nomatch h⟩
  | _, .vector t => ⟨List t.sem.1, fun h =>
      letI := t.sem.2 h
      inferInstance⟩
  | _, .map k t =>
    letI := k.sem.2 rfl
    ⟨OrderedMap k.sem.1 t.sem.1, fun h =>
      letI := t.sem.2 h
      OrderedMap.linearOrder⟩

/-- The values of a type. -/
def Val {o : Bool} (t : WireType o) : Type := t.sem.1

/-- The order of the keys of a map. -/
instance (k : WireType true) : LinearOrder k.Val := k.sem.2 rfl

/-- `operator<<`. -/
def put : {o : Bool} → (t : WireType o) → t.Val → Put
  | _, .bool, x => Marshall.putBool x
  | _, .char, x => Marshall.putChar x
  | _, .uchar, x => Marshall.putUChar x
  | _, .short, x => Marshall.putShort x
  | _, .ushort, x => Marshall.putUShort x
  | _, .int, x => Marshall.putInt x
  | _, .uint, x => Marshall.putUInt x
  | _, .ulonglong, x => Marshall.putULongLong x
  | _, .string, x => Marshall.putString x
  | _, .attr, x => Marshall.putAttr x
  | _, .vector t, v => Marshall.putVector t.put v
  | _, .map k t, d => Marshall.putMap (α := k.Val) k.put t.put d

/-- `operator>>` into a fresh variable. -/
def get : {o : Bool} → (t : WireType o) → Get t.Val
  | _, .bool => Unmarshall.getBool
  | _, .char => Unmarshall.getChar
  | _, .uchar => Unmarshall.getUChar
  | _, .short => Unmarshall.getShort
  | _, .ushort => Unmarshall.getUShort
  | _, .int => Unmarshall.getInt
  | _, .uint => Unmarshall.getUInt
  | _, .ulonglong => Unmarshall.getULongLong
  | _, .string => Unmarshall.getString
  | _, .attr => Unmarshall.getAttr
  | _, .vector t => Unmarshall.getVector t.get
  | _, .map k t => Unmarshall.getMap (α := k.Val) k.get t.get

/-- The bytes of a vector: the length, then the items. -/
def encodeItems {α : Type} (bytes : α → List UInt8) (v : List α) : List UInt8 :=
  be32 (UInt32.ofNat v.length) ++ v.flatMap bytes

/-- The bytes of a value: words in network order, a length before what has one. -/
def encode : {o : Bool} → (t : WireType o) → t.Val → List UInt8
  | _, .bool, (x : Bool) => [x.toUInt8]
  | _, .char, (x : Int8) => [x.toUInt8]
  | _, .uchar, (x : UInt8) => [x]
  | _, .short, (x : Int16) => be16 x.toUInt16
  | _, .ushort, (x : UInt16) => be16 x
  | _, .int, (x : Int32) => be32 x.toUInt32
  | _, .uint, (x : UInt32) => be32 x
  | _, .ulonglong, (x : UInt64) => be64 x
  | _, .string, (x : Str) => be32 (UInt32.ofNat x.length) ++ x
  | _, .attr, (x : Attr) => Marshall.attrBytes x
  | _, .vector t, v => encodeItems t.encode v
  | _, .map k t, d =>
    encodeItems (fun x : k.Val × t.Val => k.encode x.1 ++ t.encode x.2) (OrderedMap.pairs d)

/-! ## Every operator follows the format -/

theorem encode_ne_nil {o : Bool} (t : WireType o) (v : t.Val) : t.encode v ≠ [] := by
  cases t <;> exact List.cons_ne_nil _ _

theorem writes_put {o : Bool} (t : WireType o) (v : t.Val) :
    Marshall.Writes (t.put v) (t.encode v) := by
  induction t with
  | bool => exact Marshall.writes_rawbyte _
  | char => exact Marshall.writes_rawbyte _
  | uchar => exact Marshall.writes_rawbyte _
  | short => exact Marshall.writes_putUShort _
  | ushort => exact Marshall.writes_putUShort _
  | int => exact Marshall.writes_putUInt _
  | uint => exact Marshall.writes_putUInt _
  | ulonglong => exact Marshall.writes_putULongLong _
  | string => exact Marshall.writes_putString _
  | attr => exact Marshall.writes_putAttr _
  | vector t ih =>
    exact (Marshall.writes_putUInt _).comp (Marshall.writes_putAll (fun x _ => ih x))
  | map k t ihk ih =>
    exact (Marshall.writes_putUInt _).comp
      (Marshall.writes_putAll (fun x _ => (ihk x.1).comp (ih x.2)))

/-- A list whose items all have bytes is not longer than its bytes. -/
theorem length_le_flatMap {α : Type} {bytes : α → List UInt8} (h : ∀ x, bytes x ≠ []) (l : List α) :
    l.length ≤ (l.flatMap bytes).length := by
  induction l with
  | nil => exact le_refl _
  | cons x l ih =>
    have hx := List.length_pos_of_ne_nil (h x)
    rw [List.flatMap_cons, List.length_append, List.length_cons]
    omega

/-- The length in front of the items is read back. -/
theorem reads_length {α β : Type} {bytes : α → List UInt8} (h : ∀ x, bytes x ≠ []) {v : List α}
    (loop : ℕ → Get β) {b : β} (hloop : Unmarshall.Reads (loop v.length) (v.flatMap bytes) b) :
    Unmarshall.Reads (Unmarshall.getUInt >>= fun n => loop n.toNat) (encodeItems bytes v) b := by
  refine Unmarshall.reads_of_fits ?_
  intro hlen
  have hle := length_le_flatMap h v
  rw [encodeItems, List.length_append] at hlen
  refine (Unmarshall.reads_getUInt _).bind ?_
  rwa [UInt32.toNat_ofNat_of_lt' (by show _ < 2 ^ 32; omega)]

theorem reads_get {o : Bool} (t : WireType o) (v : t.Val) :
    Unmarshall.Reads t.get (t.encode v) v := by
  induction t with
  | bool => exact Unmarshall.reads_getBool _
  | char => exact Unmarshall.reads_getChar _
  | uchar => exact Unmarshall.reads_getUChar _
  | short => exact Unmarshall.reads_getShort _
  | ushort => exact Unmarshall.reads_getUShort _
  | int => exact Unmarshall.reads_unpack _
  | uint => exact Unmarshall.reads_getUInt _
  | ulonglong => exact Unmarshall.reads_getULongLong _
  | string =>
    have hstr : ∀ s : Str, Unmarshall.Reads Unmarshall.getString
        (be32 (UInt32.ofNat s.length) ++ s) s := by
      intro s
      refine Unmarshall.reads_of_fits ?_
      intro hlen
      rw [List.length_append] at hlen
      exact Unmarshall.reads_getString s (by omega)
    exact hstr v
  | attr => exact Unmarshall.reads_getAttr _
  | vector t ih =>
    exact reads_length (encode_ne_nil t) (fun n => Unmarshall.getItems t.get n [])
      (Unmarshall.reads_getItems (fun x _ => ih x) [])
  | map k t ihk ih =>
    refine reads_length (fun x => ?_)
      (fun n => Unmarshall.getPairs (α := k.Val) k.get t.get n OrderedMap.empty)
      (Unmarshall.reads_getPairs (fun x _ => ihk x.1) (fun x _ => ih x.2) OrderedMap.empty v rfl)
    exact List.append_ne_nil_of_left_ne_nil (encode_ne_nil k x.1) _

end WireType

/-! ## Messages -/

/-- A value with its type. -/
structure WireValue where
  {o : Bool}
  type : WireType o
  value : type.Val

namespace WireValue

/-- The type of a value. -/
def ty (v : WireValue) : (o : Bool) × WireType o := ⟨v.o, v.type⟩

/-- The bytes of the values, in order. -/
def encodeAll (vs : List WireValue) : List UInt8 := vs.flatMap (fun v => v.type.encode v.value)

/-- `m << v₁ << … << vₙ`. -/
def putAll (vs : List WireValue) : Put := Marshall.putAll (vs.map (fun v => v.type.put v.value))

/-- `u >> x₁ >> … >> xₙ`, with fresh variables of the given types. -/
def getAll : List ((o : Bool) × WireType o) → Get (List WireValue)
  | [] => return []
  | t :: ts => do
    let x ← t.2.get
    let vs ← getAll ts
    return ⟨t.2, x⟩ :: vs

theorem writes_all (vs : List WireValue) : Marshall.Writes (putAll vs) (encodeAll vs) :=
  Marshall.writes_putAll (fun v _ => v.type.writes_put v.value)

theorem reads_all (vs : List WireValue) :
    Unmarshall.Reads (getAll (vs.map ty)) (encodeAll vs) vs := by
  induction vs with
  | nil => exact Unmarshall.reads_pure []
  | cons v vs ih => exact (v.type.reads_get v.value).bind (ih.map (fun vs => v :: vs))

theorem encodeAll_eq_nil_iff {vs : List WireValue} : encodeAll vs = [] ↔ vs = [] := by
  constructor
  · intro h
    have hle := WireType.length_le_flatMap (fun v : WireValue => v.type.encode_ne_nil v.value) vs
    rw [show vs.flatMap _ = [] from h] at hle
    exact List.eq_nil_of_length_eq_zero (Nat.le_zero.1 hle)
  · rintro rfl
    rfl

end WireValue

/-- The values come out of `u` one by one, with `ok` after each; `okdone` holds after the last one and
not before. -/
def Unmarshall.Yields (u : Unmarshall) (vs : List WireValue) : Prop :=
  ∀ k ≤ vs.length, ∃ u', WireValue.getAll ((vs.take k).map WireValue.ty) u = some (vs.take k, u') ∧
    u'.ok = true ∧ (u'.okdone = true ↔ k = vs.length)

theorem Unmarshall.Rest.okdone_iff {u : Unmarshall} {bs : List UInt8} (h : u.Rest bs) :
    u.okdone = true ↔ bs = [] := by
  obtain ⟨pre, hbuf, hind⟩ := h.split
  unfold Unmarshall.okdone
  rw [h.ok, hbuf, hind, List.length_append]
  simp

theorem Unmarshall.Rest.yields {u : Unmarshall} {vs : List WireValue}
    (h : u.Rest (WireValue.encodeAll vs)) : u.Yields vs := by
  intro k hk
  have hsplit : WireValue.encodeAll vs =
      WireValue.encodeAll (vs.take k) ++ WireValue.encodeAll (vs.drop k) := by
    rw [WireValue.encodeAll, WireValue.encodeAll, WireValue.encodeAll, ← List.flatMap_append,
      List.take_append_drop]
  rw [hsplit] at h
  obtain ⟨u', hget, hrest, -⟩ := WireValue.reads_all (vs.take k) u _ h
  refine ⟨u', hget, hrest.ok, ?_⟩
  rw [hrest.okdone_iff, WireValue.encodeAll_eq_nil_iff, List.drop_eq_nil_iff]
  omega

/-! ## The round trip -/

/-- **The bytes of a message**: the values are marshalled, then the header is packed. -/
theorem message_bytes (fresh : ℕ → UInt8) (vs : List WireValue)
    (hsize : rpcHeaderSz + (WireValue.encodeAll vs).length < 2 ^ 30) {p : Put} {hdr : List UInt8}
    (hp : Marshall.Writes p hdr) (hhdr : hdr.length ≤ 20) :
    ∃ m, (WireValue.putAll vs >=> Marshall.packHeader p) (Marshall.init fresh) = some m ∧
      m.ind = rpcHeaderSz + (WireValue.encodeAll vs).length ∧
      ∃ front gap, m.takeBuf = front ++ (hdr ++ (gap ++ WireValue.encodeAll vs)) ∧
        front.length = 4 ∧ gap.length = 20 - hdr.length := by
  obtain ⟨m₁, h₁, hm₁, -, hbuf₁, hind₁⟩ :=
    WireValue.writes_all vs (Marshall.init fresh) (Marshall.room_init fresh) hsize
  obtain ⟨m, h, -, hbuf, hind⟩ := Marshall.packHeader_of_writes hp hhdr hm₁
    (by rw [hind₁]; exact Nat.le_add_right _ _)
  have hind' : m.ind = rpcHeaderSz + (WireValue.encodeAll vs).length := hind.trans hind₁
  refine ⟨m, ?_, hind', Marshall.takeBuf_eq hhdr (by rw [hbuf, hbuf₁]; rfl) hind'⟩
  show (WireValue.putAll vs (Marshall.init fresh)).bind (Marshall.packHeader p) = some m
  rw [h₁, Option.bind_some, h]

/-- **The wire format round-trips.**  For every header and all values whose message stays below
`2 ^ 30` bytes, whatever the fresh memory holds: the header is unpacked from the message as it was
packed, and the values come out one by one, for a request and, after `take_in`, for a reply. -/
theorem wire_round_trip (fresh : ℕ → UInt8) (vs : List WireValue)
    (hsize : rpcHeaderSz + (WireValue.encodeAll vs).length < 2 ^ 30) :
    (∀ h : ReqHeader, ∃ m u,
      (WireValue.putAll vs >=> Marshall.packReqHeader h) (Marshall.init fresh) = some m ∧
      m.ind = rpcHeaderSz + (WireValue.encodeAll vs).length ∧
      Unmarshall.unpackReqHeader (.ofBuf m.takeBuf) = some (h, u) ∧ u.ok = true ∧ u.Yields vs) ∧
    (∀ h : ReplyHeader, ∃ m u,
      (WireValue.putAll vs >=> Marshall.packReplyHeader h) (Marshall.init fresh) = some m ∧
      m.ind = rpcHeaderSz + (WireValue.encodeAll vs).length ∧
      Unmarshall.unpackReplyHeader (.ofBuf m.takeBuf) = some (h, u) ∧ u.ok = true ∧
      u.takeIn.Yields vs) := by
  have hfits : ∀ {hdr front gap : List UInt8}, hdr.length ≤ 20 → front.length = 4 →
      gap.length = 20 - hdr.length →
      (front ++ (hdr ++ (gap ++ WireValue.encodeAll vs))).length < 2 ^ 31 := by
    intro hdr front gap hhdr hfront hgap
    unfold rpcHeaderSz at hsize
    simp only [List.length_append]
    omega
  constructor
  · intro h
    have hlen : (Marshall.reqHeaderBytes h).length ≤ 20 := le_refl 20
    obtain ⟨m, hm, hind, front, gap, htake, hfront, hgap⟩ :=
      message_bytes fresh vs hsize (Marshall.writes_reqHeader h) hlen
    obtain ⟨u, hu, hrest, -⟩ := Unmarshall.unpackHeader_of_reads (Unmarshall.reads_reqHeader h) hlen
      hfront hgap (hfits hlen hfront hgap)
    rw [← htake] at hu
    exact ⟨m, u, hm, hind, hu, hrest.ok, hrest.yields⟩
  · intro h
    have hlen : (Marshall.replyHeaderBytes h).length ≤ 20 := by show 8 ≤ 20; decide
    obtain ⟨m, hm, hind, front, gap, htake, hfront, hgap⟩ :=
      message_bytes fresh vs hsize (Marshall.writes_replyHeader h) hlen
    obtain ⟨u, hu, hrest, hbuf⟩ := Unmarshall.unpackHeader_of_reads (Unmarshall.reads_replyHeader h)
      hlen hfront hgap (hfits hlen hfront hgap)
    rw [← htake] at hu
    -- `take_in` starts behind the space of the header again
    have hsplit : u.buf = front ++ Marshall.replyHeaderBytes h ++ gap ++ WireValue.encodeAll vs := by
      rw [hbuf]
      simp only [List.append_assoc]
    have hspace : (front ++ Marshall.replyHeaderBytes h ++ gap).length = rpcHeaderSz := by
      simp only [List.length_append, rpcHeaderSz]
      omega
    exact ⟨m, u, hm, hind, hu, hrest.ok,
      (Unmarshall.rest_takeIn hsplit hspace hrest.size).yields⟩

/-- An `int`, an `unsigned long long`, a string and a map from characters to vectors of strings, behind
a request header. -/
theorem wire_round_trip_test :
    let vs : List WireValue := [⟨.int, (-12345 : Int32)⟩, ⟨.ulonglong, (1223344455 : UInt64)⟩,
      ⟨.string, ([104, 97, 108, 108, 111] : Str)⟩,
      ⟨.map .char (.vector .string),
        (OrderedMap.empty : OrderedMap WireType.char.Val (List Str)).insertOrAssign (-1 : Int8) [[98]]⟩]
    ∃ m u, (WireValue.putAll vs >=> Marshall.packReqHeader ⟨1, 2, 3, 4, 5⟩)
        (Marshall.init (fun _ => 0)) = some m ∧
      Unmarshall.unpackReqHeader (.ofBuf m.takeBuf) = some (⟨1, 2, 3, 4, 5⟩, u) ∧ u.Yields vs := by
  intro vs
  obtain ⟨m, u, hm, -, hu, -, hyields⟩ := (wire_round_trip (fun _ => 0) vs (by decide)).1 ⟨1, 2, 3, 4, 5⟩
  exact ⟨m, u, hm, hu, hyields⟩
