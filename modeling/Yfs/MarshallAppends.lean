/-
# The room in a marshall buffer (`rpc/marshall.h`, `rpc/rpc.cc`)

`rawbyte` doubles a full buffer; `rawbytes` doubles it or adds the length of the new bytes, whichever is
needed.  The headers are packed at any time into the space at the front, with `_ind` set back and
restored.  In `Yfs.Marshall` an operation fails when a capacity does not fit in an `int` or a byte would be
stored beyond it; here no operation of a run fails, as long as the whole stays below `2 ^ 30` bytes.

`Holds m bs`: there is room in `m`, and behind the space for the header it holds the bytes `bs`.
-/
import Yfs.Marshall

namespace Marshall

/-! ## Runs -/

/-- An append, or the packing of a header. -/
inductive MarshallOp
  | rawbyte (x : UInt8)
  | rawbytes (p : List UInt8) (n : Int32)
  | packReqHeader (h : ReqHeader)
  | packReplyHeader (h : ReplyHeader)

namespace MarshallOp

def put : MarshallOp → Put
  | rawbyte x => Marshall.rawbyte x
  | rawbytes p n => Marshall.rawbytes p n
  | packReqHeader h => Marshall.packReqHeader h
  | packReplyHeader h => Marshall.packReplyHeader h

/-- The bytes that are appended. -/
def bytes : MarshallOp → List UInt8
  | rawbyte x => [x]
  | rawbytes p n => p.take n.toInt.toNat
  | packReqHeader _ => []
  | packReplyHeader _ => []

/-- The pointer of `rawbytes(p, n)` leads to `n` bytes, and `n` is not negative. -/
def Valid : MarshallOp → Prop
  | rawbytes p n => 0 ≤ n.toInt ∧ n.toInt.toNat ≤ p.length
  | _ => True

end MarshallOp

/-- The operations, one after another. -/
def run (ops : List MarshallOp) : Put := putAll (ops.map MarshallOp.put)

/-- The bytes that the operations append. -/
def appended (ops : List MarshallOp) : List UInt8 := ops.flatMap MarshallOp.bytes

/-- `size`. -/
def size (m : Marshall) : ℕ := m.ind

/-- `get_content`. -/
def getContent (m : Marshall) : List UInt8 := slice m.buf rpcHeaderSz (m.ind - rpcHeaderSz)

/-! ## What a buffer holds -/

/-- The buffer has room, and behind the header it holds `bs`. -/
structure Holds (m : Marshall) (bs : List UInt8) : Prop where
  room : Room m
  ind : m.ind = rpcHeaderSz + bs.length
  bytes : slice m.buf rpcHeaderSz bs.length = bs

section Holds

variable {m : Marshall} {bs bs' : List UInt8}

theorem Holds.size_eq (h : Holds m bs) : m.size = rpcHeaderSz + bs.length := h.ind

theorem Holds.getContent_eq (h : Holds m bs) : m.getContent = bs := by
  rw [getContent, h.ind, Nat.add_sub_cancel_left]
  exact h.bytes

theorem holds_init (buf : ℕ → UInt8) : Holds (init buf) [] := ⟨room_init buf, rfl, rfl⟩

/-- An append goes behind what is there. -/
theorem Holds.append {p : Put} (h : Holds m bs) (hp : Writes p bs')
    (hlen : rpcHeaderSz + (bs ++ bs').length < 2 ^ 30) : ∃ m', p m = some m' ∧ Holds m' (bs ++ bs') := by
  rw [List.length_append] at hlen
  obtain ⟨m', hm', hroom, -, hbuf, hind⟩ := hp m h.room (by rw [h.ind]; omega)
  refine ⟨m', hm', hroom, ?_, ?_⟩
  · rw [hind, h.ind, List.length_append, Nat.add_assoc]
  · rw [hbuf, h.ind, List.length_append, slice_add, slice_store_self,
      slice_store_of_disjoint (.inl le_rfl), h.bytes]

/-- A header goes before it. -/
theorem Holds.packHeader {p : Put} {hdr : List UInt8} (h : Holds m bs) (hp : Writes p hdr)
    (hhdr : hdr.length ≤ 20) : ∃ m', Marshall.packHeader p m = some m' ∧ Holds m' bs := by
  obtain ⟨m', hm', hroom, hbuf, hind⟩ :=
    packHeader_of_writes hp hhdr h.room (by rw [h.ind]; exact Nat.le_add_right _ _)
  refine ⟨m', hm', hroom, hind.trans h.ind, ?_⟩
  rw [hbuf, slice_store_of_disjoint]
  · exact h.bytes
  · right
    show 4 + hdr.length ≤ 24
    omega

/-- `rawbytes` looks at the first `n` bytes of its argument only. -/
theorem writes_rawbytes_take {p : List UInt8} {n : Int32} (h0 : 0 ≤ n.toInt)
    (hn : n.toInt.toNat ≤ p.length) : Writes (rawbytes p n) (p.take n.toInt.toNat) := by
  have hlen : (p.take n.toInt.toNat).length = n.toInt.toNat := by
    rw [List.length_take, Nat.min_eq_left hn]
  have heq : rawbytes p n =
      rawbytes (p.take n.toInt.toNat) (Int32.ofNat (p.take n.toInt.toNat).length) := by
    have hint : (Int32.ofNat n.toInt.toNat).toInt = n.toInt := by
      have hlt := n.toInt_lt
      rw [Int32.toInt_ofNat_of_lt (by omega)]
      exact Int.toNat_of_nonneg h0
    funext m
    unfold rawbytes
    rw [hlen, hint]
    simp only [h0, hn, le_refl, and_self, if_true, List.take_take, Nat.min_self]
  rw [heq]
  exact writes_rawbytes _

/-- **One operation** appends its bytes. -/
theorem Holds.step {o : MarshallOp} (h : Holds m bs) (ho : o.Valid)
    (hlen : rpcHeaderSz + (bs ++ o.bytes).length < 2 ^ 30) :
    ∃ m', o.put m = some m' ∧ Holds m' (bs ++ o.bytes) := by
  cases o with
  | rawbyte x => exact h.append (writes_rawbyte x) hlen
  | rawbytes p n => exact h.append (writes_rawbytes_take ho.1 ho.2) hlen
  | packReqHeader hd =>
    rw [MarshallOp.bytes, List.append_nil]
    exact h.packHeader (writes_reqHeader hd) (by simp [reqHeaderBytes])
  | packReplyHeader hd =>
    rw [MarshallOp.bytes, List.append_nil]
    exact h.packHeader (writes_replyHeader hd) (by simp [replyHeaderBytes])

/-- **A run** appends the bytes of its operations, in order. -/
theorem Holds.run {ops : List MarshallOp} (h : Holds m bs) (hvalid : ∀ o ∈ ops, o.Valid)
    (hlen : rpcHeaderSz + (bs ++ appended ops).length < 2 ^ 30) :
    ∃ m', Marshall.run ops m = some m' ∧ Holds m' (bs ++ appended ops) := by
  induction ops generalizing m bs with
  | nil =>
    refine ⟨m, rfl, ?_⟩
    rw [appended, List.flatMap_nil, List.append_nil]
    exact h
  | cons o ops ih =>
    have hcons : bs ++ appended (o :: ops) = bs ++ o.bytes ++ appended ops := by
      rw [appended, List.flatMap_cons, List.append_assoc]
      rfl
    rw [hcons] at hlen ⊢
    have hstep : rpcHeaderSz + (bs ++ o.bytes).length < 2 ^ 30 := by
      rw [List.length_append] at hlen
      omega
    obtain ⟨m₁, h₁, hm₁⟩ := h.step (hvalid o (List.mem_cons_self ..)) hstep
    obtain ⟨m', h', hm'⟩ := ih hm₁ (fun o' ho' => hvalid o' (List.mem_cons_of_mem _ ho')) hlen
    refine ⟨m', ?_, hm'⟩
    show (o.put m).bind (Marshall.run ops) = some m'
    rw [h₁, Option.bind_some, h']

end Holds

/-- **The marshall buffer always has room.**  After every prefix of a run that stays below `2 ^ 30` bytes
no operation has failed, `_ind` is within a capacity that fits in an `int`, the content is what has been
appended, and packing a header changes neither the size nor the content. -/
theorem always_room (buf : ℕ → UInt8) {ops : List MarshallOp} (hvalid : ∀ o ∈ ops, o.Valid)
    (hlen : rpcHeaderSz + (appended ops).length < 2 ^ 30) {done : List MarshallOp}
    (hdone : done <+: ops) :
    ∃ m, run done (init buf) = some m ∧ m.ind ≤ m.capa ∧ m.capa < 2 ^ 31 ∧
      m.size = rpcHeaderSz + (appended done).length ∧ m.getContent = appended done ∧
      (∀ h, ∃ m', packReqHeader h m = some m' ∧ m'.size = m.size ∧ m'.getContent = m.getContent) ∧
      ∀ h, ∃ m', packReplyHeader h m = some m' ∧ m'.size = m.size ∧ m'.getContent = m.getContent := by
  obtain ⟨rest, rfl⟩ := hdone
  have hlen' : rpcHeaderSz + (appended done).length < 2 ^ 30 := by
    rw [appended, List.flatMap_append, List.length_append] at hlen
    unfold appended
    omega
  obtain ⟨m, hm, hholds⟩ := (holds_init buf).run
    (fun o ho => hvalid o (List.mem_append_left _ ho)) (by rwa [List.nil_append])
  rw [List.nil_append] at hholds
  refine ⟨m, hm, hholds.room.ind, hholds.room.capa, hholds.size_eq, hholds.getContent_eq, ?_, ?_⟩
  · intro h
    obtain ⟨m', hm', hholds'⟩ := hholds.packHeader (writes_reqHeader h) (by simp [reqHeaderBytes])
    exact ⟨m', hm', hholds'.size_eq.trans hholds.size_eq.symm,
      hholds'.getContent_eq.trans hholds.getContent_eq.symm⟩
  · intro h
    obtain ⟨m', hm', hholds'⟩ := hholds.packHeader (writes_replyHeader h) (by simp [replyHeaderBytes])
    exact ⟨m', hm', hholds'.size_eq.trans hholds.size_eq.symm,
      hholds'.getContent_eq.trans hholds.getContent_eq.symm⟩

/-- A byte, a header, and two of three bytes. -/
theorem always_room_three :
    ∃ m, run [.rawbyte 7, .packReplyHeader ⟨1, 0⟩, .rawbytes [8, 9, 10] 2] (init (fun _ => 0)) = some m ∧
      m.getContent = [7, 8, 9] := by
  have hvalid : ∀ o ∈ [MarshallOp.rawbyte 7, .packReplyHeader ⟨1, 0⟩, .rawbytes [8, 9, 10] 2],
      o.Valid := by
    simp only [List.forall_mem_cons, List.not_mem_nil, false_imp_iff, implies_true, and_true]
    exact ⟨trivial, trivial, by decide, by decide⟩
  obtain ⟨m, hm, -, -, -, hcontent, -⟩ :=
    always_room (fun _ => 0) hvalid (by decide) (List.prefix_refl _)
  exact ⟨m, hm, hcontent.trans (by decide)⟩

end Marshall
