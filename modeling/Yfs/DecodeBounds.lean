/-
# The bounds of decoding (`rpc/rpc.cc`, `rpc/marshall.h`, `rpc/rpc.h`)

A request is decoded from a buffer of the peer's choice: `dispatch` unpacks the header, the handler
extracts its arguments one after another, and calls its method only when `okdone()` holds.  An
`operator>>` that runs out of bytes clears `_ok`.  This file says when all of this stays inside the
buffer.

* `Takes g w`: the operation reads `w` bytes or clears `_ok`, and never reads beyond the buffer.  All
  operators of a fixed width are such, since every byte goes through `rawbyte`, which looks at `_sz`.
* `rawbytes` compares `_ind + n` with `_sz` in 32 bits, and `n` is the length the peer declares for a
  string.  When the sum reaches `2 ^ 32` it wraps around and passes the comparison, and the string is
  copied from beyond the buffer (`getString_spec`).

So the decoding of a request is safe if and only if no string that is reached declares such a length
(`decodes_iff`).
-/
import Yfs.WireFormat
import Yfs.Connection

open NetworkOrder

/-! ## The arguments of a handler -/

/-- The types of arguments a handler extracts. -/
inductive ArgType
  | bool
  | char
  | uchar
  | short
  | ushort
  | int
  | uint
  | ulonglong
  | string
  | attr
  deriving DecidableEq, Repr

namespace ArgType

/-- The type on the wire. -/
def type : ArgType → (o : Bool) × WireType o
  | bool => ⟨_, .bool⟩
  | char => ⟨_, .char⟩
  | uchar => ⟨_, .uchar⟩
  | short => ⟨_, .short⟩
  | ushort => ⟨_, .ushort⟩
  | int => ⟨_, .int⟩
  | uint => ⟨_, .uint⟩
  | ulonglong => ⟨_, .ulonglong⟩
  | string => ⟨_, .string⟩
  | attr => ⟨_, .attr⟩

/-- The length in the first four bytes, an `unsigned int`. -/
def sizeWord : List UInt8 → ℕ
  | a :: b :: c :: d :: _ => (word32 a b c d).toNat
  | _ => 0

/-- The number of bytes a value takes at the beginning of `rest`. -/
def needs (rest : List UInt8) : ArgType → ℕ
  | bool => 1
  | char => 1
  | uchar => 1
  | short => 2
  | ushort => 2
  | int => 4
  | uint => 4
  | ulonglong => 8
  | string => 4 + sizeWord rest
  | attr => 28

end ArgType

namespace Unmarshall

/-- The bytes that remain. -/
def rest (u : Unmarshall) : List UInt8 := u.buf.drop u.ind

/-- `fn` of a registered handler up to the call of its method: the arguments the method is called with,
or `none` when `fn` returns `unmarshal_args_failure`. -/
def handlerArgs (fs : List ArgType) : Get (Option (List WireValue)) := do
  let vs ← WireValue.getAll (fs.map ArgType.type)
  let u ← get
  return if u.okdone then some vs else none

/-- The extractions of a handler are safe: none reads beyond the buffer, one that needs more bytes than
remain clears `_ok`, `_ok` is never set again, and once it is cleared the method is not called. -/
def Decodes : List ArgType → Unmarshall → Prop
  | [], _ => True
  | f :: fs, u => ∃ v u', f.type.2.get u = some (v, u') ∧
      (u.rest.length < f.needs u.rest → u'.ok = false) ∧
      (u.ok = false → u'.ok = false) ∧
      (u'.ok = false → ∃ u'', handlerArgs fs u' = some (none, u'')) ∧
      Decodes fs u'

/-- No string that is reached, in the bytes `rest` from the position `pos` on, declares a length that
makes the sum with the position behind it wrap around. -/
def NoWrap : List ArgType → ℕ → List UInt8 → Prop
  | [], _, _ => True
  | f :: fs, pos, rest =>
    (f = .string → 4 ≤ rest.length → pos + 4 + ArgType.sizeWord rest < 2 ^ 32) ∧
      (f.needs rest ≤ rest.length → NoWrap fs (pos + f.needs rest) (rest.drop (f.needs rest)))

/-! ## Operators of a fixed width -/

/-- The operation takes `w` bytes, or clears `_ok`. -/
def Takes {α : Type} (g : Get α) (w : ℕ) : Prop :=
  ∀ u, ∃ a u', g u = some (a, u') ∧ u'.buf = u.buf ∧ u.ind ≤ u'.ind ∧
    (u.ind + w ≤ u.buf.length → u'.ind = u.ind + w ∧ u'.ok = u.ok) ∧
    (u.buf.length < u.ind + w → 0 < w → u'.ok = false) ∧
    (u.ok = false → u'.ok = false)

variable {α β : Type}

theorem takes_pure (a : α) : Takes (pure a) 0 := by
  intro u
  exact ⟨a, u, rfl, rfl, le_rfl, fun _ => ⟨rfl, rfl⟩, fun _ h => absurd h (lt_irrefl 0), id⟩

theorem takes_rawbyte : Takes rawbyte 1 := by
  intro u
  unfold rawbyte
  split_ifs with hend
  · exact ⟨_, _, rfl, rfl, le_rfl, fun h => absurd h (by omega), fun _ _ => rfl, fun _ => rfl⟩
  · exact ⟨_, _, rfl, rfl, by simp, fun _ => ⟨rfl, rfl⟩, fun h _ => absurd h (by omega), id⟩

/-- One operation after another. -/
theorem Takes.bind {g : Get α} {f : α → Get β} {w v : ℕ} (hg : Takes g w)
    (hf : ∀ a, Takes (f a) v) : Takes (g >>= f) (w + v) := by
  intro u
  obtain ⟨a, u₁, h₁, hbuf₁, hind₁, hfit₁, hshort₁, hok₁⟩ := hg u
  obtain ⟨b, u₂, h₂, hbuf₂, hind₂, hfit₂, hshort₂, hok₂⟩ := hf a u₁
  rw [hbuf₁] at hfit₂ hshort₂
  refine ⟨b, u₂, ?_, hbuf₂.trans hbuf₁, hind₁.trans hind₂, ?_, ?_, fun h => hok₂ (hok₁ h)⟩
  · show (g u).bind (fun x => f x.1 x.2) = _
    rw [h₁]
    exact h₂
  · intro hfit
    obtain ⟨hind, hok⟩ := hfit₁ (by omega)
    obtain ⟨hind', hok'⟩ := hfit₂ (by omega)
    exact ⟨by omega, hok'.trans hok⟩
  · intro hshort hpos
    by_cases hfirst : u.ind + w ≤ u.buf.length
    · -- the first operation is done, so the second one runs out of bytes
      have hind := (hfit₁ hfirst).1
      exact hshort₂ (by omega) (by omega)
    · by_cases hw : 0 < w
      · exact hok₂ (hshort₁ (by omega) hw)
      · exact hshort₂ (by omega) (by omega)

/-- The value, converted. -/
theorem Takes.map {g : Get α} {w : ℕ} (hg : Takes g w) (f : α → β) :
    Takes (g >>= fun x => pure (f x)) w :=
  hg.bind (fun x => takes_pure (f x))

theorem takes_getUShort : Takes getUShort 2 :=
  Takes.bind (v := 1) takes_rawbyte (fun _ => Takes.map takes_rawbyte _)

theorem takes_getShort : Takes getShort 2 :=
  Takes.bind (v := 1) takes_rawbyte (fun _ => Takes.map takes_rawbyte _)

theorem takes_getUInt : Takes getUInt 4 :=
  Takes.bind (v := 3) takes_rawbyte fun _ => Takes.bind (v := 2) takes_rawbyte fun _ =>
    Takes.bind (v := 1) takes_rawbyte fun _ => Takes.map takes_rawbyte _

theorem takes_unpack : Takes unpack 4 :=
  Takes.bind (v := 3) takes_rawbyte fun _ => Takes.bind (v := 2) takes_rawbyte fun _ =>
    Takes.bind (v := 1) takes_rawbyte fun _ => Takes.map takes_rawbyte _

theorem takes_getULongLong : Takes getULongLong 8 :=
  Takes.bind (v := 4) takes_getUInt (fun _ => Takes.map takes_getUInt _)

theorem takes_getAttr : Takes getAttr 28 :=
  Takes.bind (v := 24) takes_getUInt fun _ => Takes.bind (v := 20) takes_getUInt fun _ =>
    Takes.bind (v := 16) takes_getUInt fun _ => Takes.bind (v := 12) takes_getUInt fun _ =>
      Takes.bind (v := 8) takes_getUInt fun _ => Takes.bind (v := 4) takes_getUInt fun _ =>
        Takes.map takes_getUInt _

/-- Every operator but that of a string takes as many bytes as it needs. -/
theorem takes_get {f : ArgType} (hf : f ≠ .string) (bs : List UInt8) :
    Takes f.type.2.get (f.needs bs) := by
  cases f with
  | bool => exact Takes.map takes_rawbyte _
  | char => exact Takes.map takes_rawbyte _
  | uchar => exact Takes.map takes_rawbyte _
  | short => exact takes_getShort
  | ushort => exact takes_getUShort
  | int => exact takes_unpack
  | uint => exact takes_getUInt
  | ulonglong => exact takes_getULongLong
  | string => exact absurd rfl hf
  | attr => exact takes_getAttr

/-! ## Strings -/

/-- A 32-bit word is read from any four bytes. -/
theorem reads_word (a b c d : UInt8) : Reads getUInt [a, b, c, d] (word32 a b c d) := by
  refine Reads.byte (Reads.byte (Reads.byte (Reads.byte ?_)))
  simp only [signExtend_and]
  exact reads_pure _

theorem exists_four {l : List UInt8} (h : 4 ≤ l.length) :
    ∃ a b c d post, l = a :: b :: c :: d :: post := by
  rcases l with _ | ⟨a, _ | ⟨b, _ | ⟨c, _ | ⟨d, post⟩⟩⟩⟩
  all_goals simp only [List.length_cons, List.length_nil] at h
  · omega
  · omega
  · omega
  · omega
  · exact ⟨a, b, c, d, post, rfl⟩

/-- The length of a string is read. -/
theorem getUInt_eq {u : Unmarshall} (hsize : u.buf.length < 2 ^ 31) (hok : u.ok = true)
    (hfit : u.ind + 4 ≤ u.buf.length) :
    ∃ n, getUInt u = some (n, { u with ind := u.ind + 4 }) ∧ n.toNat = ArgType.sizeWord u.rest := by
  obtain ⟨n, u', hget, hbuf, -, hfits, -, -⟩ := takes_getUInt u
  obtain ⟨hind, hok'⟩ := hfits hfit
  have hu' : u' = { u with ind := u.ind + 4 } := by
    obtain ⟨buf', ind', ok'⟩ := u'
    simp only at hbuf hind hok'
    rw [hbuf, hind, hok']
  refine ⟨n, by rw [hget, hu'], ?_⟩
  obtain ⟨a, b, c, d, post, hrest⟩ := exists_four (l := u.rest) (by rw [rest, List.length_drop]; omega)
  have hsplit : Rest u ([a, b, c, d] ++ post) := by
    refine ⟨hok, hsize, u.buf.take u.ind, ?_, ?_⟩
    · exact (List.take_append_drop u.ind u.buf).symm.trans (congrArg (u.buf.take u.ind ++ ·) hrest)
    · rw [List.length_take]
      omega
  obtain ⟨u₁, hread, -, -⟩ := reads_word a b c d u post hsplit
  rw [hget] at hread
  rw [hrest, (Prod.mk.inj (Option.some.inj hread)).1]
  rfl

/-- **What `operator>>` of a string does**, with `n` the declared length and `p` the position behind
it: when `p + n` reaches `2 ^ 32` it reads beyond the buffer, else it takes the string or clears
`_ok`. -/
theorem getString_spec {u : Unmarshall} (hsize : u.buf.length < 2 ^ 31) (hok : u.ok = true)
    (hfit : u.ind + 4 ≤ u.buf.length) :
    (2 ^ 32 ≤ u.ind + 4 + ArgType.sizeWord u.rest ∧ getString u = none) ∨
      (u.ind + 4 + ArgType.sizeWord u.rest < 2 ^ 32 ∧
        ∃ s u', getString u = some (s, u') ∧ u'.buf = u.buf ∧
          (u.ind + 4 + ArgType.sizeWord u.rest ≤ u.buf.length →
            u'.ind = u.ind + 4 + ArgType.sizeWord u.rest ∧ u'.ok = true) ∧
          (u.buf.length < u.ind + 4 + ArgType.sizeWord u.rest → u'.ok = false)) := by
  obtain ⟨n, hget, hn⟩ := getUInt_eq hsize hok hfit
  have hstring : getString u = rawbytes [] n { u with ind := u.ind + 4 } := by
    show (getUInt u).bind (fun x => (if x.2.ok then rawbytes [] x.1 else pure []) x.2) = _
    rw [hget]
    show (if u.ok then rawbytes [] n else pure []) { u with ind := u.ind + 4 } = _
    rw [if_pos hok]
  rw [hstring, ← hn]
  have hnlt := n.toNat_lt
  have hsum : (UInt32.ofNat (u.ind + 4) + n).toNat = (u.ind + 4 + n.toNat) % 2 ^ 32 := by
    rw [UInt32.toNat_add, UInt32.toNat_ofNat_of_lt' (by show _ < 2 ^ 32; omega)]
  by_cases hwrap : 2 ^ 32 ≤ u.ind + 4 + n.toNat
  · -- the sum is less than the position, which is inside the buffer
    left
    refine ⟨hwrap, ?_⟩
    unfold rawbytes
    dsimp only
    rw [hsum, if_neg (by omega), if_neg (by omega)]
  · right
    refine ⟨by omega, ?_⟩
    unfold rawbytes
    dsimp only
    rw [hsum, Nat.mod_eq_of_lt (by omega)]
    by_cases hlong : u.buf.length < u.ind + 4 + n.toNat
    · rw [if_pos hlong]
      exact ⟨_, _, rfl, rfl, fun h => absurd h (by omega), fun _ => rfl⟩
    · rw [if_neg hlong, if_pos (by omega)]
      exact ⟨_, _, rfl, rfl, fun _ => ⟨rfl, hok⟩, fun h => absurd h (by omega)⟩

/-- Without its length, or when `_ok` is cleared, a string is not copied. -/
theorem getString_of_not_ok {u : Unmarshall} (h : u.ok = false ∨ u.buf.length < u.ind + 4) :
    ∃ s u', getString u = some (s, u') ∧ u'.buf = u.buf ∧ u'.ok = false := by
  obtain ⟨n, u', hget, hbuf, -, -, hshort, hstays⟩ := takes_getUInt u
  have hok : u'.ok = false := by
    rcases h with hok | hlen
    · exact hstays hok
    · exact hshort hlen (by omega)
  refine ⟨[], u', ?_, hbuf, hok⟩
  show (getUInt u).bind (fun x => (if x.2.ok then rawbytes [] x.1 else pure []) x.2) = _
  rw [hget]
  show (if u'.ok then rawbytes [] n else pure []) u' = _
  rw [if_neg (by rw [hok]; simp)]
  rfl

/-! ## A cleared `_ok` -/

/-- Once `_ok` is cleared, an operator reads nothing beyond the buffer and leaves it cleared. -/
theorem get_of_not_ok (f : ArgType) {u : Unmarshall} (h : u.ok = false) :
    ∃ v u', f.type.2.get u = some (v, u') ∧ u'.buf = u.buf ∧ u'.ok = false := by
  by_cases hf : f = .string
  · subst hf
    exact getString_of_not_ok (.inl h)
  · obtain ⟨v, u', hget, hbuf, -, -, -, hstays⟩ := takes_get hf [] u
    exact ⟨v, u', hget, hbuf, hstays h⟩

/-- Once `_ok` is cleared, the method is not called. -/
theorem handlerArgs_of_not_ok (fs : List ArgType) {u : Unmarshall} (h : u.ok = false) :
    ∃ u', handlerArgs fs u = some (none, u') := by
  have hall : ∃ vs u', WireValue.getAll (fs.map ArgType.type) u = some (vs, u') ∧ u'.ok = false := by
    induction fs generalizing u with
    | nil => exact ⟨[], u, rfl, h⟩
    | cons f fs ih =>
      obtain ⟨v, u₁, hget, -, hok₁⟩ := get_of_not_ok f h
      obtain ⟨vs, u₂, hgets, hok₂⟩ := ih hok₁
      refine ⟨⟨f.type.2, v⟩ :: vs, u₂, ?_, hok₂⟩
      show (f.type.2.get u).bind (fun x => (WireValue.getAll (fs.map ArgType.type) x.2).bind
        (fun y => some (⟨f.type.2, x.1⟩ :: y.1, y.2))) = _
      rw [hget, Option.bind_some, hgets, Option.bind_some]
  obtain ⟨vs, u', hgets, hok⟩ := hall
  refine ⟨u', ?_⟩
  show (WireValue.getAll (fs.map ArgType.type) u).bind
    (fun x => some (if x.2.okdone then some x.1 else none, x.2)) = _
  rw [hgets, Option.bind_some, okdone, hok]
  rfl

theorem decodes_of_not_ok (fs : List ArgType) {u : Unmarshall} (h : u.ok = false) : Decodes fs u := by
  induction fs generalizing u with
  | nil => trivial
  | cons f fs ih =>
    obtain ⟨v, u', hget, -, hok⟩ := get_of_not_ok f h
    exact ⟨v, u', hget, fun _ => hok, fun _ => hok, fun _ => handlerArgs_of_not_ok fs hok, ih hok⟩

/-! ## When the decoding is safe -/

/-- An extraction that succeeds goes on with the rest, and one that fails decides the matter. -/
theorem decodes_cons_iff {f : ArgType} {fs : List ArgType} {u : Unmarshall} {v : f.type.2.Val}
    {u' : Unmarshall} (hget : f.type.2.get u = some (v, u')) (hok : u.ok = true)
    (hshort : u.rest.length < f.needs u.rest → u'.ok = false) :
    Decodes (f :: fs) u ↔ Decodes fs u' := by
  constructor
  · rintro ⟨v₁, u₁, hget₁, -, -, -, hrest⟩
    rw [hget] at hget₁
    rwa [(Prod.mk.inj (Option.some.inj hget₁)).2]
  · intro hrest
    refine ⟨v, u', hget, hshort, ?_, fun h => handlerArgs_of_not_ok fs h, hrest⟩
    intro h
    rw [hok] at h
    cases h

theorem length_rest (u : Unmarshall) : u.rest.length = u.buf.length - u.ind := List.length_drop

/-- **The extractions of a handler are safe if and only if no string wraps around.** -/
theorem decodes_iff_noWrap (fs : List ArgType) {u : Unmarshall} (hsize : u.buf.length < 2 ^ 31)
    (hok : u.ok = true) (hind : u.ind ≤ u.buf.length) : Decodes fs u ↔ NoWrap fs u.ind u.rest := by
  induction fs generalizing u with
  | nil => exact Iff.rfl
  | cons f fs ih =>
    have hlen := length_rest u
    -- an operator that takes the bytes it needs goes on behind them
    have hnext : ∀ u' : Unmarshall, u'.buf = u.buf → u'.ok = true →
        u'.ind = u.ind + f.needs u.rest → f.needs u.rest ≤ u.rest.length →
        (Decodes fs u' ↔ NoWrap fs (u.ind + f.needs u.rest) (u.rest.drop (f.needs u.rest))) := by
      intro u' hbuf hok' hind' hfits
      have hrest : u'.rest = u.rest.drop (f.needs u.rest) := by
        show u'.buf.drop u'.ind = (u.buf.drop u.ind).drop _
        rw [hbuf, hind', List.drop_drop]
      rw [ih (by rwa [hbuf]) hok' (by rw [hbuf, hind']; omega), hind', hrest]
    by_cases hf : f = .string
    · subst hf
      have hneeds : ArgType.string.needs u.rest = 4 + ArgType.sizeWord u.rest := rfl
      by_cases hfour : u.ind + 4 ≤ u.buf.length
      · rcases getString_spec hsize hok hfour with ⟨hwrap, hnone⟩ | ⟨hno, s, u', hget, hbuf, hfit, hlong⟩
        · refine iff_of_false ?_ ?_
          · rintro ⟨v, u', hget, -⟩
            rw [show ArgType.string.type.2.get u = none from hnone] at hget
            cases hget
          · rintro ⟨hstring, -⟩
            have := hstring rfl (by omega)
            omega
        · rw [decodes_cons_iff (f := .string) hget hok (fun h => hlong (by omega)), NoWrap]
          by_cases hfits : u.ind + 4 + ArgType.sizeWord u.rest ≤ u.buf.length
          · obtain ⟨hind', hok'⟩ := hfit hfits
            rw [hnext u' hbuf hok' (by omega) (by omega)]
            exact ⟨fun h => ⟨fun _ _ => hno, fun _ => h⟩, fun h => h.2 (by omega)⟩
          · refine iff_of_true (decodes_of_not_ok fs (hlong (by omega))) ⟨fun _ _ => hno, ?_⟩
            intro h
            omega
      · obtain ⟨s, u', hget, hbuf, hok'⟩ := getString_of_not_ok (u := u) (.inr (by omega))
        rw [decodes_cons_iff (f := .string) hget hok (fun _ => hok'), NoWrap]
        refine iff_of_true (decodes_of_not_ok fs hok') ⟨fun _ h => ?_, fun h => ?_⟩
        · omega
        · omega
    · obtain ⟨v, u', hget, hbuf, -, hfit, hshort, -⟩ := takes_get hf u.rest u
      rw [decodes_cons_iff hget hok (fun h => hshort (by omega) (by omega)), NoWrap]
      by_cases hfits : f.needs u.rest ≤ u.rest.length
      · obtain ⟨hind', hok'⟩ := hfit (by omega)
        rw [hnext u' hbuf (hok'.trans hok) hind' hfits]
        exact ⟨fun h => ⟨fun hs => absurd hs hf, fun _ => h⟩, fun h => h.2 hfits⟩
      · refine iff_of_true (decodes_of_not_ok fs (hshort (by omega) (by omega)))
          ⟨fun hs => absurd hs hf, fun h => absurd h hfits⟩

/-! ## Requests -/

/-- A header is read, or `_ok` is cleared. -/
theorem unpackHeader_spec {g : Get α} {w : ℕ} (hg : Takes g w) (hw : 0 < w) (b : List UInt8) :
    ∃ h u, unpackHeader g (ofBuf b) = some (h, u) ∧ u.buf = b ∧ u.ind = rpcHeaderSz ∧
      (4 + w ≤ b.length → u.ok = true) ∧ (b.length < 4 + w → u.ok = false) := by
  obtain ⟨h, u, hget, hbuf, -, hfit, hshort, -⟩ := hg ⟨b, 4, true⟩
  refine ⟨h, { u with ind := rpcHeaderSz }, ?_, hbuf, rfl, fun hlen => (hfit hlen).2,
    fun hlen => hshort hlen hw⟩
  show (g ⟨b, 4, true⟩).bind (fun x => some (x.1, { x.2 with ind := rpcHeaderSz })) = _
  rw [hget]
  rfl

theorem takes_reqHeader : Takes (do
    let xid ← unpack
    let proc ← unpack
    let cltNonce ← unpack
    let srvNonce ← unpack
    let xidRep ← unpack
    return (⟨xid, proc, cltNonce.toUInt32, srvNonce.toUInt32, xidRep⟩ : ReqHeader)) 20 :=
  Takes.bind (v := 16) takes_unpack fun _ => Takes.bind (v := 12) takes_unpack fun _ =>
    Takes.bind (v := 8) takes_unpack fun _ => Takes.bind (v := 4) takes_unpack fun _ =>
      Takes.map takes_unpack _

theorem takes_replyHeader : Takes (do
    let xid ← unpack
    let ret ← unpack
    return (⟨xid, ret⟩ : ReplyHeader)) 8 :=
  Takes.bind (v := 4) takes_unpack fun _ => Takes.map takes_unpack _

/-- **When the decoding of a PDU stays inside it, exactly.**  For any bytes up to `MAX_PDU` and any
arguments: both headers are unpacked inside the buffer, with `_ok` cleared when it is too short, and
after the request header every extraction stays inside the buffer, clears `_ok` for good when bytes are
missing, and keeps the method from being called then; if and only if no string that is reached declares
a length that, added to the position behind it, is `2 ^ 32` or more. -/
theorem decodes_iff (fs : List ArgType) (b : List UInt8) (hb : (b.length : ℤ) ≤ maxPdu) :
    ((∃ h u, unpackReplyHeader (ofBuf b) = some (h, u) ∧ (b.length < 12 → u.ok = false)) ∧
      ∃ h u, unpackReqHeader (ofBuf b) = some (h, u) ∧ (b.length < rpcHeaderSz → u.ok = false) ∧
        Decodes fs u) ↔
      NoWrap fs rpcHeaderSz (b.drop rpcHeaderSz) := by
  have hsize : b.length < 2 ^ 31 := by
    unfold maxPdu at hb
    omega
  obtain ⟨h₁, u₁, hget₁, -, -, -, hshort₁⟩ := unpackHeader_spec takes_replyHeader (by omega) b
  obtain ⟨h, u, hget, hbuf, hind, hfit, hshort⟩ := unpackHeader_spec takes_reqHeader (by omega) b
  have hrest : u.rest = b.drop rpcHeaderSz := by rw [rest, hbuf, hind]
  have hdecodes : Decodes fs u ↔ NoWrap fs rpcHeaderSz (b.drop rpcHeaderSz) := by
    by_cases hlen : rpcHeaderSz ≤ b.length
    · have := decodes_iff_noWrap fs (u := u) (by rwa [hbuf]) (hfit hlen) (by rwa [hbuf, hind])
      rwa [hind, hrest] at this
    · -- a PDU without a whole header has no arguments either
      have hnil : b.drop rpcHeaderSz = [] := List.drop_eq_nil_of_le (by omega)
      rw [hnil]
      refine iff_of_true (decodes_of_not_ok fs (hshort (by unfold rpcHeaderSz at hlen; omega))) ?_
      cases fs with
      | nil => trivial
      | cons f fs =>
        refine ⟨fun _ h => absurd h (by simp), fun h => ?_⟩
        cases f <;> simp [ArgType.needs] at h
  rw [← hdecodes]
  constructor
  · rintro ⟨-, h', u', hget', -, hd⟩
    rw [show unpackReqHeader (ofBuf b) = some (h, u) from hget] at hget'
    rwa [(Prod.mk.inj (Option.some.inj hget')).2]
  · intro hd
    exact ⟨⟨h₁, u₁, hget₁, hshort₁⟩, h, u, hget, hshort, hd⟩

/-- A request with an `int` and a string of two bytes. -/
theorem decodes_int_string :
    let b := List.replicate 24 0 ++ [0, 0, 0, 7, 0, 0, 0, 2, 104, 105]
    (∃ h u, unpackReplyHeader (ofBuf b) = some (h, u) ∧ (b.length < 12 → u.ok = false)) ∧
      ∃ h u, unpackReqHeader (ofBuf b) = some (h, u) ∧ (b.length < rpcHeaderSz → u.ok = false) ∧
        Decodes [.int, .string] u := by
  intro b
  refine (decodes_iff [.int, .string] b (by decide)).mpr ?_
  have hrest : b.drop rpcHeaderSz = [0, 0, 0, 7, 0, 0, 0, 2, 104, 105] := by decide
  rw [hrest]
  exact ⟨fun h => (by cases h), fun _ => ⟨fun _ _ => (by decide), fun _ => trivial⟩⟩

/-- A string that declares `2 ^ 32 - 1` bytes, of which none is there: it is copied from beyond the
buffer. -/
theorem decodes_beyond :
    ¬ ∀ (fs : List ArgType) (b : List UInt8), (b.length : ℤ) ≤ maxPdu →
      (∃ h u, unpackReplyHeader (ofBuf b) = some (h, u) ∧ (b.length < 12 → u.ok = false)) ∧
      ∃ h u, unpackReqHeader (ofBuf b) = some (h, u) ∧ (b.length < rpcHeaderSz → u.ok = false) ∧
        Decodes fs u := by
  intro h
  let b : List UInt8 := List.replicate 24 0 ++ [255, 255, 255, 255]
  obtain ⟨-, hd, u, hget, -, v, u', hstring, -⟩ := h [.string] b (by decide)
  have hu : unpackReqHeader (ofBuf b) = some (⟨0, 0, 0, 0, 0⟩, ⟨b, 24, true⟩) := by decide
  rw [hu] at hget
  rw [← (Prod.mk.inj (Option.some.inj hget)).2] at hstring
  have hnone : getString ⟨b, 24, true⟩ = none := by decide
  rw [show ArgType.string.type.2.get _ = none from hnone] at hstring
  cases hstring

end Unmarshall
