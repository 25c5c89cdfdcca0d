/-
# Connections (`rpc/connection.cc`)

A `connection` sends PDUs for any number of threads and receives PDUs for its `chanmgr`.  Everything
it does to its state happens in critical sections of `m_`, and a critical section is one step:

* `send` from its start, or from a wake-up on `send_wait_` or `send_complete_`, or from its return
  from `block_remove_fd`, to the point where it gives `m_` up again;
* `write_cb`, `read_cb` and the first part of `closeconn`.

What the operating system answers to `write` and `read` is an argument of the step, and so is the
answer of `got_pdu`.  A `VERIFY` that fails ends the process: there is no step.  The lossy tests only
shut the socket down, which shows in the answers.

* Waits may end without a signal (`spurious`).
* At most one thread waits on `send_complete_`, the one whose buffer is in `wpdu_`, so that the signal
  on it wakes whoever waits.
* `obtained`, `written`, `taken` and `accepted` record what has happened: the buffers in the order in
  which they were put into `wpdu_`, the bytes written, the bytes read, the PDUs `got_pdu` has taken.
-/
import Yfs.ExtentServer
import Yfs.NetworkOrder

open NetworkOrder

/-- `MAX_PDU`. -/
def maxPdu : ℤ := 10 * 2 ^ 20

/-- `connection::charbuf`.  Only the bytes that count are kept: those of the sender's buffer, or those
received so far. -/
structure Charbuf where
  buf : Option Str
  sz : ℤ
  solong : ℤ
  deriving DecidableEq, Repr

/-- The default constructor. -/
def Charbuf.empty : Charbuf := ⟨none, 0, 0⟩

/-- What `write` comes back with: the number of bytes taken, `EAGAIN`, or another error. -/
inductive WriteResult
  | wrote (n : ℕ)
  | again
  | failed
  deriving DecidableEq, Repr

/-- What `read` comes back with: some bytes, `0` (with `errno` being `EAGAIN` from an earlier call or
not), `EAGAIN`, or another error. -/
inductive ReadResult
  | data (bs : Str)
  | zero (again : Bool)
  | again
  | failed
  deriving DecidableEq, Repr

/-- A `write` takes at most the bytes it is given. -/
def WriteResult.Fits (n : ℕ) : WriteResult → Prop
  | wrote k => k ≤ n
  | _ => True

/-- A `read` returns at most the bytes it is asked for. -/
def ReadResult.Fits (n : ℕ) : ReadResult → Prop
  | data bs => bs ≠ [] ∧ bs.length ≤ n
  | _ => True

instance (n : ℕ) (r : ReadResult) : Decidable (r.Fits n) :=
  match r with
  | .data bs => inferInstanceAs (Decidable (bs ≠ [] ∧ bs.length ≤ n))
  | .zero _ => .isTrue trivial
  | .again => .isTrue trivial
  | .failed => .isTrue trivial

/-! ## The PDUs -/

/-- The `int` in the first four bytes, `ntohl`. -/
def pduSize : Str → ℤ
  | a :: b :: c :: d :: _ => (word32 a b c d).toInt32.toInt
  | _ => 0

/-- `bcopy` of `htonl(sz)` over the first four bytes of a buffer. -/
def stamp (sz : ℤ) (b : Str) : Str := be32 (UInt32.ofInt sz) ++ b.drop 4

/-- `connection::writepdu`: whether it succeeds, `wpdu_` after it, and the bytes that went out.
`wpdu_.solong` is negative only on a dead connection, where it is not called. -/
def writepdu (w : Charbuf) (r : WriteResult) : Bool × Charbuf × Str :=
  if w.solong = w.sz then (true, w, [])
  else
    let buf := if w.solong = 0 then stamp w.sz (w.buf.getD []) else w.buf.getD []
    match r with
    | .wrote n => (true, ⟨some buf, w.sz, w.solong + n⟩, (buf.drop w.solong.toNat).take n)
    | .again => (true, ⟨some buf, w.sz, w.solong⟩, [])
    | .failed => (false, ⟨some buf, 0, -1⟩, [])

/-- The first `read` of `readpdu`, for the size of the PDU. -/
def readHeader (p : Charbuf) : ReadResult → Option (Bool × Charbuf × Str)
  | .data [a, b, c, d] =>
    if maxPdu < pduSize [a, b, c, d] then some (false, p, [a, b, c, d])
    else if p.buf.isSome then none
    else some (true, ⟨some [a, b, c, d], pduSize [a, b, c, d], 4⟩, [a, b, c, d])
  | .data bs => some (false, p, bs)
  | .zero _ => some (false, p, [])
  | .failed => some (false, p, [])
  | .again => none

/-- The second `read` of `readpdu`, for the rest of the PDU. -/
def readBody (p : Charbuf) : ReadResult → Bool × Charbuf × Str
  | .data bs => (true, ⟨p.buf.map (· ++ bs), p.sz, p.solong + bs.length⟩, bs)
  | .zero true => (true, p, [])
  | .again => (true, p, [])
  | .zero false => (false, .empty, [])
  | .failed => (false, .empty, [])

/-- `connection::readpdu`: whether it succeeds, `rpdu_` after it, and the bytes that came in; `none`
when a `VERIFY` fails. -/
def readpdu (p : Charbuf) (r₁ r₂ : ReadResult) : Option (Bool × Charbuf × Str) :=
  if p.sz = 0 then
    match readHeader p r₁ with
    | some (true, p, got) =>
      let (ok, p, more) := readBody p r₂
      some (ok, p, got ++ more)
    | res => res
  else some (readBody p r₂)

/-- What is missing in `rpdu_`, as a `size_t`. -/
def Charbuf.request (p : Charbuf) : ℕ := ((p.sz - p.solong) % 2 ^ 64).toNat

/-- The length the second `read` is asked for, if `readpdu` gets there. -/
def bodyRequest (p : Charbuf) (r₁ : ReadResult) : Option ℕ :=
  if p.sz = 0 then
    match readHeader p r₁ with
    | some (true, p, _) => some p.request
    | _ => none
  else some p.request

/-- The answers to the two reads are no longer than what is asked for. -/
def ReadsFit (p : Charbuf) (r₁ r₂ : ReadResult) : Prop :=
  r₁.Fits 4 ∧ ∀ n ∈ bodyRequest p r₁, r₂.Fits n

/-! ## A connection and its threads -/

/-- The fields of a `connection` that change. -/
structure Connection where
  wpdu : Charbuf
  rpdu : Charbuf
  dead : Bool
  waiters : ℕ
  deriving DecidableEq, Repr

/-- Where a thread is in `send`: not in it (with what the last call has returned), waiting on
`send_wait_` with its buffer, waiting on `send_complete_`, or in `block_remove_fd`.  The flag says that
it has been woken and waits for `m_`. -/
inductive Phase
  | idle (ret : Option Bool)
  | sendWait (b : Str) (woken : Bool)
  | sendComplete (woken : Bool)
  | removing
  deriving DecidableEq, Repr

/-- The thread after a broadcast on `send_wait_`. -/
def Phase.wakeWait : Phase → Phase
  | sendWait b _ => sendWait b true
  | p => p

/-- The thread after a signal on `send_complete_`. -/
def Phase.wakeComplete : Phase → Phase
  | sendComplete _ => sendComplete true
  | p => p

/-- A connection, its threads, and what has happened to it. -/
structure Endpoint (τ : Type) where
  conn : Connection
  phase : τ → Phase
  obtained : List Str
  written : Str
  taken : Str
  accepted : List Str

/-- The steps of a connection. -/
inductive ConnAct (τ : Type)
  | send (t : τ) (b : Str) (r : WriteResult)
  | recheckWait (t : τ) (r : WriteResult)
  | recheckComplete (t : τ)
  | removed (t : τ)
  | spurious (t : τ)
  | writeCb (r : WriteResult)
  | readCb (r₁ r₂ : ReadResult) (acc : Bool)
  | closeconn

namespace Endpoint

variable {τ : Type} [DecidableEq τ]

/-- A connection fresh from its constructor. -/
def init : Endpoint τ := ⟨⟨.empty, .empty, false, 0⟩, fun _ => .idle none, [], [], [], []⟩

/-- The thread `t` is now in the phase `p`. -/
def setPhase (e : Endpoint τ) (t : τ) (p : Phase) : Endpoint τ :=
  { e with phase := Function.update e.phase t p }

/-- The end of `send`: `wpdu_` is given back, and a broadcast is sent if somebody waits. -/
def finish (e : Endpoint τ) (t : τ) : Endpoint τ :=
  let ret := !e.conn.dead && e.conn.wpdu.solong == e.conn.wpdu.sz
  let e := { e with
    conn := { e.conn with wpdu := .empty }
    phase := fun u => if 0 < e.conn.waiters then (e.phase u).wakeWait else e.phase u }
  e.setPhase t (.idle (some ret))

/-- `send` when `wpdu_` is free or the connection is dead. -/
def obtain (e : Endpoint τ) (t : τ) (b : Str) (r : WriteResult) : Endpoint τ :=
  let e := { e with conn := { e.conn with waiters := e.conn.waiters - 1 } }
  if e.conn.dead then e.setPhase t (.idle (some false))
  else
    let (ok, w, out) := writepdu ⟨some b, b.length, 0⟩ r
    let e := { e with
      conn := { e.conn with wpdu := w, dead := !ok }
      obtained := e.obtained ++ [b]
      written := e.written ++ out }
    if !ok then e.setPhase t .removing
    else if w.solong = w.sz then e.finish t
    else e.setPhase t (.sendComplete false)

/-- The first loop of `send`. -/
def tryObtain (e : Endpoint τ) (t : τ) (b : Str) (r : WriteResult) : Endpoint τ :=
  if !e.conn.dead && e.conn.wpdu.buf.isSome then e.setPhase t (.sendWait b false)
  else e.obtain t b r

/-- `write_cb`, when `dead_` is false. -/
def writeCb (e : Endpoint τ) (r : WriteResult) : Endpoint τ :=
  if e.conn.wpdu.sz = 0 then e
  else
    let (ok, w, out) := writepdu e.conn.wpdu r
    let e := { e with
      conn := { e.conn with wpdu := w, dead := !ok }
      written := e.written ++ out }
    if ok && w.solong < w.sz then e
    else { e with phase := fun u => (e.phase u).wakeComplete }

/-- The end of `read_cb`: a complete PDU is offered to `got_pdu`. -/
def deliver (e : Endpoint τ) (acc : Bool) : Endpoint τ :=
  match e.conn.rpdu.buf with
  | none => e
  | some q =>
    if e.conn.rpdu.sz = e.conn.rpdu.solong ∧ acc = true then
      { e with conn := { e.conn with rpdu := .empty }, accepted := e.accepted ++ [q] }
    else e

/-- `read_cb`; `none` when a `VERIFY` fails. -/
def readCb (e : Endpoint τ) (r₁ r₂ : ReadResult) (acc : Bool) : Option (Endpoint τ) :=
  if e.conn.dead then some e
  else
    let p := e.conn.rpdu
    let res := if p.buf = none ∨ p.solong < p.sz then readpdu p r₁ r₂ else some (true, p, [])
    res.map (fun (succ, p, got) =>
      let e := { e with
        conn := { e.conn with rpdu := p, dead := !succ }
        phase := fun u => if succ then e.phase u else (e.phase u).wakeComplete
        taken := e.taken ++ got }
      e.deliver acc)

/-- The state after a step; `none` when a `VERIFY` fails or the thread is not there. -/
def next (e : Endpoint τ) : ConnAct τ → Option (Endpoint τ)
  | .send t b r =>
    match e.phase t with
    | .idle _ =>
      let e := { e with conn := { e.conn with waiters := e.conn.waiters + 1 } }
      some (e.tryObtain t b r)
    | _ => none
  | .recheckWait t r =>
    match e.phase t with
    | .sendWait b true => some (e.tryObtain t b r)
    | _ => none
  | .recheckComplete t =>
    match e.phase t with
    | .sendComplete true =>
      let w := e.conn.wpdu
      if !e.conn.dead && 0 ≤ w.solong && w.solong < w.sz then
        some (e.setPhase t (.sendComplete false))
      else some (e.finish t)
    | _ => none
  | .removed t =>
    match e.phase t with
    | .removing => some (e.finish t)
    | _ => none
  | .spurious t => some (e.setPhase t (e.phase t).wakeWait.wakeComplete)
  | .writeCb r => if e.conn.dead then none else some (e.writeCb r)
  | .readCb r₁ r₂ acc => e.readCb r₁ r₂ acc
  | .closeconn => some { e with conn := { e.conn with dead := true } }

/-- The answers of the operating system fit the requests. -/
def Answers (e : Endpoint τ) : ConnAct τ → Prop
  | .send _ b r => r.Fits b.length
  | .recheckWait t r =>
    match e.phase t with
    | .sendWait b _ => r.Fits b.length
    | _ => True
  | .writeCb r => r.Fits (e.conn.wpdu.sz - e.conn.wpdu.solong).toNat
  | .readCb r₁ r₂ _ => ReadsFit e.conn.rpdu r₁ r₂
  | _ => True

/-- One step of a connection. -/
def Step (e : Endpoint τ) (a : ConnAct τ) (e' : Endpoint τ) : Prop :=
  e.Answers a ∧ e.next a = some e'

/-! ## What a step that reads nothing leaves alone -/

/-- The receiving side is as before, a dead connection stays dead, and what is written stays
written. -/
structure Quiet (e e' : Endpoint τ) : Prop where
  rpdu : e'.conn.rpdu = e.conn.rpdu
  taken : e'.taken = e.taken
  accepted : e'.accepted = e.accepted
  dead : e.conn.dead = true → e'.conn.dead = true
  written : e.written <+: e'.written

theorem quiet_obtain (e : Endpoint τ) (t : τ) (b : Str) (r : WriteResult) :
    Quiet e (e.obtain t b r) := by
  unfold Endpoint.obtain
  simp only
  split_ifs with hdead hok hfull
  · exact ⟨rfl, rfl, rfl, id, List.prefix_rfl⟩
  all_goals exact ⟨rfl, rfl, rfl, fun htrue => absurd htrue hdead, List.prefix_append _ _⟩

theorem quiet_tryObtain (e : Endpoint τ) (t : τ) (b : Str) (r : WriteResult) :
    Quiet e (e.tryObtain t b r) := by
  unfold Endpoint.tryObtain
  split_ifs
  · exact ⟨rfl, rfl, rfl, id, List.prefix_rfl⟩
  · exact quiet_obtain e t b r

/-- **Only `read_cb` reads.** -/
theorem quiet_next {e e' : Endpoint τ} {a : ConnAct τ} (hnext : e.next a = some e') :
    Quiet e e' ∨ ∃ r₁ r₂ acc, a = .readCb r₁ r₂ acc := by
  cases a with
  | send t b r =>
    left
    simp only [Endpoint.next] at hnext
    split at hnext
    · obtain rfl := Option.some.inj hnext
      obtain ⟨hrpdu, htaken, haccepted, hdead, hwritten⟩ := quiet_tryObtain
        { e with conn := { e.conn with waiters := e.conn.waiters + 1 } } t b r
      exact ⟨hrpdu, htaken, haccepted, hdead, hwritten⟩
    · cases hnext
  | recheckWait t r =>
    left
    simp only [Endpoint.next] at hnext
    split at hnext
    · obtain rfl := Option.some.inj hnext
      exact quiet_tryObtain e t _ r
    · cases hnext
  | recheckComplete t =>
    left
    simp only [Endpoint.next] at hnext
    split at hnext
    · split_ifs at hnext
      all_goals
        obtain rfl := Option.some.inj hnext
        exact ⟨rfl, rfl, rfl, id, List.prefix_rfl⟩
    · cases hnext
  | removed t =>
    left
    simp only [Endpoint.next] at hnext
    split at hnext
    · obtain rfl := Option.some.inj hnext
      exact ⟨rfl, rfl, rfl, id, List.prefix_rfl⟩
    · cases hnext
  | spurious t =>
    obtain rfl := Option.some.inj hnext
    exact .inl ⟨rfl, rfl, rfl, id, List.prefix_rfl⟩
  | writeCb r =>
    left
    simp only [Endpoint.next] at hnext
    split_ifs at hnext with hdead
    obtain rfl := Option.some.inj hnext
    unfold Endpoint.writeCb
    simp only
    split_ifs
    · exact ⟨rfl, rfl, rfl, id, List.prefix_rfl⟩
    all_goals exact ⟨rfl, rfl, rfl, fun htrue => absurd htrue hdead, List.prefix_append _ _⟩
  | readCb r₁ r₂ acc => exact .inr ⟨r₁, r₂, acc, rfl⟩
  | closeconn =>
    obtain rfl := Option.some.inj hnext
    exact .inl ⟨rfl, rfl, rfl, fun _ => rfl, List.prefix_rfl⟩

omit [DecidableEq τ] in
/-- `read_cb` writes nothing. -/
theorem written_readCb {e e' : Endpoint τ} {r₁ r₂ : ReadResult} {acc : Bool}
    (hs : e.readCb r₁ r₂ acc = some e') : e'.written = e.written := by
  unfold Endpoint.readCb at hs
  split at hs
  · obtain rfl := Option.some.inj hs
    rfl
  · obtain ⟨⟨succ, p, got⟩, -, rfl⟩ := Option.map_eq_some_iff.1 hs
    simp only [Endpoint.deliver]
    split
    · rfl
    · split_ifs <;> rfl

/-- What is written stays written. -/
theorem written_prefix {e e' : Endpoint τ} {a : ConnAct τ} (hs : e.Step a e') :
    e.written <+: e'.written := by
  rcases quiet_next hs.2 with hquiet | ⟨r₁, r₂, acc, rfl⟩
  · exact hquiet.written
  · rw [written_readCb hs.2]

end Endpoint
