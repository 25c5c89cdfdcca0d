/-
# The installation over connections

The messages of `Installation` are requests and replies.  Here they are the PDUs of connections:

* `call1` packs the header of a request into the `marshall` that holds the arguments, and sends its
  bytes, as often as it likes, over connections to the server of its `rpcc`.  The lossy test sends old
  requests in the same way.
* The server's end puts PDUs together, and `rpcs::got_pdu` makes a job of each that it accepts;
  `dispatch` unpacks the header.  When the pool is full, the PDU stays where it is.
* `dispatch` packs the header of a reply in the same way and sends it over a connection from the client
  of the request.  `rpcc::got_pdu` unpacks it.
* A PDU whose header cannot be unpacked, or that arrives while `reachable_` is unset, is dropped.

A buffer that is sent is no longer than `MAX_PDU`: `readpdu` gives up the connection at a longer one.
-/
import Yfs.ConnectionRefs
import Yfs.OneFileSystem
import Yfs.Wires

/-! ## The PDUs -/

namespace Marshall

/-- The bytes of a `marshall` with its header: the space of the size, the header, a gap, the body. -/
theorem takeBuf_packed {p : Put} {hdr : List UInt8} {m m' : Marshall} (hp : Writes p hdr)
    (hlen : hdr.length ≤ 20) (hm : Room m) (hind : rpcHeaderSz ≤ m.ind)
    (h : packHeader p m = some m') : ∃ front gap, m'.takeBuf = front ++ (hdr ++ (gap ++ m.body)) ∧
      front.length = 4 ∧ gap.length = 20 - hdr.length := by
  obtain ⟨m₁, h₁, -, hbuf, hind'⟩ := packHeader_of_writes hp hlen hm hind
  obtain rfl : m₁ = m' := Option.some.inj (h₁.symm.trans h)
  refine ⟨slice m₁.buf 0 4, slice m₁.buf (4 + hdr.length) (20 - hdr.length), ?_, by simp, by simp⟩
  unfold rpcHeaderSz at hind
  have hsplit : m₁.ind = 4 + (hdr.length + (20 - hdr.length + (m.ind - 24))) := by
    rw [hind']
    omega
  have hhdr : slice m₁.buf 4 hdr.length = hdr := by
    rw [hbuf, slice_store_self]
  have hbody : m.body = slice m₁.buf 24 (m.ind - 24) := by
    have htake : m.takeBuf = slice m.buf 0 24 ++ slice m.buf 24 (m.ind - 24) := by
      rw [takeBuf, show m.ind = 24 + (m.ind - 24) by omega, slice_add]
      simp
    rw [hbuf, slice_store_of_disjoint (.inr (by omega)), body, htake]
    exact List.drop_left' (length_slice ..)
  rw [hbody, takeBuf, hsplit, slice_add, slice_add, slice_add, Nat.zero_add, hhdr,
    show 4 + hdr.length + (20 - hdr.length) = 24 by omega]

/-- **What is packed is unpacked at the other end of a connection.** -/
theorem unpack_frame {α : Type} {p : Put} {g : Get α} {a : α} {hdr : List UInt8} {m m' : Marshall}
    (hp : Writes p hdr) (hg : Unmarshall.Reads g hdr a) (hlen : hdr.length ≤ 20) (hm : Room m)
    (hind : rpcHeaderSz ≤ m.ind) (h : packHeader p m = some m') (hsized : Sized m'.takeBuf) :
    ∃ u, Unmarshall.unpackHeader g (.ofBuf (frame m'.takeBuf)) = some (a, u) ∧ u.ok = true ∧
      (frame m'.takeBuf).drop rpcHeaderSz = m.body := by
  obtain ⟨front, gap, htake, hfront, hgap⟩ := takeBuf_packed hp hlen hm hind h
  have hframe : frame m'.takeBuf =
      NetworkOrder.be32 (UInt32.ofNat m'.takeBuf.length) ++ (hdr ++ (gap ++ m.body)) := by
    rw [frame_eq hsized]
    congr 1
    rw [htake]
    exact List.drop_left' hfront
  have hmax : (m'.takeBuf.length : ℤ) ≤ maxPdu := hsized.2
  have hsize : (frame m'.takeBuf).length < 2 ^ 31 := by
    have h4 := hsized.1
    rw [frame, length_stamp (by omega)]
    unfold maxPdu at hmax
    omega
  rw [hframe] at hsize
  obtain ⟨u, hu, hrest, -⟩ := Unmarshall.unpackHeader_of_reads hg hlen (NetworkOrder.length_be32 _) hgap hsize
  rw [hframe]
  refine ⟨u, hu, hrest.ok, ?_⟩
  rw [← List.append_assoc, ← List.append_assoc]
  apply List.drop_left'
  rw [List.length_append, List.length_append, NetworkOrder.length_be32, hgap, rpcHeaderSz]
  omega

end Marshall

open Marshall in
/-- The buffer that `call1` sends for the request. -/
def Request.Packed (q : Request) (b : Str) : Prop :=
  ∃ (h : ReqHeader) (m m' : Marshall), Room m ∧ rpcHeaderSz ≤ m.ind ∧ packReqHeader h m = some m' ∧
    b = m'.takeBuf ∧ q = ⟨h.xid.toUInt32.toNat, h.proc.toUInt32.toNat, h.cltNonce.toNat,
      h.srvNonce.toNat, h.xidRep.toUInt32.toNat, m.body⟩

theorem Request.ofPdu_frame {q : Request} {b : Str} (h : q.Packed b) (hb : Sized b) :
    Request.ofPdu (frame b) = some q := by
  obtain ⟨hdr, m, m', hm, hind, hpack, rfl, rfl⟩ := h
  have hlen : (Marshall.reqHeaderBytes hdr).length ≤ 20 := le_refl 20
  obtain ⟨u, hu, hok, hbody⟩ := Marshall.unpack_frame (Marshall.writes_reqHeader hdr)
    (Unmarshall.reads_reqHeader hdr) hlen hm hind hpack hb
  have hunpack : Unmarshall.unpackReqHeader (.ofBuf (frame m'.takeBuf)) = some (hdr, u) := hu
  rw [Request.ofPdu, hunpack]
  dsimp only
  rw [if_pos hok, hbody]

/-- The reply in the bytes of a PDU, unless they end within the header. -/
def RpcReply.ofPdu (b : Str) : Option RpcReply :=
  match Unmarshall.unpackReplyHeader (Unmarshall.ofBuf b) with
  | some (h, u) => if u.ok then some ⟨h.xid.toUInt32.toNat, h.ret.toInt, b.drop rpcHeaderSz⟩ else none
  | none => none

open Marshall in
/-- The buffer that `dispatch` sends for the reply. -/
def RpcReply.Packed (r : RpcReply) (b : Str) : Prop :=
  ∃ (h : ReplyHeader) (m m' : Marshall), Room m ∧ rpcHeaderSz ≤ m.ind ∧
    packReplyHeader h m = some m' ∧ b = m'.takeBuf ∧ r = ⟨h.xid.toUInt32.toNat, h.ret.toInt, m.body⟩

theorem RpcReply.ofPdu_frame {r : RpcReply} {b : Str} (h : r.Packed b) (hb : Sized b) :
    RpcReply.ofPdu (frame b) = some r := by
  obtain ⟨hdr, m, m', hm, hind, hpack, rfl, rfl⟩ := h
  have hlen : (Marshall.replyHeaderBytes hdr).length ≤ 20 := by
    show 8 ≤ 20
    omega
  obtain ⟨u, hu, hok, hbody⟩ := Marshall.unpack_frame (Marshall.writes_replyHeader hdr)
    (Unmarshall.reads_replyHeader hdr) hlen hm hind hpack hb
  have hunpack : Unmarshall.unpackReplyHeader (.ofBuf (frame m'.takeBuf)) = some (hdr, u) := hu
  rw [RpcReply.ofPdu, hunpack]
  dsimp only
  rw [if_pos hok, hbody]

/-! ## What is in the network -/

namespace RpcSystem

/-- Requests and replies stay in the network. -/
structure Keeps (s s' : RpcSystem) : Prop where
  requests : s.requests ⊆ s'.requests
  replies : s.replies ⊆ s'.replies

theorem Keeps.refl (s : RpcSystem) : s.Keeps s := ⟨fun _ h => h, fun _ h => h⟩

theorem keeps_of_move {s s' : RpcSystem} {l : RpcLabel} (h : Move s l s') : s.Keeps s' := by
  cases h with
  | call => exact ⟨List.subset_append_left _ _, fun _ h => h⟩
  | oldsrv | forgotten | send | sendFreed => exact ⟨fun _ h => h, List.subset_append_left _ _⟩
  | _ => exact ⟨fun _ h => h, fun _ h => h⟩

theorem keeps_of_step {s s' : RpcSystem} {l : RpcLabel} (h : Step s l s') : s.Keeps s' :=
  keeps_of_move (move_of_step h)

end RpcSystem

theorem Remote.WaitStep.keeps {σ : Type*} {nonce : ℕ} {works : σ → ℕ → ProcCall → σ → Prop}
    {returns : σ → ℕ → ProcCall → ProcResult → σ → Prop} {s s' : Remote σ} {l : Remote.WaitLabel}
    (h : Remote.WaitStep nonce works returns s l s') : s.rpc.Keeps s'.rpc := by
  cases h with
  | handler => exact .refl _
  | returns h => exact RpcSystem.keeps_of_step h
  | other h => exact RpcSystem.keeps_of_step h

/-- The steps that receive a message. -/
def RpcLabel.Receives : RpcLabel → Prop
  | .deliver _ _ | .gotPdu _ _ => True
  | _ => False

open Cluster

namespace Installation

variable {τ : Type} [DecidableEq τ]

/-- The RPC system of a server. -/
def rpcOf (s : Installation τ) : Service → RpcSystem
  | .lock => s.locks.rpc
  | .extent => s.extents.rpc

def setRpc (s : Installation τ) (b : Service) (r : RpcSystem) : Installation τ :=
  match b with
  | .lock => { s with locks := ⟨r, s.locks.service⟩ }
  | .extent => { s with extents := ⟨r, s.extents.service⟩ }

/-- A step of network and dispatch. -/
def netLabel : Service → RpcLabel → Label τ
  | .lock, l => .locks (.rpc l)
  | .extent, l => .extents l

/-- The steps that receive a message. -/
def Label.Receives : Label τ → Prop
  | .locks (.rpc l) | .extents l => l.Receives
  | _ => False

/-- Clients send requests, servers replies. -/
abbrev Message : End → Type
  | .client => Request
  | .server => RpcReply

/-- The messages that an end of the connection may send; `owner` is the `rpcc` that has made it. -/
def Sent (owner : Service × ℕ → ℕ) (s : Installation τ) (k : Service × ℕ) : (x : End) → Message x → Prop
  | .client, q => q ∈ (s.rpcOf k.1).requests ∧ q.cltNonce = owner k
  | .server, r => (owner k, r) ∈ (s.rpcOf k.1).replies

/-- `rpcs::got_pdu` makes a job of a request, `rpcc::got_pdu` takes a reply. -/
def Received (owner : Service × ℕ → ℕ) (s : Installation τ) (k : Service × ℕ) :
    (x : End) → Message x → Label τ → Installation τ → Prop
  | .client, q, l, s' => ∃ j, (s.rpcOf k.1).jobs j = none ∧ l = netLabel k.1 (.deliver j q) ∧
      s' = s.setRpc k.1 ((s.rpcOf k.1).setJob j (some (.arrived q)))
  | .server, r, l, s' => l = netLabel k.1 (.gotPdu (owner k) r) ∧
      s' = s.setRpc k.1 ((s.rpcOf k.1).setClient (owner k) (((s.rpcOf k.1).clients (owner k)).gotPdu r))

/-- The buffer of a message. -/
def Packed : (x : End) → Message x → Str → Prop
  | .client, q, b => q.Packed b
  | .server, r, b => r.Packed b

/-- The message in the bytes of a PDU. -/
def ofPdu : (x : End) → Str → Option (Message x)
  | .client, b => Request.ofPdu b
  | .server, b => RpcReply.ofPdu b

/-- The messages of an installation. -/
def mail (nonces : Nonces τ) (admin : Prop) (owner : Service × ℕ → ℕ) :
    Mail (Installation τ) (Label τ) (Service × ℕ) Message where
  Local := fun s l s' => Step nonces admin s l s' ∧ ¬ l.Receives
  sent := Sent owner
  receive := Received owner
  encodes := Packed
  decode := ofPdu

variable {nonces : Nonces τ} {admin : Prop} {owner : Service × ℕ → ℕ} {s s' : Installation τ}

/-- Network and dispatch receive a message. -/
theorem step_of_receives {b : Service} {l : RpcLabel} {r : RpcSystem} (hl : l.Receives)
    (h : RpcSystem.Step (s.rpcOf b) l r) : Step nonces admin s (netLabel b l) (s.setRpc b r) := by
  have hexec : ∀ j ret body, l ≠ .exec j ret body := by
    rintro j ret body rfl
    exact hl
  have hsafe : (s.rpcOf b).Safe l := by
    apply RpcSystem.safe_of_unclassified
    · cases l <;> trivial
    · cases l <;> first | rfl | exact hl.elim
  cases b with
  | lock =>
    refine .locks ?_ ⟨⟨?_, hsafe⟩, .other h hexec⟩
    · cases l <;> trivial
    · cases l <;> trivial
  | extent =>
    refine .extents ?_ ⟨?_, hsafe, .other h hexec⟩
    · cases l <;> trivial
    · cases l <;> trivial

/-- **What is received is a step of the installation**, when it has been sent. -/
theorem step_of_received {k : Service × ℕ} {x : End} {m : Message x} {l : Label τ}
    (hs : Sent owner s k x m) (h : Received owner s k x m l s') : Step nonces admin s l s' := by
  cases x with
  | client =>
    obtain ⟨j, hj, rfl, rfl⟩ := h
    exact step_of_receives trivial (if_pos ⟨hs.1, hj⟩)
  | server =>
    obtain ⟨rfl, rfl⟩ := h
    exact step_of_receives trivial (if_pos hs)

/-- **Messages stay in the network.** -/
theorem keeps_of_step {l : Label τ} (h : Step nonces admin s l s') (b : Service) :
    (s.rpcOf b).Keeps (s'.rpcOf b) := by
  cases h with
  | issue | finish => exact .refl _
  | lockCall _ _ _ _ _ h | lockReturn _ _ _ _ _ _ h | locks _ h =>
    cases b with
    | lock => exact h.2.keeps
    | extent => exact .refl _
  | extentCall _ _ _ _ _ h | extentReturn _ _ _ _ _ _ h | extents _ h =>
    cases b with
    | lock => exact .refl _
    | extent => exact RpcSystem.keeps_of_step h.2.2.rpc

theorem step_of_mail {l : Label τ} (h : (mail nonces admin owner).Step s l s') :
    Step nonces admin s l s' := by
  rcases h with ⟨h, -⟩ | ⟨k, x, m, hs, hr⟩
  · exact h
  · exact step_of_received hs hr

theorem lawful_mail (nonces : Nonces τ) (admin : Prop) (owner : Service × ℕ → ℕ) :
    (mail nonces admin owner).Lawful where
  sent_mono := by
    intro s s' l k x m h hs
    have hkeeps := keeps_of_step (step_of_mail h) k.1
    cases x with
    | client => exact ⟨hkeeps.requests hs.1, hs.2⟩
    | server => exact hkeeps.replies hs
  decode_frame := by
    intro x m b h hb
    cases x with
    | client => exact Request.ofPdu_frame h hb
    | server => exact RpcReply.ofPdu_frame h hb

end Installation
