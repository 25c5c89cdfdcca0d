/-
# Messages over connections

A system in which two ends exchange messages (`Mail`) treats the network as a set: a message that an end
has to send may be received at any moment, any number of times, or never.  A system that is `Wired` has
connections in its place.  A thread marshals a message and calls `send`; the bytes go out in any pieces,
the other end reads them in any pieces, and offers each PDU it has put together to `got_pdu`.

* The ends of a connection make the steps of `Endpoint`, in both directions: what an end has read is at
  any moment a prefix of what the other has written.
* A PDU that `got_pdu` accepts is decoded and received, or dropped.
* Any number of connections may be used, one after another or at the same time.

`Wired.refines` says that this makes no difference to the system: what is decoded is a message that the
other end has to send.
-/
import Yfs.Framing

/-! ## What a connection carries -/

namespace Phase

variable {p : Phase} {b : Str} {woken : Bool}

theorem of_wakeWait (h : p.wakeWait = .sendWait b woken) : ∃ woken', p = .sendWait b woken' := by
  cases p with
  | sendWait b' woken' =>
    obtain ⟨rfl, -⟩ := Phase.sendWait.inj h
    exact ⟨woken', rfl⟩
  | _ => cases h

theorem of_wakeComplete (h : p.wakeComplete = .sendWait b woken) : p = .sendWait b woken := by
  cases p with
  | sendComplete => cases h
  | _ => exact h

end Phase

/-- Only such buffers are sent. -/
def ConnAct.Sends {τ : Type} (P : Str → Prop) : ConnAct τ → Prop
  | .send _ b _ => P b
  | _ => True

namespace Endpoint

variable {τ : Type} {P Q : Str → Prop} {e e' : Endpoint τ}

/-- Such buffers have been put into `wpdu_`, and threads wait with such buffers. -/
structure Carries (P : Str → Prop) (e : Endpoint τ) : Prop where
  obtained : ∀ b ∈ e.obtained, P b
  waiting : ∀ t b woken, e.phase t = .sendWait b woken → P b

theorem carries_init (P : Str → Prop) : (Endpoint.init : Endpoint τ).Carries P :=
  ⟨by simp [Endpoint.init], nofun⟩

theorem Carries.mono (h : e.Carries P) (hPQ : ∀ b, P b → Q b) : e.Carries Q :=
  ⟨fun b hb => hPQ b (h.obtained b hb), fun t b woken ht => hPQ b (h.waiting t b woken ht)⟩

/-- Whoever waits has been waiting with the same buffer. -/
theorem Carries.of_phase (h : e.Carries P) (hobtained : e'.obtained = e.obtained)
    (hphase : ∀ t b woken, e'.phase t = .sendWait b woken → ∃ woken', e.phase t = .sendWait b woken') :
    e'.Carries P := by
  refine ⟨by rw [hobtained]; exact h.obtained, ?_⟩
  intro t b woken ht
  obtain ⟨woken', ht'⟩ := hphase t b woken ht
  exact h.waiting t b woken' ht'

/-- The offer to `got_pdu` is about `rpdu_` only. -/
theorem Carries.deliver (h : e.Carries P) (acc : Bool) : (e.deliver acc).Carries P := by
  unfold Endpoint.deliver
  split
  · exact h
  · split_ifs
    · exact h.of_phase rfl (fun _ _ woken ht => ⟨woken, ht⟩)
    · exact h

theorem Carries.readCb (h : e.Carries P) {r₁ r₂ : ReadResult} {acc : Bool}
    (hs : e.readCb r₁ r₂ acc = some e') : e'.Carries P := by
  unfold Endpoint.readCb at hs
  split_ifs at hs with hdead
  · obtain rfl := Option.some.inj hs
    exact h
  · obtain ⟨⟨succ, p, got⟩, -, rfl⟩ := Option.map_eq_some_iff.1 hs
    apply Carries.deliver
    refine h.of_phase rfl ?_
    intro t b woken ht
    cases succ with
    | true => exact ⟨woken, ht⟩
    | false => exact ⟨woken, Phase.of_wakeComplete ht⟩

theorem Carries.writeCb (h : e.Carries P) (r : WriteResult) : (e.writeCb r).Carries P := by
  unfold Endpoint.writeCb
  split_ifs with hsz
  · exact h
  · dsimp only
    split_ifs
    · exact h.of_phase rfl (fun _ _ woken ht => ⟨woken, ht⟩)
    · exact h.of_phase rfl (fun _ _ woken ht => ⟨woken, Phase.of_wakeComplete ht⟩)

variable [DecidableEq τ]

theorem Carries.setPhase (h : e.Carries P) {t : τ} {p : Phase}
    (hp : ∀ b woken, p = .sendWait b woken → P b) : (e.setPhase t p).Carries P := by
  refine ⟨h.obtained, ?_⟩
  intro u b woken hu
  by_cases hut : u = t
  · subst hut
    refine hp b woken (Eq.trans ?_ hu)
    exact (Function.update_self u p e.phase).symm
  · refine h.waiting u b woken (Eq.trans ?_ hu)
    exact (Function.update_of_ne hut p e.phase).symm

theorem Carries.finish (h : e.Carries P) (t : τ) : (e.finish t).Carries P := by
  unfold Endpoint.finish
  apply Carries.setPhase
  · refine ⟨h.obtained, ?_⟩
    intro u b woken hu
    dsimp only at hu
    split_ifs at hu
    · obtain ⟨woken', hu'⟩ := Phase.of_wakeWait hu
      exact h.waiting u b woken' hu'
    · exact h.waiting u b woken hu
  · exact nofun

/-- A thread puts its buffer into `wpdu_`. -/
theorem Carries.obtain (h : e.Carries P) (t : τ) {b : Str} (hb : P b) (r : WriteResult) :
    (e.obtain t b r).Carries P := by
  have hmem : ∀ x ∈ e.obtained ++ [b], P x := by
    intro x hx
    rcases List.mem_append.1 hx with hx | hx
    · exact h.obtained x hx
    · exact List.mem_singleton.1 hx ▸ hb
  unfold Endpoint.obtain
  dsimp only
  split_ifs with hdead hok hfull
  · apply Carries.setPhase
    · exact ⟨h.obtained, h.waiting⟩
    · exact nofun
  · apply Carries.setPhase
    · exact ⟨hmem, h.waiting⟩
    · exact nofun
  · apply Carries.finish
    exact ⟨hmem, h.waiting⟩
  · apply Carries.setPhase
    · exact ⟨hmem, h.waiting⟩
    · exact nofun

theorem Carries.tryObtain (h : e.Carries P) (t : τ) {b : Str} (hb : P b) (r : WriteResult) :
    (e.tryObtain t b r).Carries P := by
  unfold Endpoint.tryObtain
  split_ifs
  · refine h.setPhase ?_
    intro b' woken heq
    obtain ⟨rfl, -⟩ := Phase.sendWait.inj heq
    exact hb
  · exact h.obtain t hb r

/-- **A connection carries what its threads send.** -/
theorem Carries.step {a : ConnAct τ} (h : e.Carries P) (ha : a.Sends P) (hs : e.Step a e') :
    e'.Carries P := by
  have hnext := hs.2
  cases a with
  | send t b r =>
    simp only [Endpoint.next] at hnext
    split at hnext
    · obtain rfl := Option.some.inj hnext
      apply Carries.tryObtain
      · exact ⟨h.obtained, h.waiting⟩
      · exact ha
    · cases hnext
  | recheckWait t r =>
    simp only [Endpoint.next] at hnext
    split at hnext
    · next b hphase =>
      obtain rfl := Option.some.inj hnext
      exact h.tryObtain t (h.waiting t b _ hphase) r
    · cases hnext
  | recheckComplete t =>
    simp only [Endpoint.next] at hnext
    split at hnext
    · split_ifs at hnext
      · obtain rfl := Option.some.inj hnext
        refine h.setPhase ?_
        intro b woken heq
        cases heq
      · obtain rfl := Option.some.inj hnext
        exact h.finish t
    · cases hnext
  | removed t =>
    simp only [Endpoint.next] at hnext
    split at hnext
    · obtain rfl := Option.some.inj hnext
      exact h.finish t
    · cases hnext
  | spurious t =>
    obtain rfl := Option.some.inj hnext
    refine h.setPhase ?_
    intro b woken heq
    obtain ⟨woken', hwait⟩ := Phase.of_wakeWait (Phase.of_wakeComplete heq)
    exact h.waiting t b woken' hwait
  | writeCb r =>
    simp only [Endpoint.next] at hnext
    split_ifs at hnext
    obtain rfl := Option.some.inj hnext
    exact h.writeCb r
  | readCb r₁ r₂ acc => exact h.readCb hnext
  | closeconn =>
    obtain rfl := Option.some.inj hnext
    exact ⟨h.obtained, h.waiting⟩

end Endpoint

/-! ## Messages -/

/-- The two ends of a connection. -/
inductive End
  | client
  | server
  deriving DecidableEq, Repr

/-- The other end. -/
def End.other : End → End
  | client => server
  | server => client

@[simp] theorem End.other_other (x : End) : x.other.other = x := by
  cases x <;> rfl

/-- A system whose parts exchange messages over the connections `κ`: an end `x` has the messages `M x` to
send. -/
structure Mail (σ ℓ κ : Type*) (M : End → Type*) where
  /-- The steps that receive nothing. -/
  Local : σ → ℓ → σ → Prop
  /-- The end of the connection has the message to send. -/
  sent : σ → κ → (x : End) → M x → Prop
  /-- The message of this end is received by the other. -/
  receive : σ → κ → (x : End) → M x → ℓ → σ → Prop
  /-- The buffer that is sent for the message. -/
  encodes : (x : End) → M x → Str → Prop
  /-- The message in the bytes of a PDU. -/
  decode : (x : End) → Str → Option (M x)

namespace Mail

variable {σ ℓ κ : Type*} {M : End → Type*} (N : Mail σ ℓ κ M)

/-- The steps of the system, with the network as a set of messages. -/
def Step (s : σ) (l : ℓ) (s' : σ) : Prop :=
  N.Local s l s' ∨ ∃ k x m, N.sent s k x m ∧ N.receive s k x m l s'

/-- The buffer holds a message that the end has to send. -/
def Sends (s : σ) (k : κ) (x : End) (b : Str) : Prop := ∃ m, N.sent s k x m ∧ N.encodes x m b

/-- A message stays to be sent, and a PDU has one meaning. -/
structure Lawful : Prop where
  sent_mono : ∀ {s s' : σ} {l : ℓ} {k : κ} {x : End} {m : M x}, N.Step s l s' → N.sent s k x m →
    N.sent s' k x m
  decode_frame : ∀ {x : End} {m : M x} {b : Str}, N.encodes x m b → Sized b →
    N.decode x (frame b) = some m

end Mail

/-! ## The system over connections -/

/-- The state of the system and of the two ends of each connection. -/
structure Wired (σ κ : Type*) where
  sys : σ
  ends : κ → End → Endpoint ℕ

/-- A step of the system, or of an end of a connection; the last argument is the step of the system that
receives the PDU. -/
inductive WiredLabel (ℓ κ : Type*)
  | sys (l : ℓ)
  | wire (k : κ) (x : End) (a : ConnAct ℕ) (got : Option ℓ)

/-- The step of the system. -/
def WiredLabel.seen {ℓ κ : Type*} : WiredLabel ℓ κ → Option ℓ
  | sys l => some l
  | wire _ _ _ got => got

namespace Wired

variable {σ ℓ κ : Type*} {M : End → Type*} [DecidableEq κ]

/-- Fresh connections. -/
def init (s : σ) : Wired σ κ := ⟨s, fun _ _ => .init⟩

def setEnd (w : Wired σ κ) (k : κ) (x : End) (e : Endpoint ℕ) : Wired σ κ :=
  { w with ends := Function.update w.ends k (Function.update (w.ends k) x e) }

/-- An end of a connection makes a step: its threads send messages of the system, and it has read a
prefix of what the other end has written. -/
structure Moves (N : Mail σ ℓ κ M) (w : Wired σ κ) (k : κ) (x : End) (a : ConnAct ℕ) (e : Endpoint ℕ) :
    Prop where
  step : (w.ends k x).Step a e
  stream : e.taken <+: (w.ends k x.other).written
  sized : a.SendsSized
  sends : a.Sends (N.Sends w.sys k x)

/-- The steps. -/
inductive Step (N : Mail σ ℓ κ M) : Wired σ κ → WiredLabel ℓ κ → Wired σ κ → Prop
  | sys {w : Wired σ κ} {l : ℓ} {s : σ} (h : N.Local w.sys l s) : Step N w (.sys l) { w with sys := s }
  | wire {w : Wired σ κ} {k : κ} {x : End} {a : ConnAct ℕ} {e : Endpoint ℕ} (h : w.Moves N k x a e) :
      Step N w (.wire k x a none) (w.setEnd k x e)
  | got {w : Wired σ κ} {k : κ} {x : End} {a : ConnAct ℕ} {e : Endpoint ℕ} {b : Str} {m : M x.other}
      {l : ℓ} {s : σ} (h : w.Moves N k x a e) (hb : e.accepted = (w.ends k x).accepted ++ [b])
      (hm : N.decode x.other b = some m) (hr : N.receive w.sys k x.other m l s) :
      Step N w (.wire k x a (some l)) { w.setEnd k x e with sys := s }

/-! ## The refinement -/

/-- The invariant: both ends in order, and they carry messages of the system. -/
structure Inv (N : Mail σ ℓ κ M) (w : Wired σ κ) : Prop where
  sending : ∀ k x, Sending (w.ends k x)
  receiving : ∀ k x, Receiving (w.ends k x)
  stream : ∀ k x, (w.ends k x).taken <+: (w.ends k x.other).written
  carries : ∀ k x, (w.ends k x).Carries (N.Sends w.sys k x)

omit [DecidableEq κ] in
theorem inv_init (N : Mail σ ℓ κ M) (s : σ) : Inv N (init s) where
  sending := fun _ _ => sending_init
  receiving := fun _ _ => receiving_init
  stream := fun _ _ => List.prefix_rfl
  carries := fun _ _ => Endpoint.carries_init _

variable {N : Mail σ ℓ κ M} {w w' : Wired σ κ}

omit [DecidableEq κ] in
/-- A step of the system leaves messages to be sent. -/
theorem Inv.sys (hN : N.Lawful) (h : w.Inv N) {l : ℓ} {s : σ} (hs : N.Step w.sys l s) :
    Inv N { w with sys := s } where
  sending := h.sending
  receiving := h.receiving
  stream := h.stream
  carries := by
    intro k x
    apply (h.carries k x).mono
    rintro b ⟨m, hm, hb⟩
    exact ⟨m, hN.sent_mono hs hm, hb⟩

theorem setEnd_self (w : Wired σ κ) (k : κ) (x : End) (e : Endpoint ℕ) :
    (w.setEnd k x e).ends k x = e := by
  simp [setEnd]

theorem setEnd_other (w : Wired σ κ) (k : κ) (x : End) (e : Endpoint ℕ) :
    (w.setEnd k x e).ends k x.other = w.ends k x.other := by
  cases x <;> simp [setEnd, End.other]

/-- A property of all ends, when one end is replaced. -/
theorem setEnd_induction {w : Wired σ κ} {k : κ} {x : End} {e : Endpoint ℕ}
    {P : κ → End → Endpoint ℕ → Endpoint ℕ → Prop}
    (hall : ∀ k' y, P k' y (w.ends k' y) (w.ends k' y.other))
    (hself : P k x e (w.ends k x.other)) (hother : P k x.other (w.ends k x.other) e) (k' : κ) (y : End) :
    P k' y ((w.setEnd k x e).ends k' y) ((w.setEnd k x e).ends k' y.other) := by
  by_cases hk : k' = k
  · subst hk
    by_cases hy : y = x
    · subst hy
      rw [setEnd_self, setEnd_other]
      exact hself
    · obtain rfl : y = x.other := by
        cases x <;> cases y <;> first | rfl | exact absurd rfl hy
      rw [setEnd_other, End.other_other, setEnd_self]
      exact hother
  · have hends : (w.setEnd k x e).ends k' = w.ends k' := Function.update_of_ne hk ..
    rw [hends]
    exact hall k' y

/-- A step of one end. -/
theorem Inv.moves (h : w.Inv N) {k : κ} {x : End} {a : ConnAct ℕ} {e : Endpoint ℕ}
    (hm : w.Moves N k x a e) : Inv N (w.setEnd k x e) where
  sending := by
    have hall := setEnd_induction (P := fun _ _ e _ => Sending e) (w := w) h.sending
      ((h.sending k x).step hm.sized hm.step) (h.sending k x.other)
    exact hall
  receiving := by
    have hall := setEnd_induction (P := fun _ _ e _ => Receiving e) (w := w) h.receiving
      ((h.receiving k x).step hm.step) (h.receiving k x.other)
    exact hall
  stream := by
    have hback := h.stream k x.other
    rw [End.other_other] at hback
    have hall := setEnd_induction (P := fun _ _ e e' => e.taken <+: e'.written) (w := w) h.stream
      hm.stream (hback.trans (Endpoint.written_prefix hm.step))
    exact hall
  carries := by
    have hall := setEnd_induction (P := fun k x e _ => e.Carries (N.Sends w.sys k x)) (w := w) h.carries
      ((h.carries k x).step hm.sends hm.step) (h.carries k x.other)
    exact hall

omit [DecidableEq κ] in
/-- **What an end accepts, the other has to send.** -/
theorem Inv.accepted (hN : N.Lawful) (h : w.Inv N) {k : κ} {x : End} {b : Str}
    (hb : b ∈ (w.ends k x).accepted) : ∃ m, N.sent w.sys k x.other m ∧ N.decode x.other b = some m := by
  have hsending := h.sending k x.other
  have hreceiving := h.receiving k x
  obtain ⟨rest, htaken, -⟩ := hreceiving.stream
  have hstream : (w.ends k x).accepted.flatten ++ rest <+: frames (w.ends k x.other).obtained := by
    rw [← htaken]
    exact (h.stream k x).trans hsending.stream
  have hcut : (w.ends k x).accepted <+: (w.ends k x.other).obtained.map frame := by
    refine prefix_of_flatten hreceiving.delimited ?_ hstream
    intro f hf
    obtain ⟨b, hb, rfl⟩ := List.mem_map.1 hf
    exact delimited_frame (hsending.sized b hb)
  obtain ⟨b', hb', rfl⟩ := List.mem_map.1 (hcut.subset hb)
  obtain ⟨m, hm, henc⟩ := (h.carries k x.other).obtained b' hb'
  exact ⟨m, hm, hN.decode_frame henc (hsending.sized b' hb')⟩

/-- **Every step over connections is one of the system, or none.** -/
theorem Inv.step (hN : N.Lawful) (h : w.Inv N) {l : WiredLabel ℓ κ} (hs : Wired.Step N w l w') :
    w'.Inv N ∧ Trace N.Step w.sys l.seen.toList w'.sys := by
  cases hs with
  | sys hlocal => exact ⟨h.sys hN (.inl hlocal), .single (.inl hlocal)⟩
  | wire hm => exact ⟨h.moves hm, .nil⟩
  | @got k x a e b m l s hm hb hdecode hr =>
    have hinv := h.moves hm
    have hmem : b ∈ ((w.setEnd k x e).ends k x).accepted := by
      rw [setEnd_self, hb]
      exact List.mem_append_right _ (List.mem_singleton_self b)
    obtain ⟨m', hsent, hdecode'⟩ := hinv.accepted hN hmem
    obtain rfl : m' = m := Option.some.inj (hdecode'.symm.trans hdecode)
    have hstep : N.Step w.sys l s := .inr ⟨k, x.other, m', hsent, hr⟩
    exact ⟨hinv.sys hN hstep, .single hstep⟩

/-- **Connections are a network.**  Every run over connections, whatever pieces the bytes are written and
read in, whatever fails and however often `got_pdu` refuses, is a run of the system in which messages are
received that have been sent. -/
theorem refines (hN : N.Lawful) {s₀ : σ} {t : List (WiredLabel ℓ κ)}
    (h : Trace (Wired.Step N) (init s₀) t w) :
    w.Inv N ∧ Trace N.Step s₀ (t.filterMap WiredLabel.seen) w.sys := by
  induction h with
  | nil => exact ⟨inv_init N s₀, .nil⟩
  | @snoc t w w' l _ hs ih =>
    obtain ⟨hinv, hrun⟩ := ih
    obtain ⟨hinv', hstep⟩ := hinv.step hN hs
    refine ⟨hinv', ?_⟩
    have hseen : (t ++ [l]).filterMap WiredLabel.seen = t.filterMap WiredLabel.seen ++ l.seen.toList := by
      rw [List.filterMap_append]
      cases hl : l.seen with
      | none => simp [hl]
      | some l' => simp [hl]
    rw [hseen]
    exact hrun.append hstep

end Wired
