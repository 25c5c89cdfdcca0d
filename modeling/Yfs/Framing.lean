/-
# PDUs over a byte stream

Two connections are joined by a stream: what one has read is at any moment a prefix of what the other
has written.  `send` puts the size of a buffer into its first four bytes; what goes out for a buffer
`b` is `frame b`.

* The sender's side (`Sending`): the bytes written are a prefix of the frames of the buffers that were
  put into `wpdu_`, and while the connection lives they end inside the frame of the current one.
* The receiver's side (`Receiving`), for any bytes: those read are the accepted PDUs followed by
  what is in `rpdu_`, and each accepted PDU has its own length in its first four bytes.

Strings that carry their length can be told apart in a stream (`prefix_of_flatten`), which joins the
two sides: `accepted_prefix`.
-/
import Yfs.Connection

open NetworkOrder

/-! ## Strings that carry their length -/

/-- The first four bytes hold the length. -/
def Delimited (q : Str) : Prop := 4 ≤ q.length ∧ pduSize q = q.length

theorem pduSize_append {q : Str} (h : 4 ≤ q.length) (s : Str) : pduSize (q ++ s) = pduSize q := by
  match q, h with
  | _ :: _ :: _ :: _ :: _, _ => rfl

/-- Two such strings at the start of the same bytes are equal. -/
theorem Delimited.eq_of_append_eq {q f s t : Str} (hq : Delimited q) (hf : Delimited f)
    (h : q ++ s = f ++ t) : q = f := by
  have hsize : pduSize q = pduSize f := by
    rw [← pduSize_append hq.1 s, h, pduSize_append hf.1 t]
  have hlen : q.length = f.length := by
    have hcast : (q.length : ℤ) = f.length := by rw [← hq.2, ← hf.2, hsize]
    exact_mod_cast hcast
  exact (List.append_inj h hlen).1

/-- **A stream of such strings is cut in one way.** -/
theorem prefix_of_flatten {qs fs : List Str} {rest : Str} (hqs : ∀ q ∈ qs, Delimited q)
    (hfs : ∀ f ∈ fs, Delimited f) (h : qs.flatten ++ rest <+: fs.flatten) : qs <+: fs := by
  induction qs generalizing fs with
  | nil => exact List.nil_prefix
  | cons q qs ih =>
    have hq := hqs q (List.mem_cons_self ..)
    obtain ⟨s, hs⟩ := h
    rw [List.flatten_cons] at hs
    cases fs with
    | nil =>
      have hnil : q = [] := by
        rw [List.flatten_nil] at hs
        simp only [List.append_eq_nil_iff] at hs
        exact hs.1.1.1
      have hlen := hq.1
      rw [hnil] at hlen
      simp at hlen
    | cons f fs =>
      rw [List.flatten_cons, List.append_assoc, List.append_assoc] at hs
      obtain rfl := hq.eq_of_append_eq (hfs f (List.mem_cons_self ..)) hs
      refine List.cons_prefix_cons.2 ⟨rfl, ?_⟩
      refine ih (fun x hx => hqs x (List.mem_cons_of_mem _ hx))
        (fun x hx => hfs x (List.mem_cons_of_mem _ hx)) ⟨s, ?_⟩
      rw [List.append_assoc]
      exact List.append_cancel_left hs

/-! ## The frames -/

/-- A size a PDU may have. -/
def Sized (b : Str) : Prop := 4 < b.length ∧ (b.length : ℤ) ≤ maxPdu

/-- What goes out for a buffer: its size in network order over its first four bytes. -/
def frame (b : Str) : Str := stamp b.length b

@[simp] theorem length_stamp {b : Str} (h : 4 ≤ b.length) (sz : ℤ) : (stamp sz b).length = b.length := by
  rw [stamp, List.length_append, length_be32, List.length_drop]
  omega

theorem frame_eq {b : Str} (h : Sized b) : frame b = be32 (UInt32.ofNat b.length) ++ b.drop 4 := by
  have hmax := h.2
  have hmod : ((b.length : ℤ) % 2 ^ 32).toNat = b.length := by
    unfold maxPdu at hmax
    omega
  rw [frame, stamp, UInt32.ofInt, hmod]

theorem delimited_frame {b : Str} (h : Sized b) : Delimited (frame b) := by
  have h4 := h.1
  have hmax := h.2
  have hlen : (frame b).length = b.length := length_stamp (by omega) _
  have hsize : pduSize (frame b) = (UInt32.ofNat b.length).toInt32.toInt := by
    rw [frame_eq h]
    show (word32 _ _ _ _).toInt32.toInt = _
    rw [word32_be32]
  refine ⟨by omega, ?_⟩
  rw [hsize, hlen]
  exact Int32.toInt_ofNat_of_lt (by unfold maxPdu at hmax; omega)

/-! ## The sender -/

section Sender

variable {τ : Type}

/-- The bytes of the frames, one after another. -/
def frames (bs : List Str) : Str := (bs.map frame).flatten

theorem frames_snoc (bs : List Str) (b : Str) : frames (bs ++ [b]) = frames bs ++ frame b := by
  simp [frames]

/-- `wpdu_` holds the buffer `b`, and `k` bytes of its frame are out. -/
structure Holding (b : Str) (k : ℕ) (w : Charbuf) : Prop where
  sz : w.sz = b.length
  solong : w.solong = k
  le : k ≤ b.length
  stamped : 0 < k → w.buf = some (frame b)
  fresh : k = 0 → ∃ b', w.buf = some b' ∧ b'.drop 4 = b.drop 4

theorem drop_frame (b : Str) : (frame b).drop 4 = b.drop 4 := List.drop_left' (length_be32 _)

/-- Once its buffer is stamped, `wpdu_` holds the frame. -/
theorem Holding.of_frame {b : Str} {k : ℕ} (hk : k ≤ b.length) :
    Holding b k ⟨some (frame b), b.length, k⟩ :=
  ⟨rfl, rfl, hk, fun _ => rfl, fun _ => ⟨frame b, rfl, drop_frame b⟩⟩

/-- **What `writepdu` does**: it fails and nothing goes out, or the next bytes of the frame go out. -/
theorem Holding.next {b : Str} {k : ℕ} {w : Charbuf} (h : Holding b k w) {r : WriteResult}
    (hr : r.Fits (w.sz - w.solong).toNat) :
    ((writepdu w r).1 = false ∧ (writepdu w r).2.2 = []) ∨
      (writepdu w r).1 = true ∧ ∃ k', Holding b k' (writepdu w r).2.1 ∧
        (frame b).take k ++ (writepdu w r).2.2 = (frame b).take k' := by
  unfold writepdu
  by_cases hfull : w.solong = w.sz
  · rw [if_pos hfull]
    exact .inr ⟨rfl, k, h, List.append_nil _⟩
  · rw [if_neg hfull]
    have hbuf : (if w.solong = 0 then stamp w.sz (w.buf.getD []) else w.buf.getD []) = frame b := by
      have hsolong := h.solong
      by_cases hk : k = 0
      · obtain ⟨b', hb', hdrop⟩ := h.fresh hk
        rw [if_pos (by omega), hb', Option.getD_some, h.sz, stamp, hdrop]
        rfl
      · rw [if_neg (by omega), h.stamped (by omega), Option.getD_some]
    rw [hbuf, h.sz, h.solong]
    cases r with
    | wrote n =>
      have hn : n ≤ (w.sz - w.solong).toNat := hr
      have hle := h.le
      rw [h.sz, h.solong] at hn
      refine .inr ⟨rfl, k + n, ?_, ?_⟩
      · have hframe := Holding.of_frame (show k + n ≤ b.length by omega)
        rwa [Nat.cast_add] at hframe
      · show (frame b).take k ++ ((frame b).drop (k : ℤ).toNat).take n = _
        rw [Int.toNat_natCast, List.take_add]
    | again => exact .inr ⟨rfl, k, Holding.of_frame h.le, List.append_nil _⟩
    | failed => exact .inl ⟨rfl, rfl⟩

/-- A waiting thread has a buffer of a good size; a thread in `block_remove_fd` has found the connection
dead. -/
def Phase.Ok (dead : Bool) : Phase → Prop
  | sendWait b _ => Sized b
  | removing => dead = true
  | _ => True

theorem Phase.Ok.wakeWait {dead : Bool} {p : Phase} (h : p.Ok dead) : p.wakeWait.Ok dead := by
  cases p <;> exact h

theorem Phase.Ok.wakeComplete {dead : Bool} {p : Phase} (h : p.Ok dead) : p.wakeComplete.Ok dead := by
  cases p <;> exact h

theorem Phase.Ok.mono {dead dead' : Bool} {p : Phase} (h : p.Ok dead)
    (hdead : dead = true → dead' = true) : p.Ok dead' := by
  cases p with
  | removing => exact hdead h
  | _ => exact h

/-- **The invariant of the sender.** -/
structure Sending (e : Endpoint τ) : Prop where
  sized : ∀ b ∈ e.obtained, Sized b
  phases : ∀ t, (e.phase t).Ok e.conn.dead
  stream : e.written <+: frames e.obtained
  alive : e.conn.dead = false →
    (e.conn.wpdu = .empty ∧ e.written = frames e.obtained) ∨
      ∃ done b k, e.obtained = done ++ [b] ∧ Holding b k e.conn.wpdu ∧
        e.written = frames done ++ (frame b).take k

theorem sending_init : Sending (Endpoint.init : Endpoint τ) :=
  ⟨by simp [Endpoint.init], fun _ => trivial, List.prefix_rfl, fun _ => .inl ⟨rfl, rfl⟩⟩

/-- A step that leaves `wpdu_` alone and writes nothing. -/
theorem Sending.of_same {e e' : Endpoint τ} (h : Sending e) (hobtained : e'.obtained = e.obtained)
    (hwritten : e'.written = e.written) (hwpdu : e'.conn.wpdu = e.conn.wpdu)
    (hdead : e.conn.dead = true → e'.conn.dead = true) (hphases : ∀ t, (e'.phase t).Ok e'.conn.dead) :
    Sending e' := by
  refine ⟨?_, hphases, ?_, ?_⟩
  · rw [hobtained]
    exact h.sized
  · rw [hobtained, hwritten]
    exact h.stream
  · intro halive
    have hwas : e.conn.dead = false := by
      by_contra hne
      rw [hdead (by simpa using hne)] at halive
      cases halive
    rw [hobtained, hwritten, hwpdu]
    exact h.alive hwas

theorem Sending.writeCb {e : Endpoint τ} (h : Sending e) (hdead : e.conn.dead = false)
    {r : WriteResult} (hr : r.Fits (e.conn.wpdu.sz - e.conn.wpdu.solong).toNat) :
    Sending (e.writeCb r) := by
  unfold Endpoint.writeCb
  split_ifs with hsz
  · exact h
  · rcases h.alive hdead with ⟨hempty, -⟩ | ⟨done, b, k, hobtained, hold, hwritten⟩
    · rw [hempty] at hsz
      exact absurd rfl hsz
    · rcases hold.next hr with ⟨hok, hout⟩ | ⟨hok, k', hold', hout⟩
      · simp only [hok, hout, Bool.false_and, Bool.false_eq_true, if_false, List.append_nil]
        refine ⟨h.sized, fun u => ((h.phases u).mono (fun _ => rfl)).wakeComplete, h.stream, ?_⟩
        intro halive
        cases halive
      · have hwritten' : e.written ++ (writepdu e.conn.wpdu r).2.2 =
            frames done ++ (frame b).take k' := by
          rw [hwritten, List.append_assoc, hout]
        simp only [hok, Bool.true_and, Bool.not_true]
        have hphases : ∀ u, (e.phase u).Ok false := by
          intro u
          have hu := h.phases u
          rwa [hdead] at hu
        have hstream : e.written ++ (writepdu e.conn.wpdu r).2.2 <+: frames e.obtained := by
          rw [hwritten', hobtained, frames_snoc]
          exact (List.prefix_append_right_inj _).2 (List.take_prefix _ _)
        split_ifs
        · exact ⟨h.sized, hphases, hstream, fun _ => .inr ⟨done, b, k', hobtained, hold', hwritten'⟩⟩
        · exact ⟨h.sized, fun u => (hphases u).wakeComplete, hstream,
            fun _ => .inr ⟨done, b, k', hobtained, hold', hwritten'⟩⟩

/-- What `read_cb` leaves alone. -/
theorem Sending.readCb {e e' : Endpoint τ} (h : Sending e) {r₁ r₂ : ReadResult} {acc : Bool}
    (hs : e.readCb r₁ r₂ acc = some e') : Sending e' := by
  unfold Endpoint.readCb at hs
  split_ifs at hs with hdead
  · obtain rfl := Option.some.inj hs
    exact h
  · obtain ⟨⟨succ, p, got⟩, -, rfl⟩ := Option.map_eq_some_iff.1 hs
    -- the offer to `got_pdu` touches `rpdu_` only
    have hdeliver : ∀ x : Endpoint τ, Sending x → Sending (x.deliver acc) := by
      intro x hx
      unfold Endpoint.deliver
      split
      · exact hx
      · split_ifs
        · exact hx.of_same rfl rfl rfl id hx.phases
        · exact hx
    apply hdeliver
    refine h.of_same rfl rfl rfl (fun htrue => absurd htrue hdead) ?_
    intro u
    show (if succ = true then e.phase u else (e.phase u).wakeComplete).Ok (!succ)
    have hu : (e.phase u).Ok (!succ) := (h.phases u).mono (fun htrue => absurd htrue hdead)
    split_ifs
    · exact hu
    · exact hu.wakeComplete

/-- When `wpdu_` is free, everything before is out. -/
theorem Sending.written_of_free {e : Endpoint τ} (h : Sending e) (hdead : e.conn.dead = false)
    (hfree : e.conn.wpdu.buf = none) : e.written = frames e.obtained := by
  rcases h.alive hdead with ⟨-, hall⟩ | ⟨done, b, k, -, hold, -⟩
  · exact hall
  · by_cases hk : k = 0
    · obtain ⟨b', hb', -⟩ := hold.fresh hk
      rw [hb'] at hfree
      cases hfree
    · rw [hold.stamped (by omega)] at hfree
      cases hfree

variable [DecidableEq τ]

theorem Sending.setPhase {e : Endpoint τ} (h : Sending e) {t : τ} {p : Phase}
    (hp : p.Ok e.conn.dead) : Sending (e.setPhase t p) := by
  refine h.of_same rfl rfl rfl id ?_
  intro u
  show (Function.update e.phase t p u).Ok e.conn.dead
  by_cases hu : u = t
  · subst hu
    rwa [Function.update_self]
  · rw [Function.update_of_ne hu]
    exact h.phases u

/-- A `send` ends when the connection is dead or all is written. -/
theorem Sending.finish {e : Endpoint τ} (h : Sending e)
    (hall : e.conn.dead = false → e.written = frames e.obtained) (t : τ) : Sending (e.finish t) := by
  unfold Endpoint.finish
  apply Sending.setPhase
  · refine ⟨h.sized, ?_, h.stream, fun halive => .inl ⟨rfl, hall halive⟩⟩
    intro u
    show (if 0 < e.conn.waiters then (e.phase u).wakeWait else e.phase u).Ok e.conn.dead
    split_ifs
    · exact (h.phases u).wakeWait
    · exact h.phases u
  · trivial

/-- A buffer that is out as a whole. -/
theorem Holding.written_eq {b : Str} {k : ℕ} {w : Charbuf} (h : Holding b k w) (hb : Sized b)
    (hfull : w.sz ≤ w.solong) (done : List Str) :
    frames done ++ (frame b).take k = frames (done ++ [b]) := by
  have h4 := hb.1
  have hsz := h.sz
  have hsolong := h.solong
  rw [frames_snoc, List.take_of_length_le]
  rw [frame, length_stamp (by omega)]
  omega

/-- **A thread puts its buffer into `wpdu_`.** -/
theorem Sending.obtain {e : Endpoint τ} (h : Sending e) {t : τ} {b : Str} {r : WriteResult}
    (hb : Sized b) (hr : r.Fits b.length) (hfree : e.conn.dead = false → e.conn.wpdu.buf = none) :
    Sending (e.obtain t b r) := by
  unfold Endpoint.obtain
  cases hdead : e.conn.dead with
  | true =>
    simp only [hdead, if_true]
    apply Sending.setPhase
    · exact h.of_same rfl rfl rfl (fun _ => rfl) (fun u => (h.phases u).mono (fun _ => rfl))
    · trivial
  | false =>
    simp only [hdead, Bool.false_eq_true, if_false]
    have hall := h.written_of_free hdead (hfree hdead)
    have hold : Holding b 0 ⟨some b, b.length, 0⟩ :=
      ⟨rfl, rfl, Nat.zero_le _, fun hlt => absurd hlt (by omega), fun _ => ⟨b, rfl, rfl⟩⟩
    have hsized : ∀ x ∈ e.obtained ++ [b], Sized x := by
      intro x hx
      rcases List.mem_append.1 hx with hx | hx
      · exact h.sized x hx
      · obtain rfl := List.mem_singleton.1 hx
        exact hb
    rcases hold.next (r := r) (by simpa using hr) with ⟨hok, hout⟩ | ⟨hok, k, hold', hout⟩
    · rw [hok, hout]
      apply Sending.setPhase
      · refine ⟨hsized, fun u => (h.phases u).mono (fun _ => rfl), ?_, ?_⟩
        · show e.written ++ [] <+: frames (e.obtained ++ [b])
          rw [List.append_nil, hall, frames_snoc]
          exact List.prefix_append _ _
        · intro halive
          cases halive
      · rfl
    · rw [hok]
      have hwritten : e.written ++ (writepdu ⟨some b, b.length, 0⟩ r).2.2 =
          frames e.obtained ++ (frame b).take k := by
        rw [← hout, List.take_zero, List.nil_append, hall]
      have hnext : Sending ({ e with
          conn := { e.conn with
            waiters := e.conn.waiters - 1
            wpdu := (writepdu ⟨some b, b.length, 0⟩ r).2.1
            dead := !true }
          obtained := e.obtained ++ [b]
          written := e.written ++ (writepdu ⟨some b, b.length, 0⟩ r).2.2 } : Endpoint τ) := by
        refine ⟨hsized, fun u => (h.phases u).mono ?_, ?_, ?_⟩
        · intro htrue
          rw [hdead] at htrue
          cases htrue
        · show e.written ++ _ <+: frames (e.obtained ++ [b])
          rw [hwritten, frames_snoc]
          exact (List.prefix_append_right_inj _).2 (List.take_prefix _ _)
        · intro _
          exact .inr ⟨e.obtained, b, k, rfl, hold', hwritten⟩
      simp only [Bool.not_true, Bool.false_eq_true, if_false]
      split_ifs with hfull
      · refine hnext.finish (fun _ => ?_) t
        exact hwritten.trans (hold'.written_eq hb (le_of_eq hfull.symm) e.obtained)
      · exact hnext.setPhase trivial

theorem Sending.tryObtain {e : Endpoint τ} (h : Sending e) {t : τ} {b : Str} {r : WriteResult}
    (hb : Sized b) (hr : r.Fits b.length) : Sending (e.tryObtain t b r) := by
  unfold Endpoint.tryObtain
  split_ifs with hbusy
  · exact h.setPhase hb
  · refine h.obtain hb hr ?_
    intro hdead
    cases hbuf : e.conn.wpdu.buf with
    | none => rfl
    | some x =>
      rw [hdead, hbuf] at hbusy
      exact absurd rfl hbusy

/-- Only buffers of a good size are sent. -/
def ConnAct.SendsSized : ConnAct τ → Prop
  | .send _ b _ => Sized b
  | _ => True

/-- **One step keeps the invariant of the sender.** -/
theorem Sending.step {e e' : Endpoint τ} {a : ConnAct τ} (h : Sending e) (ha : a.SendsSized)
    (hs : e.Step a e') : Sending e' := by
  obtain ⟨hans, hnext⟩ := hs
  cases a with
  | send t b r =>
    simp only [Endpoint.next] at hnext
    split at hnext
    · obtain rfl := Option.some.inj hnext
      refine Sending.tryObtain ?_ ha hans
      exact h.of_same rfl rfl rfl id h.phases
    · cases hnext
  | recheckWait t r =>
    simp only [Endpoint.next] at hnext
    simp only [Endpoint.Answers] at hans
    split at hnext
    · rename_i b hphase
      obtain rfl := Option.some.inj hnext
      have hb := h.phases t
      rw [hphase] at hb hans
      exact h.tryObtain hb hans
    · cases hnext
  | recheckComplete t =>
    simp only [Endpoint.next] at hnext
    split at hnext
    · split_ifs at hnext with hwait
      · obtain rfl := Option.some.inj hnext
        exact h.setPhase trivial
      · obtain rfl := Option.some.inj hnext
        refine h.finish (fun hdead => ?_) t
        rcases h.alive hdead with ⟨-, hall⟩ | ⟨done, b, k, hobtained, hold, hwritten⟩
        · exact hall
        · have hsolong := hold.solong
          have hfull : e.conn.wpdu.sz ≤ e.conn.wpdu.solong := by
            by_contra hlt
            apply hwait
            rw [hdead]
            simp only [Bool.not_false, Bool.true_and, Bool.and_eq_true, decide_eq_true_eq]
            omega
          have hb := h.sized b (by rw [hobtained]; simp)
          rw [hwritten, hold.written_eq hb hfull, hobtained]
    · cases hnext
  | removed t =>
    simp only [Endpoint.next] at hnext
    split at hnext
    · rename_i hphase
      obtain rfl := Option.some.inj hnext
      have hdead := h.phases t
      rw [hphase] at hdead
      refine h.finish (fun halive => ?_) t
      rw [show e.conn.dead = true from hdead] at halive
      cases halive
    · cases hnext
  | spurious t =>
    obtain rfl := Option.some.inj hnext
    exact h.setPhase (h.phases t).wakeWait.wakeComplete
  | writeCb r =>
    simp only [Endpoint.next] at hnext
    split_ifs at hnext with hdead
    obtain rfl := Option.some.inj hnext
    exact h.writeCb (by simpa using hdead) hans
  | readCb r₁ r₂ acc => exact h.readCb hnext
  | closeconn =>
    obtain rfl := Option.some.inj hnext
    exact h.of_same rfl rfl rfl (fun _ => rfl) (fun u => (h.phases u).mono (fun _ => rfl))

end Sender

/-! ## The receiver -/

section Receiver

variable {τ : Type}

/-- `rpdu_` holds a PDU of which `got` has been received. -/
structure Filling (got : Str) (p : Charbuf) : Prop where
  buf : p.buf = some got
  solong : p.solong = got.length
  header : 4 ≤ got.length
  sz : p.sz = pduSize got

/-- `rpdu_` holds what has been received since the last PDU. -/
def Reading (rest : Str) (p : Charbuf) : Prop := (p = .empty ∧ rest = []) ∨ Filling rest p

/-- After a read: `rpdu_` holds `got`, or it has been given up. -/
def Advances : Bool → Str → Charbuf → Prop
  | true, got, p => Filling got p
  | false, _, p => p.buf = none

theorem Filling.next {got : Str} {p : Charbuf} (h : Filling got p) (r : ReadResult) :
    Advances (readBody p r).1 (got ++ (readBody p r).2.2) (readBody p r).2.1 := by
  have hsame : Filling (got ++ []) p := by rwa [List.append_nil]
  cases r with
  | data bs =>
    refine ⟨?_, ?_, ?_, ?_⟩
    · show p.buf.map (· ++ bs) = _
      rw [h.buf]
      rfl
    · show p.solong + bs.length = ((got ++ bs).length : ℤ)
      rw [h.solong, List.length_append, Nat.cast_add]
    · have h4 := h.header
      show 4 ≤ (got ++ bs).length
      rw [List.length_append]
      omega
    · exact h.sz.trans (pduSize_append h.header bs).symm
  | zero again =>
    cases again with
    | true => exact hsame
    | false => exact rfl
  | again => exact hsame
  | failed => exact rfl

/-- The size of a PDU is read into an empty `rpdu_`. -/
theorem readHeader_spec {r : ReadResult} {ok : Bool} {p : Charbuf} {got : Str}
    (hs : readHeader .empty r = some (ok, p, got)) : Advances ok got p := by
  unfold readHeader at hs
  split at hs
  · split_ifs at hs with hbig hbuf
    · cases hs
      exact rfl
    · cases hs
      exact ⟨rfl, rfl, le_refl 4, rfl⟩
  all_goals
    cases hs
    try exact rfl

/-- **What `readpdu` does**: it adds to what is in `rpdu_`, or gives it up. -/
theorem Reading.next {rest : Str} {p : Charbuf} (h : Reading rest p)
    (hcall : p.buf = none ∨ p.solong < p.sz) {r₁ r₂ : ReadResult} {ok : Bool} {p' : Charbuf} {got : Str}
    (hs : readpdu p r₁ r₂ = some (ok, p', got)) : Advances ok (rest ++ got) p' := by
  unfold readpdu at hs
  rcases h with ⟨rfl, rfl⟩ | h
  · rw [if_pos (show Charbuf.empty.sz = 0 from rfl)] at hs
    split at hs
    · rename_i p₁ got₁ hheader
      have hfill : Filling got₁ p₁ := readHeader_spec hheader
      cases hs
      exact hfill.next r₂
    · exact readHeader_spec hs
  · -- the size of a PDU that is being received is not zero
    have hsz : p.sz ≠ 0 := by
      have h4 := h.header
      have hsolong := h.solong
      rcases hcall with hnone | hlt
      · rw [h.buf] at hnone
        cases hnone
      · omega
    rw [if_neg hsz] at hs
    have hbody := h.next r₂
    rwa [Option.some.inj hs] at hbody

/-- **The invariant of the receiver.** -/
structure Receiving (e : Endpoint τ) : Prop where
  delimited : ∀ q ∈ e.accepted, Delimited q
  stream : ∃ rest, e.taken = e.accepted.flatten ++ rest ∧
    (e.conn.dead = false → Reading rest e.conn.rpdu)

theorem receiving_init : Receiving (Endpoint.init : Endpoint τ) :=
  ⟨by simp [Endpoint.init], [], rfl, fun _ => .inl ⟨rfl, rfl⟩⟩

/-- A complete PDU is offered to `got_pdu`, which takes it or not. -/
theorem receiving_deliver {e : Endpoint τ} {rest : Str} (hdelimited : ∀ q ∈ e.accepted, Delimited q)
    (htaken : e.taken = e.accepted.flatten ++ rest)
    (hreading : e.conn.dead = false → Reading rest e.conn.rpdu)
    (hgone : e.conn.dead = true → e.conn.rpdu.buf = none) (acc : Bool) :
    Receiving (e.deliver acc) := by
  unfold Endpoint.deliver
  split
  · exact ⟨hdelimited, rest, htaken, hreading⟩
  · rename_i q hbuf
    split_ifs with hfull
    · -- the connection is alive, so that the bytes in `rpdu_` are the last ones read
      have hdead : e.conn.dead = false := by
        by_contra hne
        rw [hgone (by simpa using hne)] at hbuf
        cases hbuf
      rcases hreading hdead with ⟨hempty, -⟩ | hfill
      · rw [hempty] at hbuf
        cases hbuf
      · obtain rfl : rest = q := Option.some.inj (hfill.buf.symm.trans hbuf)
        refine ⟨?_, [], ?_, fun _ => .inl ⟨rfl, rfl⟩⟩
        · intro x hx
          rcases List.mem_append.1 hx with hx | hx
          · exact hdelimited x hx
          · obtain rfl := List.mem_singleton.1 hx
            exact ⟨hfill.header, by rw [← hfill.sz, hfull.1, hfill.solong]⟩
        · show e.taken = (e.accepted ++ [rest]).flatten ++ []
          rw [htaken]
          simp
    · exact ⟨hdelimited, rest, htaken, hreading⟩

/-- **`read_cb` keeps the invariant of the receiver**, whatever the bytes are. -/
theorem Receiving.readCb {e e' : Endpoint τ} (h : Receiving e) {r₁ r₂ : ReadResult} {acc : Bool}
    (hs : e.readCb r₁ r₂ acc = some e') : Receiving e' := by
  unfold Endpoint.readCb at hs
  split at hs
  · obtain rfl := Option.some.inj hs
    exact h
  · rename_i hdead
    obtain ⟨⟨succ, p, got⟩, hres, rfl⟩ := Option.map_eq_some_iff.1 hs
    obtain ⟨rest, htaken, hreading⟩ := h.stream
    have hread := hreading (by simpa using hdead)
    have hafter : (succ = true → Reading (rest ++ got) p) ∧ (succ = false → p.buf = none) := by
      split_ifs at hres with hcall
      · have hadv := hread.next hcall hres
        cases succ with
        | true => exact ⟨fun _ => .inr hadv, nofun⟩
        | false => exact ⟨nofun, fun _ => hadv⟩
      · cases hres
        rw [List.append_nil]
        exact ⟨fun _ => hread, nofun⟩
    have htaken' : e.taken ++ got = e.accepted.flatten ++ (rest ++ got) := by
      rw [htaken, List.append_assoc]
    apply receiving_deliver
    · exact h.delimited
    · exact htaken'
    · intro halive
      exact hafter.1 (by simpa using halive)
    · intro hdied
      exact hafter.2 (by simpa using hdied)

/-- A step that reads nothing. -/
theorem Receiving.quiet {e e' : Endpoint τ} (h : Receiving e) (hq : e.Quiet e') : Receiving e' := by
  obtain ⟨rest, hstream, hreading⟩ := h.stream
  refine ⟨by rw [hq.accepted]; exact h.delimited, rest, by rw [hq.taken, hq.accepted, hstream], ?_⟩
  intro halive
  rw [hq.rpdu]
  apply hreading
  by_contra hne
  rw [hq.dead (by simpa using hne)] at halive
  cases halive

/-- **One step keeps the invariant of the receiver.** -/
theorem Receiving.step [DecidableEq τ] {e e' : Endpoint τ} {a : ConnAct τ} (h : Receiving e)
    (hs : e.Step a e') : Receiving e' := by
  rcases Endpoint.quiet_next hs.2 with hquiet | ⟨r₁, r₂, acc, rfl⟩
  · exact h.quiet hquiet
  · exact h.readCb hs.2

end Receiver

/-! ## Two connections -/

section Joined

variable {τ : Type} [DecidableEq τ]

/-- The two ends of a stream. -/
structure StreamLink (τ : Type) where
  sender : Endpoint τ
  receiver : Endpoint τ

/-- A step of one of the ends. -/
inductive StreamLinkAct (τ : Type)
  | sender (a : ConnAct τ)
  | receiver (a : ConnAct τ)

/-- Either end makes a step; what it has read after it is a prefix of what the other has written. -/
def StreamLink.Step (s : StreamLink τ) (a : StreamLinkAct τ) (s' : StreamLink τ) : Prop :=
  match a with
  | .sender a => s.sender.Step a s'.sender ∧ s'.receiver = s.receiver ∧
      s'.sender.taken <+: s.receiver.written
  | .receiver a => s.receiver.Step a s'.receiver ∧ s'.sender = s.sender ∧
      s'.receiver.taken <+: s.sender.written

/-- The two connections before anything has happened. -/
def StreamLink.init : StreamLink τ := ⟨.init, .init⟩

/-- The sender's threads send buffers of a good size. -/
def StreamLink.SendsSized (_s : StreamLink τ) : StreamLinkAct τ → Prop
  | .sender a => a.SendsSized
  | .receiver _ => True

/-- The invariant of both ends. -/
structure StreamLink.Inv (s : StreamLink τ) : Prop where
  sending : Sending s.sender
  receiving : Receiving s.receiver
  stream : s.receiver.taken <+: s.sender.written

theorem StreamLink.Inv.step {s s' : StreamLink τ} {a : StreamLinkAct τ} (h : s.Inv)
    (hs : Guarded StreamLink.SendsSized StreamLink.Step s a s') : s'.Inv := by
  obtain ⟨hsized, hs⟩ := hs
  cases a with
  | sender a =>
    obtain ⟨hstep, hreceiver, -⟩ := hs
    refine ⟨h.sending.step hsized hstep, by rw [hreceiver]; exact h.receiving, ?_⟩
    rw [hreceiver]
    exact h.stream.trans (Endpoint.written_prefix hstep)
  | receiver a =>
    obtain ⟨hstep, hsender, hstream⟩ := hs
    refine ⟨by rw [hsender]; exact h.sending, h.receiving.step hstep, ?_⟩
    rw [hsender]
    exact hstream

/-- **Framing preserves the message stream.**  In every run in which the sender's threads send buffers
of a good size, whatever pieces the bytes are written and read in, whatever fails, and however often
`got_pdu` refuses: the PDUs accepted by the receiver are a prefix of the frames of the buffers, in the
order in which these were put into `wpdu_`. -/
theorem accepted_prefix {t : List (StreamLinkAct τ)} {s : StreamLink τ}
    (hrun : Trace (Guarded StreamLink.SendsSized StreamLink.Step) StreamLink.init t s) :
    s.receiver.accepted <+:
      s.sender.obtained.map (fun b => be32 (UInt32.ofNat b.length) ++ b.drop 4) := by
  have hinv : s.Inv := Trace.invariant (I := StreamLink.Inv)
    ⟨sending_init, receiving_init, List.prefix_rfl⟩ (fun _ _ _ hi hs => hi.step hs) hrun
  obtain ⟨rest, htaken, -⟩ := hinv.receiving.stream
  have hstream : s.receiver.accepted.flatten ++ rest <+: frames s.sender.obtained := by
    rw [← htaken]
    exact hinv.stream.trans hinv.sending.stream
  have hframes : s.sender.obtained.map frame =
      s.sender.obtained.map (fun b => be32 (UInt32.ofNat b.length) ++ b.drop 4) := by
    apply List.map_congr_left
    intro b hb
    exact frame_eq (hinv.sending.sized b hb)
  rw [← hframes]
  refine prefix_of_flatten hinv.receiving.delimited ?_ hstream
  intro f hf
  obtain ⟨b, hb, rfl⟩ := List.mem_map.1 hf
  exact delimited_frame (hinv.sending.sized b hb)

/-- A fresh connection after the given steps. -/
def Endpoint.after (acts : List (ConnAct ℕ)) : Endpoint ℕ :=
  acts.foldl (fun e a => (e.next a).getD e) .init

/-- A buffer of six bytes that is written in two pieces, read in three, and refused once. -/
theorem accepted_prefix_refused :
    ∃ (t : List (StreamLinkAct ℕ)) (s : StreamLink ℕ),
      Trace (Guarded StreamLink.SendsSized StreamLink.Step) StreamLink.init t s ∧
      s.receiver.accepted = [[0, 0, 0, 6, 7, 8]] ∧
      s.receiver.accepted <+:
        s.sender.obtained.map (fun b => be32 (UInt32.ofNat b.length) ++ b.drop 4) := by
  let send : ConnAct ℕ := .send 0 [1, 2, 3, 4, 7, 8] (.wrote 5)
  let write : ConnAct ℕ := .writeCb (.wrote 1)
  let read₁ : ConnAct ℕ := .readCb (.data [0, 0, 0, 6]) (.data [7]) true
  let read₂ : ConnAct ℕ := .readCb .again (.data [8]) false
  let read₃ : ConnAct ℕ := .readCb .again .again true
  have h₁ : Guarded StreamLink.SendsSized StreamLink.Step StreamLink.init (.sender send)
      ⟨.after [send], .after []⟩ :=
    ⟨⟨by decide, by decide⟩, ⟨(by decide : 5 ≤ 6), rfl⟩, rfl, List.nil_prefix⟩
  have h₂ : Guarded StreamLink.SendsSized StreamLink.Step ⟨.after [send], .after []⟩ (.receiver read₁)
      ⟨.after [send], .after [read₁]⟩ :=
    ⟨trivial, ⟨⟨by decide, by decide⟩, rfl⟩, rfl, by decide⟩
  have h₃ : Guarded StreamLink.SendsSized StreamLink.Step ⟨.after [send], .after [read₁]⟩
      (.sender write) ⟨.after [send, write], .after [read₁]⟩ :=
    ⟨trivial, ⟨(by decide : 1 ≤ 1), rfl⟩, rfl, List.nil_prefix⟩
  have h₄ : Guarded StreamLink.SendsSized StreamLink.Step ⟨.after [send, write], .after [read₁]⟩
      (.receiver read₂) ⟨.after [send, write], .after [read₁, read₂]⟩ :=
    ⟨trivial, ⟨⟨trivial, by decide⟩, rfl⟩, rfl, by decide⟩
  have h₅ : Guarded StreamLink.SendsSized StreamLink.Step
      ⟨.after [send, write], .after [read₁, read₂]⟩ (.receiver read₃)
      ⟨.after [send, write], .after [read₁, read₂, read₃]⟩ :=
    ⟨trivial, ⟨⟨trivial, by decide⟩, rfl⟩, rfl, by decide⟩
  have hrun := ((((Trace.single h₁).snoc h₂).snoc h₃).snoc h₄).snoc h₅
  exact ⟨_, _, hrun, by decide, accepted_prefix hrun⟩

end Joined
