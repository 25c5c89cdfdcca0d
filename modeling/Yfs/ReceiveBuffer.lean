/-
# The bounds of the receive buffer (`rpc/connection.cc`, `readpdu`)

`readpdu` reads the size of a PDU, allocates a buffer for it, copies the four bytes it has read into
the buffer and reads on behind them, in this call and in later ones.  The size is an `int` of the
peer's choice that is only checked against `MAX_PDU` from above.

* `Buffered` adds to a connection the number of bytes `malloc` was last asked for.
* `Endpoint.secondRead` is `rpdu_` at the moment of the second `read` of a `read_cb`.

A second `read` stays inside the buffer unless the call has just read a size from `-4` to `3`
(`secondRead_fits_iff`): of these the buffer holds fewer than eight bytes, and the length of the
`read`, a negative number as a `size_t`, is close to `2 ^ 64`.  A size below `-4` asks `malloc` for
nearly `2 ^ 64` bytes, which it does not have; the `VERIFY` after it ends the process, and the bound
holds as well.
-/
import Yfs.Framing

open NetworkOrder

section ReceiveBuffer

variable {τ : Type}

/-! ## The two reads -/

/-- `sz + sizeof(sz)` as a `size_t`, the argument of `malloc`. -/
def mallocSize (sz : ℤ) : ℕ := ((sz + 4) % 2 ^ 64).toNat

/-- `read_cb` calls `readpdu`. -/
def Endpoint.callsReadpdu (e : Endpoint τ) : Bool :=
  !e.conn.dead && (e.conn.rpdu.buf.isNone || decide (e.conn.rpdu.solong < e.conn.rpdu.sz))

/-- `rpdu_` after `readpdu` has read a size and allocated the buffer for it, if it does. -/
def Endpoint.announced (e : Endpoint τ) (r₁ : ReadResult) : Option Charbuf :=
  if e.callsReadpdu && e.conn.rpdu.sz == 0 then
    match readHeader e.conn.rpdu r₁ with
    | some (true, p, _) => some p
    | _ => none
  else none

/-- `rpdu_` at the second `read` of `readpdu`, if `read_cb` gets there. -/
def Endpoint.secondRead (e : Endpoint τ) (r₁ : ReadResult) : Option Charbuf :=
  if e.callsReadpdu then
    if e.conn.rpdu.sz = 0 then e.announced r₁ else some e.conn.rpdu
  else none

/-- A connection and the number of bytes `malloc` was last asked for. -/
structure Buffered (τ : Type) where
  ep : Endpoint τ
  allocated : ℕ

namespace Buffered

/-- The number of bytes allocated for `rpdu_.buf` at the second `read`. -/
def allocatedAt (s : Buffered τ) (r₁ : ReadResult) : ℕ :=
  match s.ep.announced r₁ with
  | some p => mallocSize p.sz
  | none => s.allocated

theorem allocatedAt_of_some {s : Buffered τ} {r₁ : ReadResult} {p : Charbuf}
    (h : s.ep.announced r₁ = some p) : s.allocatedAt r₁ = mallocSize p.sz := by
  rw [allocatedAt, h]

theorem allocatedAt_of_none {s : Buffered τ} {r₁ : ReadResult} (h : s.ep.announced r₁ = none) :
    s.allocatedAt r₁ = s.allocated := by
  rw [allocatedAt, h]

/-- A connection fresh from its constructor. -/
def init : Buffered τ := ⟨.init, 0⟩

/-- A step of the connection; `read_cb` may call `malloc`. -/
def Step [DecidableEq τ] (s : Buffered τ) (a : ConnAct τ) (s' : Buffered τ) : Prop :=
  s.ep.Step a s'.ep ∧
    s'.allocated = match a with
      | .readCb r₁ _ _ => s.allocatedAt r₁
      | _ => s.allocated

/-! ## The allocation belongs to the buffer -/

/-- While the connection lives, `rpdu_.buf` was allocated for `rpdu_.sz`. -/
structure Inv (s : Buffered τ) : Prop where
  receiving : Receiving s.ep
  allocated : s.ep.conn.dead = false → s.ep.conn.rpdu.buf.isSome →
    s.allocated = mallocSize s.ep.conn.rpdu.sz

theorem readBody_sz {p : Charbuf} {r : ReadResult} (h : (readBody p r).1 = true) :
    (readBody p r).2.1.sz = p.sz := by
  unfold readBody at h ⊢
  split <;> simp_all

/-- A successful `readpdu` that has read no size keeps the one it has, and one that has read a size has
that one. -/
theorem sz_of_readpdu {p p' : Charbuf} {r₁ r₂ : ReadResult} {got : Str}
    (h : readpdu p r₁ r₂ = some (true, p', got)) :
    (p.sz ≠ 0 ∧ p'.sz = p.sz) ∨
      ∃ p₁ got₁, p.sz = 0 ∧ readHeader p r₁ = some (true, p₁, got₁) ∧ p'.sz = p₁.sz := by
  unfold readpdu at h
  split_ifs at h with hsz
  · split at h
    · rename_i p₁ got₁ hheader
      have hres := Option.some.inj h
      have hok : (readBody p₁ r₂).1 = true := congrArg Prod.fst hres
      have hp : (readBody p₁ r₂).2.1 = p' := congrArg (fun x => x.2.1) hres
      exact .inr ⟨p₁, got₁, hsz, hheader, hp ▸ readBody_sz hok⟩
    · rename_i hne
      exact absurd h (hne p' got)
  · have hres := Option.some.inj h
    have hok : (readBody p r₂).1 = true := congrArg Prod.fst hres
    have hp : (readBody p r₂).2.1 = p' := congrArg (fun x => x.2.1) hres
    exact .inl ⟨hsz, hp ▸ readBody_sz hok⟩

/-- The offer to `got_pdu` keeps the buffer or gives it away. -/
theorem deliver_rpdu (e : Endpoint τ) (acc : Bool) :
    (e.deliver acc).conn.dead = e.conn.dead ∧
      ((e.deliver acc).conn.rpdu = e.conn.rpdu ∨ (e.deliver acc).conn.rpdu = .empty) := by
  unfold Endpoint.deliver
  split
  · exact ⟨rfl, .inl rfl⟩
  · split_ifs
    · exact ⟨rfl, .inr rfl⟩
    · exact ⟨rfl, .inl rfl⟩

theorem Inv.readCb {s : Buffered τ} (h : s.Inv) {e' : Endpoint τ} {r₁ r₂ : ReadResult} {acc : Bool}
    (hs : s.ep.readCb r₁ r₂ acc = some e') : Inv ⟨e', s.allocatedAt r₁⟩ := by
  refine ⟨h.receiving.readCb hs, fun halive hsome => ?_⟩
  show s.allocatedAt r₁ = mallocSize e'.conn.rpdu.sz
  have hbefore := h.allocated
  unfold Endpoint.readCb at hs
  split_ifs at hs with hdead
  · obtain rfl := Option.some.inj hs
    exact absurd hdead (by simpa using halive)
  · obtain ⟨⟨succ, p, got⟩, hres, rfl⟩ := Option.map_eq_some_iff.1 hs
    simp only at halive hsome
    obtain ⟨hdied, hrpdu⟩ := deliver_rpdu
      ({ s.ep with
        conn := { s.ep.conn with rpdu := p, dead := !succ }
        phase := fun u => if succ then s.ep.phase u else (s.ep.phase u).wakeComplete
        taken := s.ep.taken ++ got } : Endpoint τ) acc
    rw [hdied] at halive
    obtain rfl : succ = true := by simpa using halive
    -- the PDU has not been given away, since there is still a buffer
    rcases hrpdu with hrpdu | hrpdu
    · rw [hrpdu] at hsome ⊢
      simp only at hsome ⊢
      have halive₀ : s.ep.conn.dead = false := by simpa using hdead
      split_ifs at hres with hcall
      · have hcalls : s.ep.callsReadpdu = true := by
          simp only [Endpoint.callsReadpdu, halive₀, Bool.not_false, Bool.true_and, Bool.or_eq_true,
            Option.isNone_iff_eq_none, decide_eq_true_eq]
          exact hcall
        rcases sz_of_readpdu hres with ⟨hsz, hp⟩ | ⟨p₁, got₁, hsz, hheader, hp⟩
        · have hnone : s.ep.announced r₁ = none := by simp [Endpoint.announced, hsz]
          have hbuf : s.ep.conn.rpdu.buf.isSome := by
            obtain ⟨rest, -, hreading⟩ := h.receiving.stream
            rcases hreading halive₀ with ⟨hempty, -⟩ | hfill
            · rw [hempty] at hsz
              exact absurd rfl hsz
            · rw [hfill.buf]
              rfl
          rw [allocatedAt_of_none hnone, hp]
          exact hbefore halive₀ hbuf
        · have hsome : s.ep.announced r₁ = some p₁ := by
            simp [Endpoint.announced, hcalls, hsz, hheader]
          rw [allocatedAt_of_some hsome, hp]
      · have hcalls : s.ep.callsReadpdu = false := by
          simp only [Endpoint.callsReadpdu, halive₀, Bool.not_false, Bool.true_and,
            Bool.or_eq_false_iff, Option.isNone_eq_false_iff, decide_eq_false_iff_not]
          rw [not_or] at hcall
          exact ⟨Option.isSome_iff_ne_none.2 hcall.1, hcall.2⟩
        have hnone : s.ep.announced r₁ = none := by simp [Endpoint.announced, hcalls]
        obtain rfl : s.ep.conn.rpdu = p := by
          simpa using congrArg (fun x => x.2.1) (Option.some.inj hres)
        rw [allocatedAt_of_none hnone]
        exact hbefore halive₀ hsome
    · rw [hrpdu] at hsome
      cases hsome

variable [DecidableEq τ]

theorem Inv.step {s s' : Buffered τ} {a : ConnAct τ} (h : s.Inv) (hs : Step s a s') : s'.Inv := by
  obtain ⟨e', n'⟩ := s'
  obtain ⟨hstep, hn⟩ := hs
  rcases Endpoint.quiet_next hstep.2 with hquiet | ⟨r₁, r₂, acc, rfl⟩
  · cases a with
    | readCb r₁ r₂ acc =>
      obtain rfl : n' = s.allocatedAt r₁ := hn
      exact h.readCb hstep.2
    | _ =>
      refine ⟨h.receiving.quiet hquiet, fun halive hsome => ?_⟩
      obtain rfl : n' = s.allocated := hn
      show s.allocated = mallocSize e'.conn.rpdu.sz
      rw [hquiet.rpdu] at hsome ⊢
      refine h.allocated ?_ hsome
      by_contra hne
      rw [hquiet.dead (by simpa using hne)] at halive
      cases halive
  · obtain rfl : n' = s.allocatedAt r₁ := hn
    exact h.readCb hstep.2

theorem inv_run {t : List (ConnAct τ)} {s : Buffered τ} (hrun : Trace Step init t s) : s.Inv :=
  Trace.invariant (I := Inv) ⟨receiving_init, fun _ hsome => by cases hsome⟩
    (fun _ _ _ hi hs => hi.step hs) hrun

/-! ## When the second read stays in the buffer -/

theorem pduSize_bounds (q : Str) : -2 ^ 31 ≤ pduSize q ∧ pduSize q < 2 ^ 31 := by
  unfold pduSize
  split
  · rename_i a b c d _
    exact ⟨Int32.le_toInt _, Int32.toInt_lt _⟩
  · exact ⟨by norm_num, by norm_num⟩

/-- What a size that has been read leaves in `rpdu_`. -/
theorem readHeader_success {p p' : Charbuf} {r : ReadResult} {got : Str}
    (h : readHeader p r = some (true, p', got)) :
    ∃ hd, r = .data hd ∧ p'.sz = pduSize hd ∧ p'.solong = 4 := by
  unfold readHeader at h
  split at h
  · rename_i a b c d
    split_ifs at h
    · cases h
    · cases h
      exact ⟨[a, b, c, d], rfl, rfl, rfl⟩
  all_goals cases h

/-- **When the receive buffer is overrun, exactly.**  After any run of a connection, whatever the peer
has sent and however it was split into reads: the second `read` of a `read_cb` is asked for no more
than fits behind the bytes that are in the buffer, and the buffer had room for the four bytes of the
size, if and only if this call has not just read a size from `-4` to `3`. -/
theorem secondRead_fits_iff {t : List (ConnAct τ)} {s : Buffered τ} (hrun : Trace Step init t s)
    {r₁ : ReadResult} {p : Charbuf} (hp : s.ep.secondRead r₁ = some p) :
    ((p.request : ℤ) + p.solong ≤ s.allocatedAt r₁ ∧ 4 ≤ s.allocatedAt r₁) ↔
      ¬ (s.ep.conn.rpdu.buf = none ∧ ∃ hd, r₁ = .data hd ∧ -4 ≤ pduSize hd ∧ pduSize hd ≤ 3) := by
  have hinv := inv_run hrun
  unfold Endpoint.secondRead at hp
  split_ifs at hp with hcalls hsz
  · -- a size has been read, into an empty `rpdu_`
    rw [allocatedAt_of_some hp]
    unfold Endpoint.announced at hp
    rw [if_pos (by simp [hcalls, hsz])] at hp
    split at hp
    · rename_i p₁ got hheader
      obtain rfl := Option.some.inj hp
      obtain ⟨hd, rfl, hpsz, hsolong⟩ := readHeader_success hheader
      have hnone : s.ep.conn.rpdu.buf = none := by
        cases hbuf : s.ep.conn.rpdu.buf with
        | none => rfl
        | some q =>
          -- `VERIFY(rpdu_.buf == NULL)`
          unfold readHeader at hheader
          split at hheader <;> simp [hbuf] at hheader
      have hbounds := pduSize_bounds hd
      have hcond : (s.ep.conn.rpdu.buf = none ∧
          ∃ hd', ReadResult.data hd = .data hd' ∧ -4 ≤ pduSize hd' ∧ pduSize hd' ≤ 3) ↔
          -4 ≤ pduSize hd ∧ pduSize hd ≤ 3 := by
        constructor
        · rintro ⟨-, hd', heq, hrange⟩
          cases heq
          exact hrange
        · intro hrange
          exact ⟨hnone, hd, rfl, hrange⟩
      rw [hcond, hsolong, Charbuf.request, mallocSize, hpsz, hsolong]
      omega
    · cases hp
  · -- the rest of a PDU whose size an earlier call has read
    obtain rfl := Option.some.inj hp
    have hnone : s.ep.announced r₁ = none := by simp [Endpoint.announced, hsz]
    simp only [Endpoint.callsReadpdu, Bool.and_eq_true, Bool.not_eq_true', Bool.or_eq_true,
      Option.isNone_iff_eq_none, decide_eq_true_eq] at hcalls
    obtain ⟨halive, hcall⟩ := hcalls
    obtain ⟨rest, -, hreading⟩ := hinv.receiving.stream
    rcases hreading halive with ⟨hempty, -⟩ | hfill
    · rw [hempty] at hsz
      exact absurd rfl hsz
    · have hlt : s.ep.conn.rpdu.solong < s.ep.conn.rpdu.sz := by
        rcases hcall with hbuf | hlt
        · rw [hfill.buf] at hbuf
          cases hbuf
        · exact hlt
      have hbounds := pduSize_bounds rest
      have h4 := hfill.header
      have hsolong := hfill.solong
      have hpsz := hfill.sz
      rw [allocatedAt_of_none hnone, hinv.allocated halive (by rw [hfill.buf]; rfl),
        Charbuf.request, mallocSize]
      refine iff_of_true (by omega) ?_
      rintro ⟨hbuf, -⟩
      rw [hfill.buf] at hbuf
      cases hbuf

/-- A size of six: the second `read` asks for two bytes of a buffer of ten. -/
theorem secondRead_fits_six :
    let s : Buffered ℕ := init
    let r₁ : ReadResult := .data [0, 0, 0, 6]
    (s.ep.secondRead r₁ = some ⟨some [0, 0, 0, 6], 6, 4⟩ ∧ s.allocatedAt r₁ = 10) ∧
      (((⟨some [0, 0, 0, 6], 6, 4⟩ : Charbuf).request : ℤ) + 4 ≤ s.allocatedAt r₁ ∧
        4 ≤ s.allocatedAt r₁) := by
  intro s r₁
  have hp : s.ep.secondRead r₁ = some ⟨some [0, 0, 0, 6], 6, 4⟩ := by decide
  refine ⟨⟨hp, by decide⟩, (secondRead_fits_iff (s := s) .nil hp).mpr ?_⟩
  rintro ⟨-, hd, heq, -, hle⟩
  obtain rfl : [0, 0, 0, 6] = hd := ReadResult.data.inj heq
  exact absurd hle (by decide)

/-- A size of zero: the second `read` is asked for `2 ^ 64 - 4` bytes, of a buffer of four. -/
theorem secondRead_overruns :
    ¬ ∀ (t : List (ConnAct ℕ)) (s : Buffered ℕ), Trace Step init t s → ∀ r₁ p,
      s.ep.secondRead r₁ = some p →
      (p.request : ℤ) + p.solong ≤ s.allocatedAt r₁ ∧ 4 ≤ s.allocatedAt r₁ := by
  intro h
  have hle := (h [] init .nil (.data [0, 0, 0, 0]) ⟨some [0, 0, 0, 0], 0, 4⟩ (by decide)).1
  exact absurd hle (by decide)

end Buffered

end ReceiveBuffer
