/-
# The poll thread and a connection (`rpc/pollmgr.cc`, `rpc/connection.cc`)

One thread, `PollMgr::wait_loop`, waits for all descriptors with `select` and calls `read_cb` and
`write_cb` of the connections that are ready.  The file joins it with one connection (`Yfs.Connection`)
and the threads that send on it or close it.

* The descriptor's part of `PollMgr`: its bits in `rfds_` and `wfds_`, and whether `callbacks_[fd]` is
  set.  `add_callback` and `del_callback` are called inside critical sections of the connection and
  belong to these.
* The loop goes through `LoopPhase`: it answers pending changes, copies `rfds_` and `wfds_`, comes back
  from `select` with some of the bits it has copied, and looks at `callbacks_[fd]` before it calls
  `read_cb` and again before it calls `write_cb`.  It holds no lock in between.
* `block_remove_fd` is called once at most, by the thread that has set `dead_` in `send` or `closeconn`.
  Its wait may end at any time: by a broadcast, also one for another descriptor, or by itself.

`write_cb` begins with `VERIFY(!dead_)`.  In the runs in which `send` and `closeconn` set `dead_` only
while no write interest is registered and none is on its way through the loop, it never fails
(`write_cb_verify`); after any other such step it can fail (`abort_reachable`).
-/
import Yfs.Connection
import Yfs.Trace

namespace PollMgr

/-! ## The system -/

/-- Where the thread is that has set `dead_` in `send` or `closeconn`. -/
inductive Removal
  | none
  /-- before `block_remove_fd` -/
  | before
  /-- in the wait for `changedone_c_` -/
  | waiting
  /-- woken, before `callbacks_[fd] = NULL` -/
  | woken
  /-- back from `block_remove_fd` -/
  | done
  deriving DecidableEq, Repr

/-- Where the loop is, with what it knows of the descriptor: readable, writable. -/
inductive LoopPhase
  /-- before `if (pending_change_)` -/
  | top
  /-- before the copy of `rfds_` and `wfds_` -/
  | waitReady
  /-- in `select` -/
  | selecting (r w : Bool)
  /-- with the readable and writable descriptors still to be looked at -/
  | ready (r w : Bool)
  /-- `read_cb` is called -/
  | reading (w : Bool)
  /-- `write_cb` is called -/
  | writing
  deriving DecidableEq, Repr

/-- A `write_cb` may still come out of the present turn of the loop. -/
def LoopPhase.write : LoopPhase → Bool
  | top => false
  | waitReady => false
  | selecting _ w => w
  | ready _ w => w
  | reading w => w
  | writing => true

/-- A connection and the poll manager. -/
structure Sys (τ : Type) where
  ep : Endpoint τ
  rfds : Bool
  wfds : Bool
  callback : Bool
  pendingChange : Bool
  removal : Removal
  loop : LoopPhase

/-- The steps of the other threads on the connection, of `block_remove_fd`, and of the loop. -/
inductive Act (τ : Type)
  | conn (a : ConnAct τ)
  | unwatch
  | wakeRemover
  | clear
  | changeDone
  | snapshot
  | select (r w : Bool)
  | checkRead
  | readCb (r₁ r₂ : ReadResult) (acc : Bool)
  | checkWrite
  | writeCb (r : WriteResult)

variable {τ : Type} [DecidableEq τ]

namespace Sys

/-- A connection fresh from its constructor, which calls `add_callback(fd_, CB_RDONLY, this)`. -/
def init : Sys τ := ⟨.init, true, false, true, false, .none, .top⟩

/-- The end of a critical section of `send`: with bytes left it calls `add_callback(fd_, CB_WRONLY,
this)`, after a failed `write` it is on its way to `block_remove_fd`. -/
def sent (s : Sys τ) (t : τ) (e : Endpoint τ) : Sys τ :=
  match e.phase t with
  | .sendComplete _ => { s with ep := e, wfds := true, callback := true }
  | .removing => { s with ep := e, removal := .before }
  | _ => { s with ep := e }

/-- `del_callback(fd_, CB_RDWR)`. -/
def delCallback (s : Sys τ) : Sys τ := { s with rfds := false, wfds := false, callback := false }

/-- A critical section of the connection by a thread other than the loop. -/
def connNext (s : Sys τ) : ConnAct τ → Option (Sys τ)
  | .send t b r => (s.ep.next (.send t b r)).map (s.sent t)
  | .recheckWait t r => (s.ep.next (.recheckWait t r)).map (s.sent t)
  | .removed t =>
    if s.removal = .done then (s.ep.next (.removed t)).map (fun e => { s with ep := e }) else none
  | .closeconn =>
    (s.ep.next .closeconn).map (fun e =>
      { s with ep := e, removal := if s.ep.conn.dead then s.removal else .before })
  | .recheckComplete t => (s.ep.next (.recheckComplete t)).map (fun e => { s with ep := e })
  | .spurious t => (s.ep.next (.spurious t)).map (fun e => { s with ep := e })
  | .writeCb _ => none
  | .readCb _ _ _ => none

/-- The state after a step; `none` when the step is not next, or when a `VERIFY` fails. -/
def next (s : Sys τ) : Act τ → Option (Sys τ)
  | .conn a => s.connNext a
  | .unwatch =>
    if s.removal = .before then
      some { s with rfds := false, wfds := false, pendingChange := true, removal := .waiting }
    else none
  | .wakeRemover => if s.removal = .waiting then some { s with removal := .woken } else none
  | .clear => if s.removal = .woken then some { s with callback := false, removal := .done } else none
  | .changeDone =>
    if s.loop = .top then
      some { s with
        pendingChange := false
        removal := if s.pendingChange = true ∧ s.removal = .waiting then .woken else s.removal
        loop := .waitReady }
    else none
  | .snapshot =>
    if s.loop = .waitReady then some { s with loop := .selecting s.rfds s.wfds } else none
  | .select r' w' =>
    match s.loop with
    | .selecting r w => if (r' → r) ∧ (w' → w) then some { s with loop := .ready r' w' } else none
    | _ => none
  | .checkRead =>
    match s.loop with
    | .ready true w => some { s with loop := if s.callback then .reading w else .ready false w }
    | _ => none
  | .readCb r₁ r₂ acc =>
    match s.loop with
    | .reading w => (s.ep.readCb r₁ r₂ acc).map (fun e =>
        -- a read that fails deletes the callbacks
        let s := if e.conn.dead && !s.ep.conn.dead then s.delCallback else s
        { s with ep := e, loop := .ready false w })
    | _ => none
  | .checkWrite =>
    match s.loop with
    | .ready false w => some { s with loop := if w && s.callback then .writing else .top }
    | _ => none
  | .writeCb r =>
    if s.loop = .writing ∧ s.ep.conn.dead = false then
      let e := s.ep.writeCb r
      let s' :=
        -- nothing to write: the write interest is dropped
        if s.ep.conn.wpdu.sz = 0 then { s with wfds := false, callback := s.callback && s.rfds }
        else if e.conn.dead then s.delCallback
        else s
      some { s' with ep := e, loop := .top }
    else none

/-- The answers of the operating system fit the requests. -/
def Answers (s : Sys τ) : Act τ → Prop
  | .conn a => s.ep.Answers a
  | .readCb r₁ r₂ acc => s.ep.Answers (.readCb r₁ r₂ acc)
  | .writeCb r => s.ep.Answers (.writeCb r)
  | _ => True

def Step (s : Sys τ) (a : Act τ) (s' : Sys τ) : Prop := s.Answers a ∧ s.next a = some s'

/-- `write_cb` is called, and its `VERIFY(!dead_)` fails. -/
def Aborts (s : Sys τ) : Prop := s.loop = .writing ∧ s.ep.conn.dead = true

/-- A thread that has the buffer `b` to send gets to write, and the `write` fails. -/
def writeFails (s : Sys τ) (b : Str) (r : WriteResult) : Bool :=
  !s.ep.conn.dead && s.ep.conn.wpdu.buf.isNone && !b.isEmpty && decide (r = .failed)

/-- The step sets `dead_` in `send` or in `closeconn`. -/
def dies (s : Sys τ) : Act τ → Bool
  | .conn (.send _ b r) => s.writeFails b r
  | .conn (.recheckWait t r) =>
    match s.ep.phase t with
    | .sendWait b _ => s.writeFails b r
    | _ => false
  | .conn .closeconn => !s.ep.conn.dead
  | _ => false

/-- `send` and `closeconn` set `dead_` only while no write interest is registered and none is on its way
through the loop. -/
def WriteQuiet (s : Sys τ) (a : Act τ) : Prop :=
  s.dies a = true → s.wfds = false ∧ s.loop.write = false

/-! ## What a step does -/

/-- What a step of another thread does to the flags: nothing, it registers write interest for a live
connection, or the connection dies and its descriptor is still registered. -/
inductive ConnMove (s s' : Sys τ) (dies : Bool) : Prop
  | same (hdead : s'.ep.conn.dead = s.ep.conn.dead) (hr : s'.rfds = s.rfds) (hw : s'.wfds = s.wfds)
      (hc : s'.callback = s.callback) (hm : s'.removal = s.removal)
  | watch (hdead : s.ep.conn.dead = false) (hdead' : s'.ep.conn.dead = false) (hr : s'.rfds = s.rfds)
      (hc : s'.callback = true) (hm : s'.removal = s.removal)
  | death (hdies : dies = true) (hdead : s.ep.conn.dead = false) (hdead' : s'.ep.conn.dead = true)
      (hr : s'.rfds = s.rfds) (hw : s'.wfds = s.wfds) (hc : s'.callback = s.callback)
      (hm : s'.removal = .before)

omit [DecidableEq τ] in
/-- Only a `write` that has been called can fail. -/
theorem of_writepdu_fails {w : Charbuf} {r : WriteResult} (h : (writepdu w r).1 = false) :
    w.solong ≠ w.sz ∧ r = .failed := by
  unfold writepdu at h
  by_cases hfull : w.solong = w.sz
  · rw [if_pos hfull] at h
    cases h
  · rw [if_neg hfull] at h
    refine ⟨hfull, ?_⟩
    cases r with
    | failed => rfl
    | wrote n => cases h
    | again => cases h

/-- Where the first loop of `send` leaves the thread. -/
theorem tryObtain_spec (e : Endpoint τ) (t : τ) (b : Str) (r : WriteResult) :
    let e' := e.tryObtain t b r
    (e'.conn.dead = e.conn.dead ∧ (∀ w, e'.phase t ≠ .sendComplete w) ∧ e'.phase t ≠ .removing) ∨
      (e.conn.dead = false ∧ e'.conn.dead = false ∧ ∃ w, e'.phase t = .sendComplete w) ∨
      (e.conn.dead = false ∧ e.conn.wpdu.buf = none ∧ b ≠ [] ∧ r = .failed ∧ e'.conn.dead = true ∧
        e'.phase t = .removing) := by
  intro e'
  have hself : ∀ (x : Endpoint τ) (p : Phase), (x.setPhase t p).phase t = p :=
    fun x p => Function.update_self _ _ _
  unfold e' Endpoint.tryObtain
  split_ifs with hbusy
  · exact .inl ⟨rfl, by simp [hself], by simp [hself]⟩
  unfold Endpoint.obtain
  cases hdead : e.conn.dead with
  | true =>
    simp only [hdead, if_true]
    exact .inl ⟨rfl, by simp [hself], by simp [hself]⟩
  | false =>
    simp only [hdead, Bool.false_eq_true, if_false]
    split_ifs with hok hfull
    · right
      right
      have hfree : e.conn.wpdu.buf = none := by simpa [hdead] using hbusy
      obtain ⟨hempty, hr⟩ := of_writepdu_fails (w := ⟨some b, b.length, 0⟩) (r := r)
        (by simpa using hok)
      refine ⟨trivial, hfree, ?_, hr, hok, hself _ _⟩
      rintro rfl
      exact hempty rfl
    · left
      have hdead' : (!(writepdu ⟨some b, b.length, 0⟩ r).1) = false := by simpa using hok
      exact ⟨hdead', by simp [Endpoint.finish, hself], by simp [Endpoint.finish, hself]⟩
    · right
      left
      have hdead' : (!(writepdu ⟨some b, b.length, 0⟩ r).1) = false := by simpa using hok
      exact ⟨trivial, hdead', false, hself _ _⟩

/-- The end of a critical section of `send`. -/
theorem move_sent {s : Sys τ} {e : Endpoint τ} (hdead : e.conn.dead = s.ep.conn.dead)
    (hwpdu : e.conn.wpdu = s.ep.conn.wpdu) (t : τ) (b : Str) (r : WriteResult) :
    ConnMove s (s.sent t (e.tryObtain t b r)) (s.writeFails b r) ∧
      (s.sent t (e.tryObtain t b r)).loop = s.loop := by
  rcases tryObtain_spec e t b r with ⟨hd, hwait, hrem⟩ | ⟨hd, hd', w, hp⟩ | ⟨hd, hbuf, hb, hr, hd', hp⟩
  · have hsent : s.sent t (e.tryObtain t b r) = { s with ep := e.tryObtain t b r } := by
      unfold sent
      cases hp : (e.tryObtain t b r).phase t with
      | sendComplete w => exact absurd hp (hwait w)
      | removing => exact absurd hp hrem
      | idle ret => rfl
      | sendWait b' w => rfl
    rw [hsent]
    exact ⟨.same (hd.trans hdead) rfl rfl rfl rfl, rfl⟩
  · have hsent : s.sent t (e.tryObtain t b r) =
        { s with ep := e.tryObtain t b r, wfds := true, callback := true } := by
      rw [sent, hp]
    rw [hsent]
    exact ⟨.watch (hdead.symm.trans hd) hd' rfl rfl rfl, rfl⟩
  · have hsent : s.sent t (e.tryObtain t b r) =
        { s with ep := e.tryObtain t b r, removal := .before } := by
      rw [sent, hp]
    have hfails : s.writeFails b r = true := by
      unfold writeFails
      rw [← hdead, ← hwpdu, hd, hbuf, hr]
      simpa using hb
    rw [hsent]
    exact ⟨.death hfails (hdead.symm.trans hd) hd' rfl rfl rfl rfl, rfl⟩

/-- **What the other threads do**, in one place. -/
theorem connMove_of_next {s s' : Sys τ} {a : ConnAct τ} (h : s.next (.conn a) = some s') :
    ConnMove s s' (s.dies (.conn a)) ∧ s'.loop = s.loop := by
  have hsame : ∀ e' : Endpoint τ, e'.conn.dead = s.ep.conn.dead →
      ConnMove s { s with ep := e' } (s.dies (.conn a)) ∧ ({ s with ep := e' } : Sys τ).loop = s.loop :=
    fun e' hd => ⟨.same hd rfl rfl rfl rfl, rfl⟩
  cases a with
  | send t b r =>
    obtain ⟨e', he, rfl⟩ := Option.map_eq_some_iff.1 h
    simp only [Endpoint.next] at he
    split at he
    · obtain rfl := Option.some.inj he
      exact move_sent (e := { s.ep with conn := { s.ep.conn with waiters := s.ep.conn.waiters + 1 } })
        rfl rfl t b r
    · cases he
  | recheckWait t r =>
    obtain ⟨e', he, rfl⟩ := Option.map_eq_some_iff.1 h
    simp only [Endpoint.next] at he
    split at he
    · rename_i b hp
      obtain rfl := Option.some.inj he
      have hmove := move_sent (s := s) (e := s.ep) rfl rfl t b r
      rwa [show s.dies (.conn (.recheckWait t r)) = s.writeFails b r by simp [dies, hp]]
    · cases he
  | recheckComplete t =>
    obtain ⟨e', he, rfl⟩ := Option.map_eq_some_iff.1 h
    simp only [Endpoint.next] at he
    split at he
    · split_ifs at he
      all_goals
        obtain rfl := Option.some.inj he
        exact hsame _ rfl
    · cases he
  | removed t =>
    simp only [next, connNext] at h
    split_ifs at h
    obtain ⟨e', he, rfl⟩ := Option.map_eq_some_iff.1 h
    simp only [Endpoint.next] at he
    split at he
    · obtain rfl := Option.some.inj he
      exact hsame _ rfl
    · cases he
  | spurious t =>
    obtain rfl := Option.some.inj h
    exact hsame _ rfl
  | closeconn =>
    obtain rfl := Option.some.inj h
    cases hdead : s.ep.conn.dead with
    | true => exact ⟨.same hdead.symm rfl rfl rfl (by simp), rfl⟩
    | false => exact ⟨.death (by simp [dies, hdead]) hdead rfl rfl rfl rfl (by simp), rfl⟩
  | writeCb r => cases h
  | readCb r₁ r₂ acc => cases h

omit [DecidableEq τ] in
/-- `read_cb` may give a live connection up, and leaves a dead one alone. -/
theorem readCb_dead {e e' : Endpoint τ} {r₁ r₂ : ReadResult} {acc : Bool}
    (h : e.readCb r₁ r₂ acc = some e') (hdead : e.conn.dead = true) : e' = e := by
  unfold Endpoint.readCb at h
  rw [if_pos hdead] at h
  exact (Option.some.inj h).symm

/-- **What a step can do**, in one place: a step of another thread, one of the three parts of
`block_remove_fd`, or one of the loop. -/
inductive Move (s : Sys τ) (a : Act τ) : Sys τ → Prop
  | conn {s' : Sys τ} (hmove : ConnMove s s' (s.dies a)) (hloop : s'.loop = s.loop) : Move s a s'
  | unwatch (hm : s.removal = .before) :
      Move s a { s with rfds := false, wfds := false, pendingChange := true, removal := .waiting }
  | wakeRemover (hm : s.removal = .waiting) : Move s a { s with removal := .woken }
  | clear (hm : s.removal = .woken) : Move s a { s with callback := false, removal := .done }
  | changeDone {m : Removal} (hloop : s.loop = .top) (hm : s.removal = .none → m = .none) :
      Move s a { s with pendingChange := false, removal := m, loop := .waitReady }
  | snapshot (hloop : s.loop = .waitReady) : Move s a { s with loop := .selecting s.rfds s.wfds }
  | select {r w r' w' : Bool} (hloop : s.loop = .selecting r w) (hw : w' → w) :
      Move s a { s with loop := .ready r' w' }
  | checkRead {w : Bool} {l : LoopPhase} (hloop : s.loop = .ready true w)
      (hl : l = .reading w ∨ l = .ready false w) : Move s a { s with loop := l }
  | readKeeps {w : Bool} {e : Endpoint τ} (hloop : s.loop = .reading w)
      (hdead : e.conn.dead = s.ep.conn.dead) : Move s a { s with ep := e, loop := .ready false w }
  | readFails {w : Bool} {e : Endpoint τ} (hloop : s.loop = .reading w) (hdead : e.conn.dead = true) :
      Move s a { s.delCallback with ep := e, loop := .ready false w }
  | checkWrite {w : Bool} (hloop : s.loop = .ready false w) :
      Move s a { s with loop := if w && s.callback then .writing else .top }
  | writeNothing {e : Endpoint τ} (halive : s.ep.conn.dead = false) :
      Move s a { s with wfds := false, callback := s.callback && s.rfds, ep := e, loop := .top }
  | writeFails {e : Endpoint τ} (hdead : e.conn.dead = true) :
      Move s a { s.delCallback with ep := e, loop := .top }
  | writes {e : Endpoint τ} (halive : s.ep.conn.dead = false) (hdead : e.conn.dead = false) :
      Move s a { s with ep := e, loop := .top }

theorem move_of_step {s s' : Sys τ} {a : Act τ} (hs : Step s a s') : Move s a s' := by
  obtain ⟨-, h⟩ := hs
  cases a with
  | conn a =>
    obtain ⟨hmove, hloop⟩ := connMove_of_next h
    exact .conn hmove hloop
  | unwatch =>
    obtain ⟨hm, ⟨⟩⟩ := Option.ite_none_right_eq_some.1 h
    exact .unwatch hm
  | wakeRemover =>
    obtain ⟨hm, ⟨⟩⟩ := Option.ite_none_right_eq_some.1 h
    exact .wakeRemover hm
  | clear =>
    obtain ⟨hm, ⟨⟩⟩ := Option.ite_none_right_eq_some.1 h
    exact .clear hm
  | changeDone =>
    obtain ⟨hloop, ⟨⟩⟩ := Option.ite_none_right_eq_some.1 h
    refine .changeDone hloop ?_
    intro hm
    rw [if_neg (by simp [hm]), hm]
  | snapshot =>
    obtain ⟨hloop, ⟨⟩⟩ := Option.ite_none_right_eq_some.1 h
    exact .snapshot hloop
  | select r w =>
    simp only [next] at h
    split at h
    · rename_i r₀ w₀ hloop
      obtain ⟨hsub, ⟨⟩⟩ := Option.ite_none_right_eq_some.1 h
      exact .select hloop hsub.2
    · cases h
  | checkRead =>
    simp only [next] at h
    split at h
    · rename_i w hloop
      obtain rfl := Option.some.inj h
      refine .checkRead hloop ?_
      split_ifs
      · exact .inl rfl
      · exact .inr rfl
    · cases h
  | readCb r₁ r₂ acc =>
    simp only [next] at h
    split at h
    · rename_i w hloop
      obtain ⟨e', he, rfl⟩ := Option.map_eq_some_iff.1 h
      split_ifs with hfail
      · rw [Bool.and_eq_true] at hfail
        exact .readFails hloop hfail.1
      · refine .readKeeps hloop ?_
        cases hdead : s.ep.conn.dead with
        | true => rw [readCb_dead he hdead, hdead]
        | false => simpa [hdead] using hfail
    · cases h
  | checkWrite =>
    simp only [next] at h
    split at h
    · rename_i w hloop
      obtain rfl := Option.some.inj h
      exact .checkWrite hloop
    · cases h
  | writeCb r =>
    obtain ⟨hcall, ⟨⟩⟩ := Option.ite_none_right_eq_some.1 h
    split_ifs with hsz hdead
    · exact .writeNothing hcall.2
    · exact .writeFails hdead
    · exact .writes hcall.2 (by simpa using hdead)

/-! ## Live connections -/

/-- A live connection is registered, and nobody removes it. -/
def Registered (s : Sys τ) : Prop :=
  s.ep.conn.dead = false → s.rfds = true ∧ s.callback = true ∧ s.removal = .none

theorem Registered.step {s s' : Sys τ} {a : Act τ} (h : Registered s) (hs : Step s a s') :
    Registered s' := by
  intro halive
  -- the thread that removes the descriptor has set `dead_` before
  have hnone : ∀ m : Removal, s.ep.conn.dead = false → s.removal = m → m = .none :=
    fun m hd hm => hm.symm.trans (h hd).2.2
  cases move_of_step hs with
  | conn hmove hloop =>
    cases hmove with
    | same hd hr hw hc hm =>
      rw [hr, hc, hm]
      exact h (hd.symm.trans halive)
    | watch hd hd' hr hc hm =>
      rw [hr, hc, hm]
      exact ⟨(h hd).1, rfl, (h hd).2.2⟩
    | death hdies hd hd' hr hw hc hm =>
      rw [hd'] at halive
      cases halive
  | unwatch hm => cases hnone _ halive hm
  | wakeRemover hm => cases hnone _ halive hm
  | clear hm => cases hnone _ halive hm
  | changeDone hloop hm => exact ⟨(h halive).1, (h halive).2.1, hm (h halive).2.2⟩
  | snapshot hloop => exact h halive
  | select hloop hw => exact h halive
  | checkRead hloop hl => exact h halive
  | readKeeps hloop hd => exact h (hd.symm.trans halive)
  | readFails hloop hd =>
    rw [show _ = true from hd] at halive
    cases halive
  | checkWrite hloop => exact h halive
  | writeNothing hd =>
    obtain ⟨hr, hc, hm⟩ := h hd
    exact ⟨hr, by simp [hr, hc], hm⟩
  | writeFails hd =>
    rw [show _ = true from hd] at halive
    cases halive
  | writes hd hd' => exact h hd

/-! ## Dead connections -/

/-- No `write_cb` comes for a dead connection: no write interest is registered, and what is on its way
through the loop ends at `callbacks_[fd]`. -/
def Settled (s : Sys τ) : Prop :=
  s.ep.conn.dead = true →
    s.wfds = false ∧ (s.callback = false ∨ s.loop.write = false) ∧ s.loop ≠ .writing

/-- **One step keeps dead connections settled**, unless `send` or `closeconn` sets `dead_` at a bad
moment. -/
theorem Settled.step {s s' : Sys τ} {a : Act τ} (h : Settled s) (hquiet : s.WriteQuiet a)
    (hs : Step s a s') : Settled s' := by
  intro hdead
  cases move_of_step hs with
  | conn hmove hloop =>
    cases hmove with
    | same hd hr hw hc hm =>
      rw [hw, hc, hloop]
      exact h (hd.symm.trans hdead)
    | watch hd hd' hr hc hm =>
      rw [hd'] at hdead
      cases hdead
    | death hdies hd hd' hr hw hc hm =>
      obtain ⟨hwfds, hwrite⟩ := hquiet hdies
      rw [hw, hloop]
      refine ⟨hwfds, .inr hwrite, ?_⟩
      intro hwriting
      rw [hwriting] at hwrite
      cases hwrite
  | unwatch hm => exact ⟨rfl, (h hdead).2⟩
  | wakeRemover hm => exact h hdead
  | clear hm => exact ⟨(h hdead).1, .inl rfl, (h hdead).2.2⟩
  | changeDone hloop hm => exact ⟨(h hdead).1, .inr rfl, by simp⟩
  | snapshot hloop => exact ⟨(h hdead).1, .inr (h hdead).1, by simp⟩
  | @select r w r' w' hloop hw =>
    obtain ⟨hwfds, hwrite, -⟩ := h hdead
    rw [hloop] at hwrite
    refine ⟨hwfds, hwrite.imp_right ?_, by simp⟩
    -- `select` reports only what it has been asked for
    intro hno
    have hno : w = false := hno
    show w' = false
    simpa [hno] using hw
  | @checkRead w l hloop hl =>
    obtain ⟨hwfds, hwrite, -⟩ := h hdead
    rw [hloop] at hwrite
    rcases hl with rfl | rfl
    · exact ⟨hwfds, hwrite, by simp⟩
    · exact ⟨hwfds, hwrite, by simp⟩
  | @readKeeps w e hloop hd =>
    obtain ⟨hwfds, hwrite, -⟩ := h (hd.symm.trans hdead)
    rw [hloop] at hwrite
    exact ⟨hwfds, hwrite, by simp⟩
  | readFails hloop hd => exact ⟨rfl, .inl rfl, by simp⟩
  | @checkWrite w hloop =>
    obtain ⟨hwfds, hwrite, -⟩ := h hdead
    rw [hloop] at hwrite
    have hno : (w && s.callback) = false := by
      rcases hwrite with hc | hno
      · rw [hc, Bool.and_false]
      · rw [show w = false from hno, Bool.false_and]
    rw [if_neg (by simp [hno])]
    exact ⟨hwfds, .inr rfl, by simp⟩
  | writeNothing hd => exact ⟨rfl, .inr rfl, by simp⟩
  | writeFails hd => exact ⟨rfl, .inr rfl, by simp⟩
  | writes hd hd' =>
    rw [show _ = false from hd'] at hdead
    cases hdead

/-- **`VERIFY(!dead_)` in `write_cb` holds** in every run in which `send` and `closeconn` set `dead_` only
while no write interest is registered for the descriptor and none is on its way through the loop;
whatever the senders, the loop, `read_cb` and `write_cb` do otherwise. -/
theorem write_cb_verify {t : List (Act τ)} {s : Sys τ}
    (hrun : Trace (Guarded WriteQuiet Step) init t s) : ¬ s.Aborts := by
  rintro ⟨hwriting, hdead⟩
  have hstart : Settled (init : Sys τ) := by
    intro hdead
    cases hdead
  have hsettled : Settled s :=
    Trace.invariant (I := Settled) hstart (fun _ _ _ hi hs => hi.step hs.1 hs.2) hrun
  exact (hsettled hdead).2.2 hwriting

/-! ## The other runs -/

/-- The process can end in `VERIFY(!dead_)`. -/
def CanAbort (s : Sys τ) : Prop := ∃ t s', Trace Step s t s' ∧ s'.Aborts

theorem CanAbort.of_step {s s' : Sys τ} {a : Act τ} (hs : Step s a s') (h : CanAbort s') :
    CanAbort s := by
  obtain ⟨t, s'', htrace, haborts⟩ := h
  exact ⟨[a] ++ t, s'', (Trace.single hs).append htrace, haborts⟩

section CanAbort

variable {s : Sys τ} (hdead : s.ep.conn.dead = true) (hc : s.callback = true)

include hdead hc

/-- From the loop's look at the writable descriptors on. -/
theorem canAbort_of_ready (hloop : s.loop = .ready false true) : CanAbort s := by
  have hs : Step s .checkWrite { s with loop := .writing } :=
    ⟨trivial, by simp [next, hloop, hc]⟩
  exact .of_step hs ⟨[], _, .nil, rfl, hdead⟩

omit hc in
/-- `read_cb` returns at once. -/
theorem step_readCb {w : Bool} (hloop : s.loop = .reading w) :
    Step s (.readCb .again .again false) { s with loop := .ready false w } := by
  refine ⟨⟨trivial, fun _ _ => trivial⟩, ?_⟩
  simp [next, hloop, Endpoint.readCb, hdead]

/-- The rest of a turn in which the descriptor has been found writable. -/
theorem canAbort_of_write (hw : s.loop.write = true) : CanAbort s := by
  have hreading : ∀ s : Sys τ, s.ep.conn.dead = true → s.callback = true → s.loop = .reading true →
      CanAbort s := by
    intro s hdead hc hloop
    exact .of_step (step_readCb hdead hloop)
      (canAbort_of_ready (s := { s with loop := .ready false true }) hdead hc rfl)
  cases hloop : s.loop with
  | top =>
    rw [hloop] at hw
    cases hw
  | waitReady =>
    rw [hloop] at hw
    cases hw
  | selecting r w =>
    rw [hloop] at hw
    obtain rfl : w = true := hw
    have hs : Step s (.select false true) { s with loop := .ready false true } :=
      ⟨trivial, by simp [next, hloop]⟩
    exact .of_step hs (canAbort_of_ready hdead hc rfl)
  | ready r w =>
    rw [hloop] at hw
    obtain rfl : w = true := hw
    cases r with
    | false => exact canAbort_of_ready hdead hc hloop
    | true =>
      have hs : Step s .checkRead { s with loop := .reading true } :=
        ⟨trivial, by simp [next, hloop, hc]⟩
      exact .of_step hs (hreading _ hdead hc rfl)
  | reading w =>
    rw [hloop] at hw
    obtain rfl : w = true := hw
    exact hreading s hdead hc hloop
  | writing => exact ⟨[], s, .nil, hloop, hdead⟩

/-- With write interest registered the next turn finds the descriptor writable. -/
theorem canAbort_of_wfds (hw : s.wfds = true) : CanAbort s := by
  have hwait : ∀ s : Sys τ, s.ep.conn.dead = true → s.callback = true → s.wfds = true →
      s.loop = .waitReady → CanAbort s := by
    intro s hdead hc hw hloop
    have hs : Step s .snapshot { s with loop := .selecting s.rfds s.wfds } :=
      ⟨trivial, by simp [next, hloop]⟩
    exact .of_step hs (canAbort_of_write hdead hc hw)
  have htop : ∀ s : Sys τ, s.ep.conn.dead = true → s.callback = true → s.wfds = true →
      s.loop = .top → CanAbort s := by
    intro s hdead hc hw hloop
    have hs : Step s .changeDone { s with
        pendingChange := false
        removal := if s.pendingChange = true ∧ s.removal = .waiting then .woken else s.removal
        loop := .waitReady } := ⟨trivial, by simp [next, hloop]⟩
    exact .of_step hs (hwait _ hdead hc hw rfl)
  have hready : ∀ s : Sys τ, s.ep.conn.dead = true → s.callback = true → s.wfds = true →
      s.loop = .ready false false → CanAbort s := by
    intro s hdead hc hw hloop
    have hs : Step s .checkWrite { s with loop := .top } := ⟨trivial, by simp [next, hloop]⟩
    exact .of_step hs (htop _ hdead hc hw rfl)
  have hreading : ∀ s : Sys τ, s.ep.conn.dead = true → s.callback = true → s.wfds = true →
      s.loop = .reading false → CanAbort s := by
    intro s hdead hc hw hloop
    exact .of_step (step_readCb hdead hloop)
      (hready { s with loop := .ready false false } hdead hc hw rfl)
  cases hwrite : s.loop.write with
  | true => exact canAbort_of_write hdead hc hwrite
  | false =>
    cases hloop : s.loop with
    | top => exact htop s hdead hc hw hloop
    | waitReady => exact hwait s hdead hc hw hloop
    | selecting r w =>
      have hs : Step s (.select false false) { s with loop := .ready false false } :=
        ⟨trivial, by simp [next, hloop]⟩
      exact .of_step hs (hready _ hdead hc hw rfl)
    | ready r w =>
      rw [hloop] at hwrite
      obtain rfl : w = false := hwrite
      cases r with
      | false => exact hready s hdead hc hw hloop
      | true =>
        have hs : Step s .checkRead { s with loop := .reading false } :=
          ⟨trivial, by simp [next, hloop, hc]⟩
        exact .of_step hs (hreading _ hdead hc hw rfl)
    | reading w =>
      rw [hloop] at hwrite
      obtain rfl : w = false := hwrite
      exact hreading s hdead hc hw hloop
    | writing =>
      rw [hloop] at hwrite
      cases hwrite

end CanAbort

/-- **The condition is exact**: when `send` or `closeconn` sets `dead_` while write interest is
registered, or on its way through the loop, the process can go on to the failing `VERIFY`. -/
theorem abort_reachable {t : List (Act τ)} {s s' : Sys τ} (hrun : Trace Step init t s) {a : ConnAct τ}
    (hs : Step s (.conn a) s') (halive : s.ep.conn.dead = false) (hdead : s'.ep.conn.dead = true)
    (hw : s.wfds = true ∨ s.loop.write = true) : CanAbort s' := by
  have hreg : Registered s := by
    refine Trace.invariant (I := Registered) ?_ (fun _ _ _ hi hs => hi.step hs) hrun
    exact fun _ => ⟨rfl, rfl, rfl⟩
  obtain ⟨hmove, hloop⟩ := connMove_of_next hs.2
  cases hmove with
  | same hd hr hw' hc hm =>
    rw [hd, halive] at hdead
    cases hdead
  | watch hd hd' hr hc hm =>
    rw [hd'] at hdead
    cases hdead
  | death hdies hd hd' hr hw' hc hm =>
    have hcallback : s'.callback = true := hc.trans (hreg halive).2.1
    rcases hw with hw | hw
    · exact canAbort_of_wfds hdead hcallback (hw'.trans hw)
    · exact canAbort_of_write hdead hcallback (by rw [hloop]; exact hw)

/-- A buffer of six bytes goes out in two pieces, the second one by `write_cb`; the next `write_cb` finds
nothing to do and drops the write interest; then the connection is closed. -/
theorem write_cb_verify_dropped :
    ∃ (t : List (Act ℕ)) (s : Sys ℕ), Trace (Guarded WriteQuiet Step) init t s ∧
      s.ep.conn.dead = true ∧ s.ep.written.length = 6 ∧ ¬ s.Aborts := by
  have hquiet : ∀ {s : Sys ℕ} {a : Act ℕ}, s.dies a = false → s.WriteQuiet a := by
    intro s a hno hdies
    rw [hno] at hdies
    cases hdies
  have h0 : Trace (Guarded WriteQuiet Step) (init : Sys ℕ) [] init := .nil
  have h1 := h0.snoc (a := Act.conn (.send 0 [1, 2, 3, 4, 7, 8] (.wrote 3)))
    ⟨hquiet rfl, show 3 ≤ 6 by decide, rfl⟩
  have h2 := h1.snoc (a := Act.changeDone) ⟨hquiet rfl, trivial, rfl⟩
  have h3 := h2.snoc (a := Act.snapshot) ⟨hquiet rfl, trivial, rfl⟩
  have h4 := h3.snoc (a := Act.select false true) ⟨hquiet rfl, trivial, rfl⟩
  have h5 := h4.snoc (a := Act.checkWrite) ⟨hquiet rfl, trivial, rfl⟩
  have h6 := h5.snoc (a := Act.writeCb (.wrote 3)) ⟨hquiet rfl, show 3 ≤ 3 by decide, rfl⟩
  have h7 := h6.snoc (a := Act.conn (.recheckComplete 0)) ⟨hquiet rfl, trivial, rfl⟩
  have h8 := h7.snoc (a := Act.changeDone) ⟨hquiet rfl, trivial, rfl⟩
  have h9 := h8.snoc (a := Act.snapshot) ⟨hquiet rfl, trivial, rfl⟩
  have h10 := h9.snoc (a := Act.select false true) ⟨hquiet rfl, trivial, rfl⟩
  have h11 := h10.snoc (a := Act.checkWrite) ⟨hquiet rfl, trivial, rfl⟩
  have h12 := h11.snoc (a := Act.writeCb .again) ⟨hquiet rfl, trivial, rfl⟩
  have h13 := h12.snoc (a := Act.conn .closeconn) ⟨fun _ => ⟨rfl, rfl⟩, trivial, rfl⟩
  exact ⟨_, _, h13, rfl, rfl, write_cb_verify h13⟩

/-- Half of a buffer goes out, the loop finds the descriptor writable and calls `write_cb`, and before
that has the mutex, `closeconn` sets `dead_`. -/
theorem write_cb_aborts :
    ¬ ∀ (t : List (Act ℕ)) (s : Sys ℕ), Trace Step init t s → ¬ s.Aborts := by
  intro h
  have h0 : Trace Step (init : Sys ℕ) [] init := .nil
  have h1 := h0.snoc (a := Act.conn (.send 0 [1, 2, 3, 4, 7, 8] (.wrote 3)))
    ⟨show 3 ≤ 6 by decide, rfl⟩
  have h2 := h1.snoc (a := Act.changeDone) ⟨trivial, rfl⟩
  have h3 := h2.snoc (a := Act.snapshot) ⟨trivial, rfl⟩
  have h4 := h3.snoc (a := Act.select false true) ⟨trivial, rfl⟩
  have h5 := h4.snoc (a := Act.checkWrite) ⟨trivial, rfl⟩
  have h6 := h5.snoc (a := Act.conn .closeconn) ⟨trivial, rfl⟩
  exact h _ _ h6 ⟨rfl, rfl⟩

end Sys

end PollMgr
