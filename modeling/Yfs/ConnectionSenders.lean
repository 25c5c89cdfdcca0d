/-
# Who sleeps in `send` (`rpc/connection.cc`)

A thread in `send` waits on `send_wait_` until `wpdu_` is free, and then, when its buffer does not go
out at once, on `send_complete_` until it is out or the connection is dead.  The thread whose buffer is
in `wpdu_` is the owner of the connection.  This file says who is there to wake the sleepers.

* `Senders` is kept by every step: there is an owner exactly while `wpdu_` is in use, and only one;
  `waiters_` counts the threads at `send_wait_`; and none of them sleeps without an owner, who will
  broadcast when it leaves.
* `Stranded`: a thread sleeps on a dead connection, and none of the threads that are in `send` and awake
  wakes it up with the last thing it does there.

`read_cb` and `write_cb` signal `send_complete_` when they give the connection up, and a `send` that
fails broadcasts by itself.  `closeconn` wakes nobody.  So nobody is stranded in the runs in which
`closeconn` finds no owner asleep (`no_sender_stranded`), and an owner it finds asleep is stranded
(`closeconn_strands`).
-/
import Yfs.Framing

/-! ## Owners, waiters and sleepers -/

namespace Phase

/-- The buffer of the thread is in `wpdu_`. -/
def owns : Phase → Bool
  | sendComplete _ => true
  | removing => true
  | _ => false

/-- The thread is counted in `waiters_`. -/
def waits : Phase → Bool
  | sendWait _ _ => true
  | _ => false

/-- The thread sleeps on one of the two condition variables. -/
def asleep : Phase → Bool
  | sendWait _ woken => !woken
  | sendComplete woken => !woken
  | _ => false

@[simp] theorem owns_wakeWait (p : Phase) : p.wakeWait.owns = p.owns := by cases p <;> rfl

@[simp] theorem owns_wakeComplete (p : Phase) : p.wakeComplete.owns = p.owns := by cases p <;> rfl

@[simp] theorem waits_wakeWait (p : Phase) : p.wakeWait.waits = p.waits := by cases p <;> rfl

@[simp] theorem waits_wakeComplete (p : Phase) : p.wakeComplete.waits = p.waits := by cases p <;> rfl

theorem wakeWait_ne (p : Phase) (b : Str) : p.wakeWait ≠ sendWait b false := by
  cases p <;> simp [wakeWait]

theorem wakeComplete_ne (p : Phase) : p.wakeComplete ≠ sendComplete false := by
  cases p <;> simp [wakeComplete]

theorem wakeComplete_eq_wait {p : Phase} {b : Str} (h : p.wakeComplete = sendWait b false) :
    p = sendWait b false := by
  cases p <;> simp_all [wakeComplete]

theorem wakeWait_eq_complete {p : Phase} (h : p.wakeWait = sendComplete false) :
    p = sendComplete false := by
  cases p <;> simp_all [wakeWait]

theorem waits_of_eq {p : Phase} {b : Str} {woken : Bool} (h : p = sendWait b woken) :
    p.waits = true := by
  rw [h]
  rfl

end Phase

namespace Endpoint

variable {τ : Type}

/-- `waiters_` counts the threads at `send_wait_`, the thread `t` apart. -/
def Counts (e : Endpoint τ) (S : Finset τ) (t : τ) : Prop :=
  S.card = e.conn.waiters ∧ ∀ u, u ∈ S ↔ u ≠ t ∧ (e.phase u).waits = true

/-- **The invariant of the senders.** -/
structure Senders (e : Endpoint τ) : Prop where
  free : e.conn.wpdu.buf = none → e.conn.wpdu = .empty
  owner : e.conn.wpdu.buf.isSome = true ↔ ∃ t, (e.phase t).owns = true
  unique : ∀ t u, (e.phase t).owns = true → (e.phase u).owns = true → t = u
  waiters : ∃ S : Finset τ, S.card = e.conn.waiters ∧ ∀ t, t ∈ S ↔ (e.phase t).waits = true
  queued : ∀ t b, e.phase t = .sendWait b false → ∃ u, (e.phase u).owns = true

theorem senders_init : Senders (init : Endpoint τ) where
  free _ := rfl
  owner := by simp [init, Charbuf.empty, Phase.owns]
  unique t u h := by cases h
  waiters := ⟨∅, rfl, by simp [init, Phase.waits]⟩
  queued t b h := by cases h

/-- A step that keeps `wpdu_` in use or free, the count, and what each thread owns or waits for. -/
theorem Senders.of_same {e e' : Endpoint τ} (h : Senders e)
    (hwpdu : e'.conn.wpdu = e.conn.wpdu ∨
      (e'.conn.wpdu.buf.isSome = true ∧ e.conn.wpdu.buf.isSome = true))
    (hwaiters : e'.conn.waiters = e.conn.waiters)
    (howns : ∀ t, (e'.phase t).owns = (e.phase t).owns)
    (hwaits : ∀ t, (e'.phase t).waits = (e.phase t).waits)
    (hasleep : ∀ t b, e'.phase t = .sendWait b false → e.phase t = .sendWait b false) :
    Senders e' where
  free hnone := by
    rcases hwpdu with heq | ⟨hsome, -⟩
    · rw [heq] at hnone ⊢
      exact h.free hnone
    · rw [hnone] at hsome
      cases hsome
  owner := by
    have hbuf : e'.conn.wpdu.buf.isSome = e.conn.wpdu.buf.isSome := by
      rcases hwpdu with heq | ⟨hsome, hsome'⟩
      · rw [heq]
      · rw [hsome, hsome']
    rw [hbuf, h.owner]
    simp only [howns]
  unique t u ht hu := by
    rw [howns] at ht hu
    exact h.unique t u ht hu
  waiters := by
    obtain ⟨S, hcard, hS⟩ := h.waiters
    exact ⟨S, hcard.trans hwaiters.symm, fun t => by rw [hwaits, hS]⟩
  queued t b hsleep := by
    obtain ⟨u, hu⟩ := h.queued t b (hasleep t b hsleep)
    exact ⟨u, by rw [howns, hu]⟩

/-- `writepdu` keeps the buffer. -/
theorem isSome_writepdu {w : Charbuf} (h : w.buf.isSome = true) (r : WriteResult) :
    (writepdu w r).2.1.buf.isSome = true := by
  unfold writepdu
  split_ifs
  · exact h
  all_goals cases r <;> rfl

/-- The offer to `got_pdu` concerns the receiving side only. -/
theorem deliver_same (e : Endpoint τ) (acc : Bool) :
    (e.deliver acc).conn.dead = e.conn.dead ∧ (e.deliver acc).conn.wpdu = e.conn.wpdu ∧
      (e.deliver acc).conn.waiters = e.conn.waiters ∧ (e.deliver acc).phase = e.phase := by
  unfold Endpoint.deliver
  split
  · exact ⟨rfl, rfl, rfl, rfl⟩
  · split_ifs <;> exact ⟨rfl, rfl, rfl, rfl⟩

theorem Senders.readCb {e e' : Endpoint τ} (h : Senders e) {r₁ r₂ : ReadResult} {acc : Bool}
    (hs : e.readCb r₁ r₂ acc = some e') : Senders e' := by
  unfold Endpoint.readCb at hs
  split_ifs at hs with hdead
  · obtain rfl := Option.some.inj hs
    exact h
  · obtain ⟨⟨succ, p, got⟩, -, rfl⟩ := Option.map_eq_some_iff.1 hs
    obtain ⟨-, hwpdu, hwaiters, hph⟩ := deliver_same ({ e with
        conn := { e.conn with rpdu := p, dead := !succ }
        phase := fun u => if succ then e.phase u else (e.phase u).wakeComplete
        taken := e.taken ++ got } : Endpoint τ) acc
    refine h.of_same (.inl hwpdu) hwaiters ?_ ?_ ?_
    all_goals
      intro u
      simp only [hph]
      cases succ
    · simp
    · simp
    · simp
    · simp
    · intro b hsleep
      exact Phase.wakeComplete_eq_wait hsleep
    · exact fun b hsleep => hsleep

theorem Senders.writeCb {e : Endpoint τ} (h : Senders e) (r : WriteResult) :
    Senders (e.writeCb r) := by
  unfold Endpoint.writeCb
  split_ifs with hsz
  · exact h
  · have hbuf : e.conn.wpdu.buf.isSome = true := by
      by_contra hne
      rw [h.free (by simpa using hne)] at hsz
      exact hsz rfl
    simp only
    split_ifs
    · exact h.of_same (.inr ⟨isSome_writepdu hbuf r, hbuf⟩) rfl (fun _ => rfl) (fun _ => rfl)
        (fun _ _ hsleep => hsleep)
    · refine h.of_same (.inr ⟨isSome_writepdu hbuf r, hbuf⟩) rfl (fun u => ?_) (fun u => ?_) ?_
      · exact Phase.owns_wakeComplete _
      · exact Phase.waits_wakeComplete _
      · intro u b hsleep
        exact Phase.wakeComplete_eq_wait hsleep

variable [DecidableEq τ]

theorem setPhase_self (e : Endpoint τ) (t : τ) (p : Phase) : (e.setPhase t p).phase t = p :=
  Function.update_self _ _ _

theorem setPhase_of_ne (e : Endpoint τ) {t u : τ} (p : Phase) (h : u ≠ t) :
    (e.setPhase t p).phase u = e.phase u :=
  Function.update_of_ne h _ _

/-- A thread wakes up, or goes to sleep as the owner. -/
theorem Senders.setPhase_same {e : Endpoint τ} (h : Senders e) {t : τ} {p : Phase}
    (howns : p.owns = (e.phase t).owns) (hwaits : p.waits = (e.phase t).waits)
    (hp : ∀ b, p ≠ .sendWait b false) : Senders (e.setPhase t p) := by
  refine h.of_same (.inl rfl) rfl (fun u => ?_) (fun u => ?_) (fun u b hsleep => ?_)
  all_goals by_cases hu : u = t
  · rw [hu, setPhase_self, howns]
  · rw [setPhase_of_ne e p hu]
  · rw [hu, setPhase_self, hwaits]
  · rw [setPhase_of_ne e p hu]
  · rw [hu, setPhase_self] at hsleep
    exact absurd hsleep (hp b)
  · rwa [setPhase_of_ne e p hu] at hsleep

/-- The owner that leaves `send`, or a thread that has sent its buffer at once, hands the connection
on. -/
theorem senders_finish {e : Endpoint τ} {t : τ} {S : Finset τ} (hS : e.Counts S t)
    (hown : ∀ u, (e.phase u).owns = true → u = t) : Senders (e.finish t) := by
  obtain ⟨hcard, hmem⟩ := hS
  have hself : (e.finish t).phase t = _ := setPhase_self _ _ _
  have hother : ∀ u, u ≠ t → (e.finish t).phase u =
      if 0 < e.conn.waiters then (e.phase u).wakeWait else e.phase u :=
    fun u hu => setPhase_of_ne _ _ hu
  have hnone : ∀ u, ((e.finish t).phase u).owns = false := by
    intro u
    by_cases hu : u = t
    · rw [hu, hself]
      rfl
    · have hno : (e.phase u).owns = false := by
        by_contra hne
        exact hu (hown u (by simpa using hne))
      rw [hother u hu]
      split_ifs
      · rw [Phase.owns_wakeWait, hno]
      · exact hno
  refine ⟨fun _ => rfl, ?_, ?_, ⟨S, hcard, ?_⟩, ?_⟩
  · show (none : Option Str).isSome = true ↔ _
    simp [hnone]
  · intro u _ hu
    rw [hnone] at hu
    cases hu
  · intro u
    rw [hmem]
    by_cases hu : u = t
    · rw [hu, hself]
      simp [Phase.waits]
    · rw [hother u hu]
      split_ifs <;> simp [hu]
  · -- whoever sleeps is counted, so that there is a broadcast
    intro u b hsleep
    have hu : u ≠ t := by
      rintro rfl
      rw [hself] at hsleep
      cases hsleep
    rw [hother u hu] at hsleep
    split_ifs at hsleep with hpos
    · exact absurd hsleep (Phase.wakeWait_ne _ _)
    · have hin : u ∈ S := (hmem u).2 ⟨hu, Phase.waits_of_eq hsleep⟩
      have := Finset.card_pos.2 ⟨u, hin⟩
      omega

/-- A thread becomes the owner of a free connection. -/
theorem senders_own {e : Endpoint τ} {t : τ} {p : Phase} {S : Finset τ} (hp : p.owns = true)
    (hS : e.Counts S t) (hbuf : e.conn.wpdu.buf.isSome = true)
    (hown : ∀ u, u ≠ t → (e.phase u).owns = false) : Senders (e.setPhase t p) := by
  obtain ⟨hcard, hmem⟩ := hS
  have hone : ∀ u, ((e.setPhase t p).phase u).owns = true ↔ u = t := by
    intro u
    by_cases hu : u = t
    · rw [hu, setPhase_self]
      simp [hp]
    · rw [setPhase_of_ne e p hu]
      simp [hown u hu, hu]
  have hnot : p.waits = false := by cases p <;> simp_all [Phase.owns, Phase.waits]
  refine ⟨?_, ?_, ?_, ⟨S, hcard, ?_⟩, fun _ _ _ => ⟨t, (hone t).2 rfl⟩⟩
  · intro hnone
    have hbuf' : (e.setPhase t p).conn.wpdu.buf.isSome = true := hbuf
    rw [hnone] at hbuf'
    cases hbuf'
  · exact iff_of_true hbuf ⟨t, (hone t).2 rfl⟩
  · intro u v hu hv
    rw [(hone u).1 hu, (hone v).1 hv]
  · intro u
    rw [hmem]
    by_cases hu : u = t
    · rw [hu, setPhase_self, hnot]
      simp
    · rw [setPhase_of_ne e p hu]
      simp [hu]

/-- The thread `t` is at the first loop of `send`: it counts as a waiter, and for the others the
invariant holds. -/
structure Trying (e : Endpoint τ) (t : τ) : Prop where
  free : e.conn.wpdu.buf = none → e.conn.wpdu = .empty
  owner : e.conn.wpdu.buf.isSome = true ↔ ∃ u, u ≠ t ∧ (e.phase u).owns = true
  unique : ∀ u v, u ≠ t → v ≠ t → (e.phase u).owns = true → (e.phase v).owns = true → u = v
  waiters : ∃ S : Finset τ, S.card + 1 = e.conn.waiters ∧
    ∀ u, u ∈ S ↔ u ≠ t ∧ (e.phase u).waits = true
  queued : ∀ u b, u ≠ t → e.phase u = .sendWait b false → ∃ v, v ≠ t ∧ (e.phase v).owns = true

omit [DecidableEq τ] in
/-- A thread that does not own the connection enters the loop. -/
theorem Senders.trying {e e' : Endpoint τ} (h : Senders e) {t : τ} (ht : (e.phase t).owns = false)
    (hwpdu : e'.conn.wpdu = e.conn.wpdu) (hphase : e'.phase = e.phase)
    (hwaiters : ∃ S : Finset τ, S.card + 1 = e'.conn.waiters ∧
      ∀ u, u ∈ S ↔ u ≠ t ∧ (e.phase u).waits = true) : Trying e' t := by
  have hne : ∀ u, (e.phase u).owns = true → u ≠ t := by
    rintro u hu rfl
    rw [ht] at hu
    cases hu
  refine ⟨by rw [hwpdu]; exact h.free, ?_, ?_, by rwa [hphase], ?_⟩
  · rw [hwpdu, hphase, h.owner]
    refine exists_congr fun u => ⟨fun hu => ⟨hne u hu, hu⟩, And.right⟩
  · rw [hphase]
    exact fun u v _ _ => h.unique u v
  · rw [hphase]
    intro u b _ hsleep
    obtain ⟨v, hv⟩ := h.queued u b hsleep
    exact ⟨v, hne v hv, hv⟩

omit [DecidableEq τ] in
theorem Senders.trying_of_idle {e : Endpoint τ} (h : Senders e) {t : τ} {ret : Option Bool}
    (hp : e.phase t = .idle ret) :
    Trying { e with conn := { e.conn with waiters := e.conn.waiters + 1 } } t := by
  refine h.trying (by rw [hp]; rfl) rfl rfl ?_
  obtain ⟨S, hcard, hS⟩ := h.waiters
  refine ⟨S, congrArg (· + 1) hcard, fun u => ?_⟩
  rw [hS]
  refine ⟨fun hu => ⟨?_, hu⟩, And.right⟩
  rintro rfl
  rw [hp] at hu
  cases hu

theorem Senders.trying_of_wait {e : Endpoint τ} (h : Senders e) {t : τ} {b : Str} {woken : Bool}
    (hp : e.phase t = .sendWait b woken) : Trying e t := by
  refine h.trying (by rw [hp]; rfl) rfl rfl ?_
  obtain ⟨S, hcard, hS⟩ := h.waiters
  have hin : t ∈ S := (hS t).2 (Phase.waits_of_eq hp)
  refine ⟨S.erase t, ?_, fun u => by rw [Finset.mem_erase, hS]⟩
  rw [Finset.card_erase_add_one hin, hcard]

/-- The thread goes to sleep behind the owner, or leaves `send`. -/
theorem Trying.setPhase {e e' : Endpoint τ} {t : τ} (h : Trying e t) {p : Phase}
    (hp : p.owns = false) (hsleep : ∀ b, p = .sendWait b false → e.conn.wpdu.buf.isSome = true)
    (hwpdu : e'.conn.wpdu = e.conn.wpdu) (hphase : e'.phase = Function.update e.phase t p)
    (hwaiters : e'.conn.waiters = if p.waits then e.conn.waiters else e.conn.waiters - 1) :
    Senders e' := by
  have hself : e'.phase t = p := by rw [hphase, Function.update_self]
  have hother : ∀ u, u ≠ t → e'.phase u = e.phase u := by
    intro u hu
    rw [hphase, Function.update_of_ne hu]
  have hne : ∀ u, (e'.phase u).owns = true → u ≠ t := by
    rintro u hu rfl
    rw [hself, hp] at hu
    cases hu
  have howner : (∃ u, u ≠ t ∧ (e.phase u).owns = true) → ∃ u, (e'.phase u).owns = true := by
    rintro ⟨u, hut, hu⟩
    exact ⟨u, by rwa [hother u hut]⟩
  refine ⟨by rw [hwpdu]; exact h.free, ?_, ?_, ?_, ?_⟩
  · rw [hwpdu, h.owner]
    refine ⟨howner, ?_⟩
    rintro ⟨u, hu⟩
    exact ⟨u, hne u hu, by rwa [← hother u (hne u hu)]⟩
  · intro u v hu hv
    have hut := hne u hu
    have hvt := hne v hv
    rw [hother u hut] at hu
    rw [hother v hvt] at hv
    exact h.unique u v hut hvt hu hv
  · obtain ⟨S, hcard, hmem⟩ := h.waiters
    have hout : t ∉ S := fun hin => ((hmem t).1 hin).1 rfl
    cases hw : p.waits with
    | true =>
      refine ⟨insert t S, ?_, fun u => ?_⟩
      · rw [Finset.card_insert_of_notMem hout, hwaiters, hw, if_pos rfl, hcard]
      · by_cases hu : u = t
        · rw [hu, hself, hw]
          simp
        · rw [hother u hu, Finset.mem_insert, hmem]
          simp [hu]
    | false =>
      refine ⟨S, ?_, fun u => ?_⟩
      · rw [hwaiters, hw, if_neg (by simp)]
        omega
      · by_cases hu : u = t
        · rw [hu, hself, hw]
          simp [hout]
        · rw [hother u hu, hmem]
          simp [hu]
  · intro u b hu
    apply howner
    by_cases hut : u = t
    · rw [hut, hself] at hu
      exact h.owner.1 (hsleep b hu)
    · rw [hother u hut] at hu
      exact h.queued u b hut hu

/-- **The first loop of `send`**: the thread sleeps behind the owner, gets the connection, or finds it
dead. -/
theorem Trying.tryObtain {e : Endpoint τ} {t : τ} (h : Trying e t) (b : Str) (r : WriteResult) :
    Senders (e.tryObtain t b r) := by
  unfold Endpoint.tryObtain
  split_ifs with hbusy
  · rw [Bool.and_eq_true] at hbusy
    exact h.setPhase (p := .sendWait b false) rfl (fun _ _ => hbusy.2) rfl rfl rfl
  unfold Endpoint.obtain
  cases hdead : e.conn.dead with
  | true =>
    simp only [hdead, if_true]
    exact h.setPhase (p := .idle (some false)) rfl (fun _ hp => by cases hp) rfl rfl rfl
  | false =>
    simp only [hdead, Bool.false_eq_true, if_false]
    obtain ⟨S, hcard, hmem⟩ := h.waiters
    have hcount : S.card = e.conn.waiters - 1 := by omega
    have hnone : ∀ u, u ≠ t → (e.phase u).owns = false := by
      intro u hu
      by_contra hne
      have hsome := h.owner.2 ⟨u, hu, by simpa using hne⟩
      rw [hdead, hsome] at hbusy
      exact hbusy rfl
    have hbuf : (writepdu ⟨some b, b.length, 0⟩ r).2.1.buf.isSome = true := isSome_writepdu rfl r
    split_ifs
    · exact senders_own rfl ⟨hcount, hmem⟩ hbuf hnone
    · refine senders_finish (S := S) ⟨hcount, hmem⟩ ?_
      intro u hu
      by_contra hne
      rw [show _ = false from hnone u hne] at hu
      cases hu
    · exact senders_own rfl ⟨hcount, hmem⟩ hbuf hnone

/-- The thread that leaves as the owner. -/
theorem Senders.finish {e : Endpoint τ} (h : Senders e) {t : τ} (ht : (e.phase t).owns = true) :
    Senders (e.finish t) := by
  obtain ⟨S, hcard, hS⟩ := h.waiters
  refine senders_finish (S := S) ⟨hcard, fun u => ?_⟩ (fun u hu => h.unique u t hu ht)
  rw [hS]
  refine ⟨fun hu => ⟨?_, hu⟩, And.right⟩
  rintro rfl
  cases hp : e.phase u <;> simp_all [Phase.owns, Phase.waits]

/-- **One step keeps the invariant of the senders.** -/
theorem Senders.step {e e' : Endpoint τ} {a : ConnAct τ} (h : Senders e) (hs : e.Step a e') :
    Senders e' := by
  obtain ⟨-, hnext⟩ := hs
  cases a with
  | send t b r =>
    simp only [Endpoint.next] at hnext
    split at hnext
    · rename_i ret hp
      obtain rfl := Option.some.inj hnext
      exact (h.trying_of_idle hp).tryObtain b r
    · cases hnext
  | recheckWait t r =>
    simp only [Endpoint.next] at hnext
    split at hnext
    · rename_i b hp
      obtain rfl := Option.some.inj hnext
      exact (h.trying_of_wait hp).tryObtain b r
    · cases hnext
  | recheckComplete t =>
    simp only [Endpoint.next] at hnext
    split at hnext
    · rename_i hp
      split_ifs at hnext
      · obtain rfl := Option.some.inj hnext
        exact h.setPhase_same (by rw [hp]; rfl) (by rw [hp]; rfl) (fun _ hsleep => by cases hsleep)
      · obtain rfl := Option.some.inj hnext
        exact h.finish (by rw [hp]; rfl)
    · cases hnext
  | removed t =>
    simp only [Endpoint.next] at hnext
    split at hnext
    · rename_i hp
      obtain rfl := Option.some.inj hnext
      exact h.finish (by rw [hp]; rfl)
    · cases hnext
  | spurious t =>
    obtain rfl := Option.some.inj hnext
    refine h.setPhase_same (by simp) (by simp) (fun b hsleep => ?_)
    exact absurd (Phase.wakeComplete_eq_wait hsleep) (Phase.wakeWait_ne _ _)
  | writeCb r =>
    simp only [Endpoint.next] at hnext
    split_ifs at hnext
    obtain rfl := Option.some.inj hnext
    exact h.writeCb r
  | readCb r₁ r₂ acc => exact h.readCb hnext
  | closeconn =>
    obtain rfl := Option.some.inj hnext
    exact h.of_same (.inl rfl) rfl (fun _ => rfl) (fun _ => rfl) (fun _ _ hsleep => hsleep)

/-- Owners, waiters and sleepers in every run, whatever else its steps are bound to. -/
theorem senders_run {C : Endpoint τ → ConnAct τ → Prop} {t : List (ConnAct τ)} {e : Endpoint τ}
    (hrun : Trace (Guarded C Step) init t e) : Senders e :=
  Trace.invariant senders_init (fun _ _ _ hi hs => hi.step hs.2) hrun

/-! ## Dead connections -/

/-- The critical sections with which a thread that is in `send` and awake goes on. -/
def resumes : ConnAct τ → Bool
  | .recheckWait _ _ => true
  | .recheckComplete _ => true
  | .removed _ => true
  | _ => false

/-- The thread sleeps on a dead connection, and whichever thread goes on in `send`, this one stays
asleep.  (On a dead connection a thread that goes on leaves `send` in the same critical section, and no
other function has one left in which it could wake somebody: see `leaves_of_dead`.) -/
def Stranded (e : Endpoint τ) (t : τ) : Prop :=
  e.conn.dead = true ∧ (e.phase t).asleep = true ∧
    ∀ a e', resumes a = true → e.next a = some e' → (e'.phase t).asleep = true

/-- A thread that goes on in `send` on a dead connection is out of it after one critical section. -/
theorem leaves_of_dead {e e' : Endpoint τ} (hdead : e.conn.dead = true) {a : ConnAct τ}
    (ha : resumes a = true) (hnext : e.next a = some e') :
    ∃ t ret, (e.phase t).asleep = false ∧ e'.phase t = .idle ret ∧
      ∀ u, u ≠ t → e'.phase u = e.phase u ∨
        (0 < e.conn.waiters ∧ (e.phase t).owns = true ∧ e'.phase u = (e.phase u).wakeWait) := by
  have hfinish : ∀ t u, u ≠ t → (e.phase t).owns = true →
      (e.finish t).phase u = e.phase u ∨ (0 < e.conn.waiters ∧ (e.phase t).owns = true ∧
        (e.finish t).phase u = (e.phase u).wakeWait) := by
    intro t u hu hown
    have hphase : (e.finish t).phase u =
        if 0 < e.conn.waiters then (e.phase u).wakeWait else e.phase u := setPhase_of_ne _ _ hu
    rw [hphase]
    split_ifs with hpos
    · exact .inr ⟨hpos, hown, rfl⟩
    · exact .inl rfl
  cases a with
  | recheckWait t r =>
    simp only [Endpoint.next] at hnext
    split at hnext
    · rename_i b hp
      obtain rfl := Option.some.inj hnext
      have hout : e.tryObtain t b r = ({ e with
          conn := { e.conn with waiters := e.conn.waiters - 1 } } : Endpoint τ).setPhase t
            (.idle (some false)) := by
        simp [Endpoint.tryObtain, Endpoint.obtain, hdead]
      rw [hout]
      exact ⟨t, some false, by rw [hp]; rfl, setPhase_self _ _ _,
        fun u hu => .inl (setPhase_of_ne _ _ hu)⟩
    · cases hnext
  | recheckComplete t =>
    simp only [Endpoint.next, hdead, Bool.not_true, Bool.false_and, Bool.false_eq_true,
      if_false] at hnext
    split at hnext
    · rename_i hp
      obtain rfl := Option.some.inj hnext
      exact ⟨t, _, by rw [hp]; rfl, setPhase_self _ _ _,
        fun u hu => hfinish t u hu (by rw [hp]; rfl)⟩
    · cases hnext
  | removed t =>
    simp only [Endpoint.next] at hnext
    split at hnext
    · rename_i hp
      obtain rfl := Option.some.inj hnext
      exact ⟨t, _, by rw [hp]; rfl, setPhase_self _ _ _,
        fun u hu => hfinish t u hu (by rw [hp]; rfl)⟩
    · cases hnext
  | _ => cases ha

/-- On a dead connection the owner does not sleep. -/
def Awake (e : Endpoint τ) : Prop := e.conn.dead = true → ∀ t, e.phase t ≠ .sendComplete false

/-- `closeconn` is called when the connection is dead already or no thread sleeps on
`send_complete_`. -/
def ClosesAwake (e : Endpoint τ) : ConnAct τ → Prop
  | .closeconn => e.conn.dead = true ∨ ∀ t, e.phase t ≠ .sendComplete false
  | _ => True

theorem Awake.setPhase {e e' : Endpoint τ} (h : Awake e) {t : τ} {p : Phase}
    (hp : p ≠ .sendComplete false) (hdead : e'.conn.dead = true → e.conn.dead = true)
    (hphase : e'.phase = Function.update e.phase t p) : Awake e' := by
  intro hd u
  rw [hphase]
  by_cases hu : u = t
  · rwa [hu, Function.update_self]
  · rw [Function.update_of_ne hu]
    exact h (hdead hd) u

theorem Awake.finish {e : Endpoint τ} (h : Awake e) (t : τ) : Awake (e.finish t) := by
  unfold Endpoint.finish
  refine Awake.setPhase (e := { e with
    conn := { e.conn with wpdu := .empty }
    phase := fun u => if 0 < e.conn.waiters then (e.phase u).wakeWait else e.phase u })
    ?_ (by simp) id rfl
  intro hd u hsleep
  have hu := h hd u
  simp only at hsleep
  split_ifs at hsleep
  · exact hu (Phase.wakeWait_eq_complete hsleep)
  · exact hu hsleep

/-- A `send` that fails finds no other owner. -/
theorem Awake.tryObtain {e : Endpoint τ} (h : Awake e) {t : τ} (ht : Trying e t) (b : Str)
    (r : WriteResult) : Awake (e.tryObtain t b r) := by
  unfold Endpoint.tryObtain
  split_ifs with hbusy
  · exact h.setPhase (by simp) id rfl
  unfold Endpoint.obtain
  cases hdead : e.conn.dead with
  | true =>
    simp only [hdead, if_true]
    exact h.setPhase (by simp) (fun _ => hdead) rfl
  | false =>
    simp only [hdead, Bool.false_eq_true, if_false]
    have hnone : ∀ u, u ≠ t → (e.phase u).owns = false := by
      intro u hu
      by_contra hne
      have hsome := ht.owner.2 ⟨u, hu, by simpa using hne⟩
      rw [hdead, hsome] at hbusy
      exact hbusy rfl
    split_ifs with hok hfull
    · intro _ u hsleep
      by_cases hu : u = t
      · rw [hu, setPhase_self] at hsleep
        cases hsleep
      · rw [setPhase_of_ne _ _ hu] at hsleep
        have hown := hnone u hu
        rw [show e.phase u = _ from hsleep] at hown
        cases hown
    all_goals
      intro hd
      have hd' : (!(writepdu ⟨some b, b.length, 0⟩ r).1) = true := hd
      exact absurd hd' hok

omit [DecidableEq τ] in
/-- A `read_cb` that gives the connection up wakes the owner. -/
theorem Awake.readCb {e e' : Endpoint τ} (h : Awake e) {r₁ r₂ : ReadResult} {acc : Bool}
    (hs : e.readCb r₁ r₂ acc = some e') : Awake e' := by
  unfold Endpoint.readCb at hs
  split_ifs at hs with hdead
  · obtain rfl := Option.some.inj hs
    exact h
  · obtain ⟨⟨succ, p, got⟩, -, rfl⟩ := Option.map_eq_some_iff.1 hs
    rw [Awake, (deliver_same _ acc).1, (deliver_same _ acc).2.2.2]
    intro hd u
    simp only [Bool.not_eq_true'] at hd
    simp only [hd, Bool.false_eq_true, if_false]
    exact Phase.wakeComplete_ne _

/-- **One step keeps the owner of a dead connection awake**, unless it is a `closeconn` that finds it
asleep. -/
theorem Awake.step {e e' : Endpoint τ} {a : ConnAct τ} (h : Awake e) (hsenders : Senders e)
    (ha : e.ClosesAwake a) (hs : e.Step a e') : Awake e' := by
  obtain ⟨-, hnext⟩ := hs
  cases a with
  | send t b r =>
    simp only [Endpoint.next] at hnext
    split at hnext
    · rename_i ret hp
      obtain rfl := Option.some.inj hnext
      apply Awake.tryObtain
      · exact h
      · exact hsenders.trying_of_idle hp
    · cases hnext
  | recheckWait t r =>
    simp only [Endpoint.next] at hnext
    split at hnext
    · rename_i b hp
      obtain rfl := Option.some.inj hnext
      exact h.tryObtain (hsenders.trying_of_wait hp) b r
    · cases hnext
  | recheckComplete t =>
    simp only [Endpoint.next] at hnext
    split at hnext
    · split_ifs at hnext with hwait
      · obtain rfl := Option.some.inj hnext
        intro hd
        simp [show e.conn.dead = true from hd] at hwait
      · obtain rfl := Option.some.inj hnext
        exact h.finish t
    · cases hnext
  | removed t =>
    simp only [Endpoint.next] at hnext
    split at hnext
    · obtain rfl := Option.some.inj hnext
      exact h.finish t
    · cases hnext
  | spurious t =>
    obtain rfl := Option.some.inj hnext
    exact h.setPhase (Phase.wakeComplete_ne _) id rfl
  | writeCb r =>
    simp only [Endpoint.next] at hnext
    split_ifs at hnext
    obtain rfl := Option.some.inj hnext
    unfold Endpoint.writeCb
    simp only
    split_ifs with hsz hmore
    · exact h
    · intro hd
      simp only [Bool.not_eq_true'] at hd
      simp [hd] at hmore
    · exact fun _ u => Phase.wakeComplete_ne _
  | readCb r₁ r₂ acc => exact h.readCb hnext
  | closeconn =>
    obtain rfl := Option.some.inj hnext
    intro _
    rcases ha with hdead | hawake
    · exact h hdead
    · exact hawake

/-- In the runs in which `closeconn` finds no owner asleep, the owner of a dead connection is awake. -/
theorem awake_run {t : List (ConnAct τ)} {e : Endpoint τ}
    (hrun : Trace (Guarded ClosesAwake Step) init t e) : Senders e ∧ Awake e := by
  refine Trace.invariant (I := fun e => Senders e ∧ Awake e) ?_ ?_ hrun
  · exact ⟨senders_init, fun hdead => by cases hdead⟩
  · intro s a s' hi hs
    exact ⟨hi.1.step hs.2, hi.2.step hi.1 hs.1 hs.2⟩

/-- **No sender is stranded on a dead connection** in any run in which every `closeconn` finds the
connection dead already or no thread asleep on `send_complete_`: whoever sleeps on a dead connection,
the owner is in `send` and awake, and its broadcast wakes the sleeper. -/
theorem no_sender_stranded {t : List (ConnAct τ)} {e : Endpoint τ}
    (hrun : Trace (Guarded ClosesAwake Step) init t e) : ¬ ∃ u, e.Stranded u := by
  rintro ⟨u, hdead, hasleep, hnobody⟩
  obtain ⟨hsenders, hawake⟩ := awake_run hrun
  have hawake := hawake hdead
  -- the sleeper waits behind an owner
  obtain ⟨b, hu⟩ : ∃ b, e.phase u = .sendWait b false := by
    cases hp : e.phase u with
    | sendWait b woken =>
      rw [hp] at hasleep
      cases woken with
      | false => exact ⟨b, rfl⟩
      | true => cases hasleep
    | sendComplete woken =>
      rw [hp] at hasleep
      cases woken with
      | false => exact absurd hp (hawake u)
      | true => cases hasleep
    | idle ret =>
      rw [hp] at hasleep
      cases hasleep
    | removing =>
      rw [hp] at hasleep
      cases hasleep
  obtain ⟨v, hv⟩ := hsenders.queued u b hu
  have hne : u ≠ v := by
    rintro rfl
    rw [hu] at hv
    cases hv
  -- it is counted, so that the owner broadcasts
  have hpos : 0 < e.conn.waiters := by
    obtain ⟨S, hcard, hS⟩ := hsenders.waiters
    rw [← hcard]
    exact Finset.card_pos.2 ⟨u, (hS u).2 (Phase.waits_of_eq hu)⟩
  have hwoken : (e.finish v).phase u = .sendWait b true := by
    have hphase : (e.finish v).phase u =
        if 0 < e.conn.waiters then (e.phase u).wakeWait else e.phase u := setPhase_of_ne _ _ hne
    rw [hphase, if_pos hpos, hu]
    rfl
  have hstays : ∀ a, resumes a = true → e.next a ≠ some (e.finish v) := by
    intro a ha hnext
    have h := hnobody a _ ha hnext
    rw [hwoken] at h
    cases h
  cases hp : e.phase v with
  | sendComplete woken =>
    cases woken with
    | false => exact hawake v hp
    | true => exact hstays (.recheckComplete v) rfl (by simp [Endpoint.next, hp, hdead])
  | removing => exact hstays (.removed v) rfl (by simp [Endpoint.next, hp])
  | idle ret =>
    rw [hp] at hv
    cases hv
  | sendWait b' woken =>
    rw [hp] at hv
    cases hv

/-- **An owner that `closeconn` finds asleep is stranded.** -/
theorem closeconn_strands {e e' : Endpoint τ} {t : τ} (ht : e.phase t = .sendComplete false)
    (hs : e.Step .closeconn e') : e'.Stranded t := by
  obtain rfl := Option.some.inj hs.2
  refine ⟨rfl, by rw [ht]; rfl, ?_⟩
  intro a e'' ha hnext
  obtain ⟨u, ret, hasleep, -, hother⟩ := leaves_of_dead rfl ha hnext
  have hne : t ≠ u := by
    rintro rfl
    rw [ht] at hasleep
    cases hasleep
  rcases hother t hne with hsame | ⟨-, -, hwoken⟩
  · rw [hsame, ht]
    rfl
  · rw [hwoken, ht]
    rfl

/-- A buffer of six bytes of which three go out: the thread waits on `send_complete_`.  Another thread
waits behind it, the peer closes the connection, and both are woken. -/
theorem no_sender_stranded_read :
    let t : List (ConnAct ℕ) := [.send 0 [1, 2, 3, 4, 7, 8] (.wrote 3), .send 1 [1, 2, 3, 4, 5] .again,
      .readCb (.zero false) .again true]
    ∃ e : Endpoint ℕ, Trace (Guarded ClosesAwake Step) init t e ∧ e.conn.dead = true ∧
      e.phase 1 = .sendWait [1, 2, 3, 4, 5] false ∧ ¬ ∃ u, e.Stranded u := by
  intro t
  have h0 : Trace (Guarded ClosesAwake Step) (init : Endpoint ℕ) [] init := .nil
  have h1 := h0.snoc (a := ConnAct.send 0 [1, 2, 3, 4, 7, 8] (.wrote 3))
    ⟨trivial, show 3 ≤ 6 by decide, rfl⟩
  have h2 := h1.snoc (a := ConnAct.send 1 [1, 2, 3, 4, 5] .again) ⟨trivial, trivial, rfl⟩
  have h3 := h2.snoc (a := ConnAct.readCb (.zero false) .again true)
    ⟨trivial, ⟨trivial, fun _ _ => trivial⟩, rfl⟩
  exact ⟨_, h3, rfl, rfl, no_sender_stranded h3⟩

/-- A buffer of six bytes of which three go out, and `closeconn`: the thread sleeps on. -/
theorem sender_stranded :
    ¬ ∀ (t : List (ConnAct ℕ)) (e : Endpoint ℕ), Trace Step init t e → ¬ ∃ u, e.Stranded u := by
  intro h
  have h0 : Trace Step (init : Endpoint ℕ) [] init := .nil
  have h1 := h0.snoc (a := ConnAct.send 0 [1, 2, 3, 4, 7, 8] (.wrote 3))
    ⟨show 3 ≤ 6 by decide, rfl⟩
  have h2 := h1.snoc (a := ConnAct.closeconn) ⟨trivial, rfl⟩
  exact h _ _ h2 ⟨0, closeconn_strands rfl ⟨trivial, rfl⟩⟩

end Endpoint
