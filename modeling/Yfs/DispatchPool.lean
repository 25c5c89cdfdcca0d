/-
# The lock server behind the dispatch pool (`rpc.cc`, `thr_pool.cc`, `lock_server.cc`)

`rpcs` hands every request to a pool of six worker threads, and a worker runs the handler to its end.
`lock_server::acquire` waits inside the handler, so a client that waits for a lock keeps a worker, and
the release it waits for has to go through the same pool.

Clients are single-threaded: a client issues an RPC when its last one has returned.  A request is on
its way to the server, in the queue of the pool, or at a worker; `got_pdu` leaves it on its way when
the pool refuses it.  The critical sections and wake-ups of the handlers are those of
`LockServer.Sys`, with the workers as its threads.  A copy that a client retransmits is filtered by
the reply window before it reaches a handler and is not modelled.

The pool can starve a release: with more clients than workers, one client takes a lock, the others
wait for it on all the workers, and the release of the holder stays in the queue (`exists_stuck`).
With no more clients than workers this cannot happen (`lt_card_of_stuck`), since a queued request and
a full house of blocked workers belong to different clients.  `release_served_iff` puts the two
together.
-/
import Yfs.LockServer
import Yfs.ThrPool

/-! ## The system -/

inductive LockOp
  | acquire
  | release
  deriving DecidableEq, Repr

/-- A request of a client to the lock server. -/
structure LockRpc (κ : Type) where
  clt : κ
  op : LockOp
  lid : LockId
  deriving DecidableEq, Repr

/-- The requests on their way to the server, the dispatch pool and the lock server. -/
structure DispatchSys (sz : ℕ) (κ : Type) where
  transit : List (LockRpc κ)
  pool : ThrPool sz (LockRpc κ)
  locks : LockServer.Sys (Fin sz) κ

namespace DispatchSys

/-- `new ThrPool(6,false)`. -/
abbrev dispatchThreads : ℕ := 6

inductive Act (sz : ℕ) (κ : Type)
  | issue (q : LockRpc κ)
  | gotPdu (q : LockRpc κ)
  | takeJob (w : Fin sz)
  | acquire (w : Fin sz)
  | wakeup (w : Fin sz)
  | recheck (w : Fin sz)
  | release (w : Fin sz) (woken : List (Fin sz))
  deriving DecidableEq, Repr

variable {sz : ℕ} {κ : Type}

def start : DispatchSys sz κ where
  transit := []
  pool := .init
  locks := .start

/-- The RPCs that have been issued and have not returned. -/
def outstanding (s : DispatchSys sz κ) : Multiset (LockRpc κ) :=
  (s.transit : Multiset (LockRpc κ)) + s.pool.jobs

/-- A critical section of a handler: the worker is free again if the handler has returned. -/
def handle (s : DispatchSys sz κ) (w : Fin sz) (locks : LockServer.Sys (Fin sz) κ)
    (returned : Bool) : DispatchSys sz κ where
  transit := s.transit
  pool := if returned then s.pool.finish w else s.pool
  locks := locks

/-- The steps: clients issue, `got_pdu` adds a job, a worker takes one, and the workers go through the
critical sections of `acquire` and `release`. -/
inductive Step [DecidableEq κ] : DispatchSys sz κ → Act sz κ → DispatchSys sz κ → Prop
  | issue {s : DispatchSys sz κ} {q : LockRpc κ} (hclt : ∀ q' ∈ s.outstanding, q'.clt ≠ q.clt) :
      Step s (.issue q) { s with transit := q :: s.transit }
  | gotPdu {s : DispatchSys sz κ} {q : LockRpc κ} {pool : ThrPool sz (LockRpc κ)}
      (hq : q ∈ s.transit) (hadd : s.pool.addJob q = some pool) :
      Step s (.gotPdu q) { s with transit := s.transit.erase q, pool := pool }
  | takeJob {s : DispatchSys sz κ} {w : Fin sz} {pool : ThrPool sz (LockRpc κ)}
      (htake : s.pool.takeJob w = some pool) :
      Step s (.takeJob w) { s with pool := pool }
  | acquire {s : DispatchSys sz κ} {w : Fin sz} {clt : κ} {lid : LockId}
      (hrun : s.pool.running w = some ⟨clt, .acquire, lid⟩)
      (hen : s.locks.Enabled (.acquire w clt lid)) :
      Step s (.acquire w)
        (s.handle w (s.locks.next (.acquire w clt lid)) (s.locks.server.acquire lid).1)
  | wakeup {s : DispatchSys sz κ} {w : Fin sz} (hen : s.locks.Enabled (.wakeup w)) :
      Step s (.wakeup w) { s with locks := s.locks.next (.wakeup w) }
  | recheck {s : DispatchSys sz κ} {w : Fin sz} {clt : κ} {lid : LockId} {r : Int32}
      (hphase : s.locks.phase w = .woken clt lid r) :
      Step s (.recheck w)
        (s.handle w (s.locks.next (.recheck w)) (s.locks.server.recheck lid).1)
  | release {s : DispatchSys sz κ} {w : Fin sz} {clt : κ} {lid : LockId} {woken : List (Fin sz)}
      (hrun : s.pool.running w = some ⟨clt, .release, lid⟩)
      (hen : s.locks.Enabled (.release clt lid woken)) :
      Step s (.release w woken) (s.handle w (s.locks.next (.release clt lid woken)) true)

/-- A client holds a lock, its release is in the queue, and all the workers sleep in
`lock_server::acquire`. -/
def ReleaseStuck (s : DispatchSys sz κ) : Prop :=
  ∃ clt lid, LockServer.Holds s.locks.log clt lid ∧ ⟨clt, .release, lid⟩ ∈ s.pool.jobq.q ∧
    ∀ w, ∃ clt' lid' r, s.locks.phase w = .asleep clt' lid' r

/-! ## Every client has at most one request in the system -/

/-- A client has at most one RPC outstanding, and a worker inside `acquire` runs a job. -/
structure Inv (s : DispatchSys sz κ) : Prop where
  single : (s.outstanding.map LockRpc.clt).Nodup
  runs : ∀ w lid, (s.locks.phase w).awaits = some lid →
    ∃ clt, s.pool.running w = some ⟨clt, .acquire, lid⟩

/-- A job of the pool is outstanding until its handler returns. -/
theorem outstanding_handle_le {s : DispatchSys sz κ} {w : Fin sz} {q : LockRpc κ}
    (hrun : s.pool.running w = some q) (locks : LockServer.Sys (Fin sz) κ) (returned : Bool) :
    (s.handle w locks returned).outstanding ≤ s.outstanding := by
  cases returned with
  | false => exact le_refl _
  | true =>
    show (s.transit : Multiset (LockRpc κ)) + (s.pool.finish w).jobs ≤ _
    rw [outstanding, ThrPool.jobs_finish hrun]
    exact add_le_add_right (Multiset.le_cons_self _ _) _

/-- The workers after a critical section of `acquire`: the worker goes to sleep with its job, or it
has none. -/
theorem Inv.runs_finish {s : DispatchSys sz κ} (hi : Inv s) {w : Fin sz} {clt clt' : κ} {lid : LockId}
    (hrun : s.pool.running w = some ⟨clt', .acquire, lid⟩) (r : Int32) (res : Bool × LockServer)
    {v : Fin sz} {lid' : LockId} (hv : ((s.locks.finish w clt lid r res).phase v).awaits = some lid') :
    ∃ c, (s.handle w (s.locks.finish w clt lid r res) res.1).pool.running v =
      some ⟨c, .acquire, lid'⟩ := by
  obtain ⟨returned, server⟩ := res
  change (Function.update s.locks.phase w (if returned then .idle else .asleep clt lid r) v).awaits =
    some lid' at hv
  by_cases hvw : v = w
  · subst hvw
    rw [Function.update_self] at hv
    cases returned with
    | true => cases hv
    | false =>
      obtain rfl : lid = lid' := by simpa [LockServer.Phase.awaits] using hv
      exact ⟨clt', hrun⟩
  · rw [Function.update_of_ne hvw] at hv
    obtain ⟨c, hc⟩ := hi.runs v lid' hv
    refine ⟨c, ?_⟩
    cases returned with
    | true => exact (Function.update_of_ne hvw _ _).trans hc
    | false => exact hc

/-- The job of a worker that has been woken. -/
theorem Inv.running_of_woken {s : DispatchSys sz κ} (hi : Inv s) {w : Fin sz} {clt : κ} {lid : LockId}
    {r : Int32} (hphase : s.locks.phase w = .woken clt lid r) :
    ∃ clt', s.pool.running w = some ⟨clt', .acquire, lid⟩ := by
  apply hi.runs w lid
  rw [hphase]
  rfl

theorem next_recheck {s : LockServer.Sys (Fin sz) κ} {w : Fin sz} {clt : κ} {lid : LockId} {r : Int32}
    (hphase : s.phase w = .woken clt lid r) :
    s.next (.recheck w) = s.finish w clt lid r (s.server.recheck lid) := by
  simp only [LockServer.Sys.next, hphase]

variable [DecidableEq κ]

/-- A client that has no RPC outstanding adds one; no other step adds any. -/
theorem outstanding_step {s s' : DispatchSys sz κ} {a : Act sz κ} (hi : Inv s) (h : Step s a s') :
    (∃ q : LockRpc κ, (∀ q' ∈ s.outstanding, q'.clt ≠ q.clt) ∧
      s'.outstanding = q ::ₘ s.outstanding) ∨ s'.outstanding ≤ s.outstanding := by
  cases h with
  | @issue q hclt =>
    refine .inl ⟨q, hclt, ?_⟩
    show ((q :: s.transit : List _) : Multiset (LockRpc κ)) + s.pool.jobs = _
    rw [← Multiset.cons_coe, Multiset.cons_add]
    rfl
  | @gotPdu q pool hq hadd =>
    refine .inr (le_of_eq ?_)
    show ((s.transit.erase q : List _) : Multiset (LockRpc κ)) + pool.jobs = _
    rw [ThrPool.jobs_addJob hadd, Multiset.add_cons, ← Multiset.cons_add, ← Multiset.coe_erase,
      Multiset.cons_erase (Multiset.mem_coe.mpr hq)]
    rfl
  | @takeJob w pool htake =>
    refine .inr (le_of_eq ?_)
    show (s.transit : Multiset (LockRpc κ)) + pool.jobs = _
    rw [ThrPool.jobs_takeJob htake]
    rfl
  | acquire hrun hen => exact .inr (outstanding_handle_le hrun _ _)
  | wakeup hen => exact .inr (le_refl _)
  | recheck hphase =>
    obtain ⟨clt', hrun⟩ := hi.running_of_woken hphase
    exact .inr (outstanding_handle_le hrun _ _)
  | release hrun hen => exact .inr (outstanding_handle_le hrun _ _)

theorem single_step {s s' : DispatchSys sz κ} {a : Act sz κ} (hi : Inv s) (h : Step s a s') :
    (s'.outstanding.map LockRpc.clt).Nodup := by
  rcases outstanding_step hi h with ⟨q, hclt, hout⟩ | hle
  · rw [hout, Multiset.map_cons, Multiset.nodup_cons]
    refine ⟨fun hmem => ?_, hi.single⟩
    obtain ⟨q', hq', hclt'⟩ := Multiset.mem_map.mp hmem
    exact hclt q' hq' hclt'
  · exact Multiset.nodup_of_le (Multiset.map_le_map hle) hi.single

theorem runs_step {s s' : DispatchSys sz κ} {a : Act sz κ} (hi : Inv s) (h : Step s a s') :
    ∀ v lid, (s'.locks.phase v).awaits = some lid →
      ∃ clt, s'.pool.running v = some ⟨clt, .acquire, lid⟩ := by
  intro v lid hv
  cases h with
  | issue hclt => exact hi.runs v lid hv
  | gotPdu hq hadd =>
    rw [(ThrPool.addJob_cases hadd).2]
    exact hi.runs v lid hv
  | @takeJob w pool htake =>
    obtain ⟨clt, hclt⟩ := hi.runs v lid hv
    obtain ⟨j, hnone, -, hrun⟩ := ThrPool.takeJob_cases htake
    -- the worker that takes a job had none, so it is not inside `acquire`
    have hvw : v ≠ w := by
      rintro rfl
      rw [hnone] at hclt
      cases hclt
    exact ⟨clt, by rw [hrun, Function.update_of_ne hvw]; exact hclt⟩
  | acquire hrun hen => exact hi.runs_finish hrun _ _ hv
  | @wakeup w hen =>
    apply hi.runs v lid
    change (Function.update s.locks.phase w (s.locks.phase w).wake v).awaits = some lid at hv
    by_cases hvw : v = w
    · subst hvw
      rwa [Function.update_self, LockServer.Phase.awaits_wake] at hv
    · rwa [Function.update_of_ne hvw] at hv
  | recheck hphase =>
    obtain ⟨clt', hrun⟩ := hi.running_of_woken hphase
    rw [next_recheck hphase] at hv ⊢
    exact hi.runs_finish hrun _ _ hv
  | @release w clt lid' woken hrun hen =>
    change (if v ∈ woken then (s.locks.phase v).wake else s.locks.phase v).awaits = some lid at hv
    have hv' : (s.locks.phase v).awaits = some lid := by
      split at hv
      · rwa [LockServer.Phase.awaits_wake] at hv
      · exact hv
    obtain ⟨c, hc⟩ := hi.runs v lid hv'
    -- the worker of the release is not inside `acquire`
    have hvw : v ≠ w := by
      rintro rfl
      rw [hrun] at hc
      cases hc
    exact ⟨c, (Function.update_of_ne hvw _ _).trans hc⟩

theorem inv_step {s s' : DispatchSys sz κ} {a : Act sz κ} (hi : Inv s) (h : Step s a s') : Inv s' :=
  ⟨single_step hi h, runs_step hi h⟩

theorem inv_of_trace {t : List (Act sz κ)} {s : DispatchSys sz κ} (h : Trace Step start t s) :
    Inv s := by
  have hstart : Inv (start : DispatchSys sz κ) := by
    refine ⟨?_, fun w lid hw => ?_⟩
    · show ((0 + ((0 : Multiset (LockRpc κ)) + ∑ w : Fin sz, 0)).map LockRpc.clt).Nodup
      simp
    · cases hw
  exact Trace.invariant hstart (fun _ _ _ hi hs => inv_step hi hs) h

/-- Where a release is stuck, the sleeping workers and the queued release belong to different clients,
so there are more clients than workers. -/
theorem lt_card_of_stuck {t : List (Act sz κ)} {s : DispatchSys sz κ} (h : Trace Step start t s)
    (hs : s.ReleaseStuck) : (sz : ℕ∞) < ENat.card κ := by
  have hi := inv_of_trace h
  obtain ⟨clt, lid, -, hqueued, hasleep⟩ := hs
  have hbusy : ∀ w, ∃ q, s.pool.running w = some q := by
    intro w
    obtain ⟨clt', lid', r, hw⟩ := hasleep w
    obtain ⟨c, hc⟩ := hi.runs w lid' (by rw [hw]; rfl)
    exact ⟨_, hc⟩
  have hcard : sz + 1 ≤ (s.outstanding.map LockRpc.clt).card := by
    rw [Multiset.card_map, outstanding, Multiset.card_add, ThrPool.card_jobs_of_busy hbusy]
    have := List.length_pos_of_mem hqueued
    omega
  let clients : Finset κ := ⟨s.outstanding.map LockRpc.clt, hi.single⟩
  calc (sz : ℕ∞) < ((sz + 1 : ℕ) : ℕ∞) := by exact_mod_cast Nat.lt_succ_self sz
    _ ≤ (clients.card : ℕ∞) := by exact_mod_cast hcard
    _ = (clients : Set κ).encard := (Set.encard_coe_eq_coe_finsetCard _).symm
    _ ≤ ENat.card κ := by
      rw [← Set.encard_univ]
      exact Set.encard_le_encard (Set.subset_univ _)

/-! ## A release that starves -/

/-- A client issues an `acquire` and a worker runs it up to its return or its first `wait`. -/
def enter (clt : κ) (lid : LockId) (w : Fin sz) : List (Act sz κ) :=
  [.issue ⟨clt, .acquire, lid⟩, .gotPdu ⟨clt, .acquire, lid⟩, .takeJob w, .acquire w]

/-- Client `c 0` holds the lock, and the next `k` clients sleep on the first `k` workers. -/
structure Blockade (c : Fin (sz + 1) → κ) (lid : LockId) (k : ℕ) (s : DispatchSys sz κ) : Prop where
  transit : s.transit = []
  jobq : s.pool.jobq = ⟨[], 100 * sz⟩
  running : ∀ w, s.pool.running w =
    if w.val < k then some ⟨c w.succ, .acquire, lid⟩ else none
  asleep : ∀ w : Fin sz, w.val < k → ∃ r, s.locks.phase w = .asleep (c w.succ) lid r
  idle : ∀ w : Fin sz, k ≤ w.val → s.locks.phase w = .idle
  locked : s.locks.server.isLocked lid = true
  holds : LockServer.Holds s.locks.log (c 0) lid

/-- With nothing on its way, an idle worker and a client without an outstanding RPC, `enter` can
happen. -/
theorem trace_enter {s : DispatchSys sz κ} {clt : κ} (lid : LockId) {w : Fin sz}
    (htransit : s.transit = []) (hjobq : s.pool.jobq.q = []) (hrun : s.pool.running w = none)
    (hphase : s.locks.phase w = .idle) (hclt : ∀ q ∈ s.outstanding, q.clt ≠ clt) :
    Trace Step s (enter clt lid w)
      (handle
        { s with pool.running := Function.update s.pool.running w (some ⟨clt, .acquire, lid⟩) }
        w (s.locks.next (.acquire w clt lid)) (s.locks.server.acquire lid).1) := by
  obtain ⟨transit, ⟨⟨jobq, cap⟩, running⟩, locks⟩ := s
  simp only at htransit hjobq hrun hphase
  subst htransit hjobq
  have hadd : ThrPool.addJob ⟨⟨[], cap⟩, running⟩ (⟨clt, .acquire, lid⟩ : LockRpc κ) =
      some ⟨⟨[⟨clt, .acquire, lid⟩], cap⟩, running⟩ := by
    have hroom : cap = 0 ∨ 0 < cap := by omega
    simp [ThrPool.addJob, Fifo.enq, hroom]
  have htake : ThrPool.takeJob ⟨⟨[⟨clt, .acquire, lid⟩], cap⟩, running⟩ w =
      some ⟨⟨[], cap⟩, Function.update running w (some (⟨clt, .acquire, lid⟩ : LockRpc κ))⟩ := by
    simp only [ThrPool.takeJob, Fifo.deq, hrun]
  have h1 := Trace.nil.snoc (Step.issue (q := ⟨clt, .acquire, lid⟩) hclt)
  have h2 := h1.snoc (Step.gotPdu List.mem_cons_self hadd)
  simp only [List.erase_cons_head] at h2
  have h3 := h2.snoc (Step.takeJob htake)
  exact h3.snoc (Step.acquire (Function.update_self _ _ _) hphase)

namespace Blockade

variable {c : Fin (sz + 1) → κ} {lid : LockId} {k : ℕ} {s : DispatchSys sz κ}

omit [DecidableEq κ] in
/-- The clients that neither hold the lock nor sleep have no RPC outstanding, and neither has the
holder. -/
theorem clt_ne (h : Blockade c lid k s) (hc : Function.Injective c) {i : Fin (sz + 1)}
    (hi : i = 0 ∨ k < i.val) : ∀ q ∈ s.outstanding, q.clt ≠ c i := by
  intro q hq
  rw [outstanding, h.transit, Multiset.coe_nil, zero_add, ThrPool.mem_jobs, h.jobq] at hq
  rcases hq with hq | ⟨w, hw⟩
  · cases hq
  · rw [h.running w] at hw
    split at hw
    · rename_i hlt
      cases hw
      intro heq
      have hw := hc heq
      rcases hi with rfl | hi
      · exact Fin.succ_ne_zero w hw
      · rw [← hw, Fin.val_succ] at hi
        omega
    · cases hw

/-- One more client goes to sleep on one more worker. -/
theorem enter (h : Blockade c lid k s) (hc : Function.Injective c) (hk : k < sz) :
    ∃ s', Trace Step s (enter (c (⟨k, hk⟩ : Fin sz).succ) lid ⟨k, hk⟩) s' ∧
      Blockade c lid (k + 1) s' := by
  have hrun : s.pool.running ⟨k, hk⟩ = none := by
    rw [h.running]
    simp
  have hclt := h.clt_ne hc (i := (⟨k, hk⟩ : Fin sz).succ) (.inr (by simp))
  refine ⟨_, trace_enter lid h.transit (by rw [h.jobq]) hrun (h.idle _ (le_refl k)) hclt, ?_⟩
  obtain ⟨hres, hlocked⟩ := LockServer.acquire_spec s.locks.server lid
  have hwait : (s.locks.server.acquire lid).1 = false := by
    rw [hres, h.locked]
    rfl
  simp only [handle, LockServer.Sys.next, LockServer.Sys.finish, hwait, Bool.false_eq_true, if_false]
  -- the workers other than `k` are as before
  have hother : ∀ w : Fin sz, w.val ≠ k → w ≠ ⟨k, hk⟩ := by
    rintro w hw rfl
    exact hw rfl
  refine ⟨h.transit, h.jobq, fun w => ?_, fun w hw => ?_, fun w hw => ?_, ?_, h.holds⟩
  · by_cases hwk : w = ⟨k, hk⟩
    · subst hwk
      simp
    · have hne : w.val ≠ k := fun heq => hwk (Fin.ext heq)
      have hiff : w.val < k + 1 ↔ w.val < k := by omega
      simp only [Function.update_of_ne hwk, h.running w, hiff]
  · by_cases hwk : w = ⟨k, hk⟩
    · subst hwk
      exact ⟨_, Function.update_self _ _ _⟩
    · have hne : w.val ≠ k := fun heq => hwk (Fin.ext heq)
      simp only [Function.update_of_ne hwk]
      exact h.asleep w (by omega)
  · simp only [Function.update_of_ne (hother w (by omega))]
    exact h.idle w (by omega)
  · simp only [hlocked, h.locked, Bool.true_or]

/-- With all the workers asleep, the release of the holder is issued and queued. -/
theorem release (h : Blockade c lid sz s) (hc : Function.Injective c) :
    ∃ s', Trace Step s [.issue ⟨c 0, .release, lid⟩, .gotPdu ⟨c 0, .release, lid⟩] s' ∧
      s'.ReleaseStuck := by
  have hadd : s.pool.addJob ⟨c 0, .release, lid⟩ =
      some { s.pool with jobq := ⟨[⟨c 0, .release, lid⟩], 100 * sz⟩ } := by
    have hroom : 100 * sz = 0 ∨ 0 < 100 * sz := by omega
    simp only [ThrPool.addJob, Fifo.enq, h.jobq, List.length_nil, if_pos hroom, Option.map_some,
      List.nil_append]
  have hissue := Trace.nil.snoc (Step.issue (q := ⟨c 0, .release, lid⟩) (h.clt_ne hc (.inl rfl)))
  refine ⟨_, hissue.snoc (Step.gotPdu List.mem_cons_self hadd), c 0, lid, h.holds, by simp, ?_⟩
  intro w
  obtain ⟨r, hr⟩ := h.asleep w w.isLt
  exact ⟨_, _, r, hr⟩

end Blockade

/-- The first client takes the lock, which nobody has asked for. -/
theorem blockade_zero (c : Fin (sz + 1) → κ) (lid : LockId) (w : Fin sz) :
    ∃ s, Trace Step start (enter (c 0) lid w) s ∧ Blockade c lid 0 s := by
  have hclt : ∀ q ∈ (start : DispatchSys sz κ).outstanding, q.clt ≠ c 0 := by
    intro q hq
    rw [outstanding, Multiset.mem_add, ThrPool.mem_jobs] at hq
    rcases hq with hq | hq | ⟨v, hv⟩
    · cases hq
    · cases hq
    · cases hv
  refine ⟨_, trace_enter lid rfl rfl rfl rfl hclt, ?_⟩
  have hgrant : (LockServer.init.acquire lid).1 = true := rfl
  simp only [start, handle, LockServer.Sys.start, LockServer.Sys.next, LockServer.Sys.finish, hgrant,
    if_true]
  refine ⟨rfl, rfl, fun v => ?_, fun v hv => by omega, fun v _ => ?_, ?_, ?_⟩
  · simp [ThrPool.finish, ThrPool.init]
  · simp
  · simp [(LockServer.acquire_spec LockServer.init lid).2]
  · exact ⟨[], _, [], rfl, by simp⟩

/-- The clients block the workers one after the other. -/
theorem exists_blockade {c : Fin (sz + 1) → κ} (hc : Function.Injective c) (lid : LockId)
    (hsz : 0 < sz) (k : ℕ) (hk : k ≤ sz) :
    ∃ t s, Trace Step start t s ∧ Blockade c lid k s := by
  induction k with
  | zero =>
    obtain ⟨s, ht, hs⟩ := blockade_zero c lid ⟨0, hsz⟩
    exact ⟨_, s, ht, hs⟩
  | succ k ih =>
    obtain ⟨t, s, ht, hs⟩ := ih (by omega)
    obtain ⟨s', ht', hs'⟩ := hs.enter hc hk
    exact ⟨_, s', ht.append ht', hs'⟩

/-- With more clients than workers a release can get stuck. -/
theorem exists_stuck (hsz : 0 < sz) (hcard : (sz : ℕ∞) < ENat.card κ) :
    ∃ t s, Trace Step (start : DispatchSys sz κ) t s ∧ s.ReleaseStuck := by
  have hle : ((sz + 1 : ℕ) : ℕ∞) ≤ (Set.univ : Set κ).encard := by
    rw [Set.encard_univ, Nat.cast_add, Nat.cast_one]
    exact Order.add_one_le_of_lt hcard
  obtain ⟨clients, -, hclients⟩ := Set.exists_subset_encard_eq hle
  have hfin : clients.Finite := Set.finite_of_encard_eq_coe hclients
  have hcard' : hfin.toFinset.card = sz + 1 := by
    have := hfin.encard_eq_coe_toFinset_card
    rw [hclients] at this
    exact_mod_cast this.symm
  let e := hfin.toFinset.equivFinOfCardEq hcard'
  have hc : Function.Injective fun i => (e.symm i : κ) :=
    Subtype.val_injective.comp e.symm.injective
  obtain ⟨t, s, ht, hs⟩ := exists_blockade hc 1 hsz sz (le_refl sz)
  obtain ⟨s', ht', hs'⟩ := hs.release hc
  exact ⟨_, s', ht.append ht', hs'⟩

/-! ## When a release is always served -/

/-- **A release in the queue and the blocked workers.**  With the six workers of `rpcs`, no run of the
clients leads to a state in which a holder's release is queued while all the workers are blocked inside
`lock_server::acquire`, if and only if there are at most six clients. -/
theorem release_served_iff :
    (∀ (t : List (Act dispatchThreads κ)) (s : DispatchSys dispatchThreads κ),
      Trace Step start t s → ¬ s.ReleaseStuck) ↔ ENat.card κ ≤ dispatchThreads := by
  constructor
  · intro h
    by_contra hcard
    obtain ⟨t, s, ht, hs⟩ := exists_stuck (by decide) (not_le.mp hcard)
    exact h t s ht hs
  · intro hcard t s ht hs
    exact absurd (lt_card_of_stuck ht hs) (not_lt.mpr hcard)

/-- Seven clients: client 0 acquires lock 1, clients 1 to 6 ask for it, each on its own worker, and
client 0 releases it. -/
theorem release_stuck_of_seven :
    ∃ s : DispatchSys dispatchThreads (Fin 7),
      Trace Step start
        [enter 0 1 0, enter 1 1 0, enter 2 1 1, enter 3 1 2, enter 4 1 3, enter 5 1 4, enter 6 1 5,
          [.issue ⟨0, .release, 1⟩, .gotPdu ⟨0, .release, 1⟩]].flatten s ∧
        s.ReleaseStuck := by
  let c : Fin (dispatchThreads + 1) → Fin 7 := id
  have hc : Function.Injective c := Function.injective_id
  obtain ⟨s₀, h₀, hb⟩ := blockade_zero c 1 0
  obtain ⟨s₁, h₁, hb⟩ := hb.enter hc (by decide)
  obtain ⟨s₂, h₂, hb⟩ := hb.enter hc (by decide)
  obtain ⟨s₃, h₃, hb⟩ := hb.enter hc (by decide)
  obtain ⟨s₄, h₄, hb⟩ := hb.enter hc (by decide)
  obtain ⟨s₅, h₅, hb⟩ := hb.enter hc (by decide)
  obtain ⟨s₆, h₆, hb⟩ := hb.enter hc (by decide)
  obtain ⟨s, h, hstuck⟩ := hb.release hc
  exact ⟨s, h₀.append (h₁.append (h₂.append (h₃.append (h₄.append (h₅.append (h₆.append
    (h.append .nil))))))), hstuck⟩

end DispatchSys
