/-
# Stored and delivered replies (`rpc/rpc.cc`)

Two results about replies, in every run of clients, server and network.

* `repliesKept_of_freeSafe`: while a call waits, its entry stays in the reply window and no copy of its
  request is `FORGOTTEN`.
* `notCrossed_of_freeSafe`: a call ends with the output of an execution on its own request, and a reply
  that comes too late is delivered to no call.

Both need one condition.  `dispatch` holds a pointer to the stored reply while it sends it, outside the
mutex; another request of the client may acknowledge the call in the meantime, and the scan then frees
the buffer.  What is sent after that is the content of a freed block: a reply with any xid, which the
client takes for the reply to that call.  `FreeSafe` says that a request which acknowledges a call is
not classified while the reply of that call is being sent.
-/
import Yfs.RpcAcks

namespace RpcSystem

/-- The handler has run on the request `x` of the client `c` with this output. -/
def Produced (s : RpcSystem) (c x : ℕ) (ret : ℤ) (body : List UInt8) : Prop :=
  ∃ q ∈ s.requests, q.key = (c, x) ∧ ⟨q, ret, body⟩ ∈ s.execs

/-- A reply as `dispatch` packs it after the handler has run. -/
def Output (s : RpcSystem) (c x : ℕ) (r : RpcReply) : Prop :=
  r.xid = x ∧ 0 ≤ r.ret ∧ s.Produced c x r.ret r.body

/-- What a call may return. -/
def Returnable (s : RpcSystem) (c x : ℕ) (ret : ℤ) (body : List UInt8) : Prop :=
  (0 ≤ ret → s.Produced c x ret body) ∧ ret ≠ RpcFailure.atmostonce_failure.code

/-- What a reply in the network may be. -/
def Deliverable (s : RpcSystem) (c : ℕ) (r : RpcReply) : Prop :=
  s.Issued c r.xid ∧ (0 ≤ r.ret → s.Produced c r.xid r.ret r.body) ∧
    (r.ret = RpcFailure.atmostonce_failure.code → s.Passed c r.xid)

/-- What the buffer of a job may be. -/
def JobSound (s : RpcSystem) : Job → Prop
  | .replied q b | .sending q b => s.Output q.cltNonce q.xid b.reply
  | .dangling _ => False
  | .arrived _ | .running _ => True

theorem JobSound.mono {s s' : RpcSystem} {job : Job} (h : s.JobSound job)
    (hprod : ∀ c x ret body, s.Produced c x ret body → s'.Produced c x ret body) :
    s'.JobSound job := by
  cases job with
  | replied q b | sending q b => exact ⟨h.1, h.2.1, hprod _ _ _ _ h.2.2⟩
  | dangling q => exact h
  | arrived q | running q => trivial

theorem produced_of_move {s s' : RpcSystem} {l : RpcLabel} {c x : ℕ} {ret : ℤ} {body : List UInt8}
    (hm : Move s l s') (h : s.Produced c x ret body) : s'.Produced c x ret body := by
  obtain ⟨q, hq, hkey, he⟩ := h
  cases hm with
  | call hc => exact ⟨q, List.mem_append_left _ hq, hkey, he⟩
  | exec hj hret => exact ⟨q, hq, hkey, List.mem_append_left _ he⟩
  | _ => exact ⟨q, hq, hkey, he⟩

theorem Output.deliverable {s : RpcSystem} {c x : ℕ} {r : RpcReply} (h : s.Output c x r) :
    s.Deliverable c r := by
  obtain ⟨rfl, hret, hprod⟩ := h
  obtain ⟨q, hq, hkey, -⟩ := id hprod
  refine ⟨⟨q, hq, hkey⟩, fun _ => hprod, fun hcode => ?_⟩
  have := RpcFailure.code_neg .atmostonce_failure
  omega

/-- The failures that `dispatch` and `call1` report themselves. -/
theorem returnable_failure (s : RpcSystem) (c x : ℕ) {f : RpcFailure} (body : List UInt8)
    (hf : f ≠ .atmostonce_failure) : s.Returnable c x f.code body := by
  refine ⟨fun h0 => absurd f.code_neg (by omega), fun hcode => hf ?_⟩
  exact RpcFailure.code_injective hcode

theorem deliverable_failure {s : RpcSystem} {q : Request} {f : RpcFailure} (hq : q ∈ s.requests)
    (hpassed : f = .atmostonce_failure → s.Passed q.cltNonce q.xid) :
    s.Deliverable q.cltNonce ⟨q.xid, f.code, []⟩ :=
  ⟨issued_of_mem hq, fun h0 => absurd f.code_neg (not_lt.2 h0),
    fun hcode => hpassed (RpcFailure.code_injective hcode)⟩

/-! ## The server side -/

/-- The maxima cover passed calls only, and every stored, held or sent reply is the output of an
execution on the request it answers. -/
structure Replies (s : RpcSystem) : Prop where
  maxima : ∀ c m, s.server.maximaXidRep c = some m → ∀ z, 1 ≤ z → z ≤ m → s.Passed c z
  entries : ∀ c, ∀ e ∈ s.server.window c, ∀ b, e.buf = some b → s.Output c e.xid b.reply
  jobs : ∀ k job, s.jobs k = some job → s.JobSound job
  sent : ∀ c r, (c, r) ∈ s.replies → s.Deliverable c r

theorem replies_init (nonce : ℕ) : Replies (init nonce) := by
  refine ⟨by simp [init], ?_, by simp [init], by simp [init]⟩
  intro c e he
  cases (show e ∈ ([] : List ReplyEntry) from he)

/-- Steps that leave the server and the network alone. -/
theorem Replies.grow {s s' : RpcSystem} (h : Replies s)
    (hissued : ∀ c x, s.Issued c x → s'.Issued c x)
    (hpassed : ∀ c x, s.Passed c x → s'.Passed c x)
    (hprod : ∀ c x ret body, s.Produced c x ret body → s'.Produced c x ret body)
    (hserver : s'.server = s.server) (hjobs : s'.jobs = s.jobs)
    (hreplies : s'.replies = s.replies) : Replies s' := by
  constructor
  · rw [hserver]
    exact fun c m hm z h1 h2 => hpassed c z (h.maxima c m hm z h1 h2)
  · rw [hserver]
    intro c e he b hb
    obtain ⟨hx, hret, hp⟩ := h.entries c e he b hb
    exact ⟨hx, hret, hprod _ _ _ _ hp⟩
  · rw [hjobs]
    exact fun k job hk => (h.jobs k job hk).mono hprod
  · rw [hreplies]
    intro c r hr
    obtain ⟨hi, hp, hc⟩ := h.sent c r hr
    exact ⟨hissued _ _ hi, fun h0 => hprod _ _ _ _ (hp h0), fun h4 => hpassed _ _ (hc h4)⟩

theorem Replies.setJob {s : RpcSystem} (h : Replies s) (j : ℕ) {o : Option Job}
    (ho : ∀ job, o = some job → s.JobSound job) : Replies (s.setJob j o) := by
  refine ⟨h.maxima, h.entries, ?_, h.sent⟩
  intro k job hk
  refine JobSound.mono ?_ (fun _ _ _ _ hx => hx)
  rcases jobs_setJob hk with ⟨-, hjob⟩ | ⟨-, hk⟩
  · exact ho job hjob
  · exact h.jobs k job hk

theorem Replies.reply {s : RpcSystem} (h : Replies s) (j : ℕ) (q : Request) {r : RpcReply}
    (hr : s.Deliverable q.cltNonce r) : Replies (s.reply j q r) := by
  have hj := h.setJob j (o := none) (by simp)
  refine ⟨hj.maxima, hj.entries, hj.jobs, ?_⟩
  intro c r' hr'
  rcases List.mem_append.1 hr' with hr' | hr'
  · exact hj.sent c r' hr'
  · obtain ⟨rfl, rfl⟩ := Prod.mk.inj (List.mem_singleton.1 hr')
    exact hr

/-- A request that acknowledges a call is not classified while a job sends the stored reply. -/
def FreeSafe (s : RpcSystem) (l : RpcLabel) : Prop :=
  ∀ q ∈ s.classifies l, (s.server.maximaXidRep q.cltNonce).getD q.xidRep ≤ q.xid →
    ∀ e ∈ s.server.window q.cltNonce, e.xid ≤ q.xidRep →
      ∀ k q' b, s.jobs k = some (.sending q' b) → b.id ∉ Rpcs.freeBuf e

theorem FreeSafe.not_mem_freedBy {s : RpcSystem} {j k : ℕ} {q q' : Request} {b : Buf}
    (h : s.FreeSafe (.check j)) (hj : s.jobs j = some (.arrived q))
    (hk : s.jobs k = some (.sending q' b)) : b.id ∉ s.freedBy q := by
  intro hmem
  obtain ⟨hst, e, he, hle, hid⟩ := (s.classified q).frees b.id hmem
  have hmax := mt (s.classified q).forgotten.2 hst
  exact h q (classifies_check hj) (by omega) e he hle k q' b hk hid

/-- No entry is acknowledged by a request that is classified, so that nothing is freed. -/
def NothingFreed (s : RpcSystem) (l : RpcLabel) : Prop :=
  ∀ q ∈ s.classifies l, ∀ e ∈ s.server.window q.cltNonce, ¬ e.xid ≤ q.xidRep

instance (s : RpcSystem) (l : RpcLabel) : Decidable (s.NothingFreed l) :=
  inferInstanceAs (Decidable (∀ q ∈ s.classifies l, ∀ e ∈ s.server.window q.cltNonce, _))

theorem trace_freeSafe {s₀ s : RpcSystem} {t : List RpcLabel}
    (h : Trace (Guarded (fun s l => Bounded s l ∧ NothingFreed s l) Step) s₀ t s) :
    Trace (Guarded (fun s l => Bounded s l ∧ FreeSafe s l) Step) s₀ t s := by
  refine h.mono ?_
  rintro s l s' ⟨⟨hb, hfree⟩, hstep⟩
  exact ⟨⟨hb, fun q hq _ e he hle => absurd hle (hfree q hq e he)⟩, hstep⟩

/-- The classification of a request. -/
theorem Replies.checked {s : RpcSystem} {j : ℕ} {q : Request} (h : Replies s)
    (hacks : ∀ z, 1 ≤ z → z ≤ q.xidRep → s.Passed q.cltNonce z) (hsafe : s.FreeSafe (.check j))
    (hj : s.jobs j = some (.arrived q)) : Replies (s.checked q) := by
  have hc := s.classified q
  constructor
  · intro c m hm z h1 h2
    show s.Passed c z
    by_cases hne : c = q.cltNonce
    · subst hne
      obtain ⟨m', hm', horigin, -⟩ := hc.maximum
      obtain rfl : m' = m := Option.some.inj (hm'.symm.trans hm)
      -- the maximum is the `xid_rep` of a request, this one or an earlier one
      rcases horigin with rfl | hold
      · exact hacks z h1 h2
      · exact h.maxima _ m' hold z h1 h2
    · rw [(hc.frame c hne).2] at hm
      exact h.maxima c m hm z h1 h2
  · intro c e he b hb
    exact h.entries c e (hc.stored he hb) b hb
  · intro k job hk
    obtain ⟨job₀, hk₀, rfl⟩ := jobs_checked hk
    obtain heq | ⟨q', b, rfl, hfreed, -⟩ := afterFree_cases (s.freedBy q) job₀
    · rw [heq]
      exact (h.jobs k job₀ hk₀).mono (fun _ _ _ _ hx => hx)
    · exact absurd hfreed (hsafe.not_mem_freedBy hj hk₀)
  · exact h.sent

/-- A forgotten request is below the maximum, which covers passed calls only. -/
theorem Replies.passed_of_forgotten {s : RpcSystem} {q : Request} (h : Replies s)
    (hn : Numbered s) (ha : Acknowledged s) (hq : q ∈ s.requests)
    (hst : s.stateOf q = .FORGOTTEN) : s.Passed q.cltNonce q.xid := by
  have hlt := (s.classified q).forgotten.1 hst
  have hpos := (hn.range q hq).1
  cases hmax : s.server.maximaXidRep q.cltNonce with
  | none =>
    rw [hmax, Option.getD_none] at hlt
    exact ha.packed q hq q.xid hpos hlt.le
  | some m =>
    rw [hmax, Option.getD_some] at hlt
    exact h.maxima _ m hmax q.xid hpos hlt.le

theorem Replies.addReply {s : RpcSystem} {j : ℕ} {q : Request} {b : Buf} (h : Replies s)
    (hj : s.jobs j = some (.replied q b)) :
    Replies { s with server := s.server.addReply q.cltNonce q.xid b } := by
  have hb : s.Output q.cltNonce q.xid b.reply := h.jobs j _ hj
  refine ⟨h.maxima, ?_, ?_, h.sent⟩
  · intro c e he b' hb'
    show s.Output c e.xid b'.reply
    rcases Rpcs.stored_addReply he hb' with he | ⟨rfl, hx, rfl⟩
    · exact h.entries c e he b' hb'
    · rwa [hx]
  · exact fun k job hk => (h.jobs k job hk).mono (fun _ _ _ _ hx => hx)

theorem replies_step {s s' : RpcSystem} {l : RpcLabel} (h : Replies s) (hd : Delivered s)
    (hn : Numbered s) (ha : Acknowledged s) (hb : Bounded s l) (hsafe : FreeSafe s l)
    (hm : Move s l s') : Replies s' := by
  have hissued : ∀ c x, s.Issued c x → s'.Issued c x := fun c x hx => issued_of_move hm hx
  have hpassed : ∀ c x, s.Passed c x → s'.Passed c x := fun c x hx => passed_of_move hn hb hm hx
  have hprod : ∀ c x ret body, s.Produced c x ret body → s'.Produced c x ret body :=
    fun c x ret body hx => produced_of_move hm hx
  -- what a classification leaves
  have hchecked : ∀ {j : ℕ} {q : Request}, s.jobs j = some (.arrived q) → s.FreeSafe (.check j) →
      Replies (s.checked q) := fun hj hsafe =>
    h.checked (ha.packed _ (hd.job _ _ hj)) hsafe hj
  cases hm with
  | refused => exact h
  | call | gotPdu | finish | bound | cancel => exact h.grow hissued hpassed hprod rfl rfl rfl
  | deliver hq => exact h.setJob _ (by simp [JobSound])
  | @oldsrv j q hj =>
    exact h.reply _ _ (deliverable_failure (hd.job _ _ hj) (by simp))
  | unchecked hj => exact h.setJob _ (by simp [JobSound])
  | @new j q hj hst =>
    have hset := (hchecked hj hsafe).setJob j (o := some (.running q)) (by simp [JobSound])
    exact hset.grow (fun _ _ hx => hx) (fun _ _ hx => hx) (fun _ _ _ _ hx => hx) rfl rfl rfl
  | inProgress hj hst => exact (hchecked hj hsafe).setJob _ (by simp)
  | @done j q b hj hst =>
    refine (hchecked hj hsafe).setJob _ ?_
    intro job hjob
    obtain rfl := Option.some.inj hjob
    -- the stored reply belongs to the entry with the xid of `q`
    obtain ⟨e, he, hx, heb⟩ := (s.classified q).done b hst
    have hout := h.entries _ e he b heb
    rw [hx] at hout
    exact hout
  | @forgotten j q hj hst =>
    refine (hchecked hj hsafe).reply _ _ (deliverable_failure (hd.job _ _ hj) ?_)
    exact fun _ => h.passed_of_forgotten hn ha (hd.job _ _ hj) hst
  | @exec j q ret body hj hret =>
    have hgrow : Replies { s with
        nextBuf := s.nextBuf + 1
        execs := s.execs ++ [⟨q, ret, body⟩] } := h.grow hissued hpassed hprod rfl rfl rfl
    refine hgrow.setJob j ?_
    intro job hjob
    obtain rfl := Option.some.inj hjob
    exact ⟨rfl, hret, q, hd.job _ _ hj, rfl, by simp⟩
  | @addReply j q b hj =>
    rw [if_pos (Nat.pos_of_ne_zero (hd.nonce q (hd.job _ _ hj)))]
    refine (h.addReply hj).setJob j ?_
    intro job hjob
    obtain rfl := Option.some.inj hjob
    exact h.jobs j _ hj
  | @send j q b garbage hj => exact h.reply _ _ (Output.deliverable (h.jobs j _ hj))
  | @sendFreed j q garbage hj => exact (h.jobs j _ hj).elim

/-! ## The client side -/

/-- What the calls that are done will return, and what the ended calls have returned. -/
structure Results (s : RpcSystem) : Prop where
  done : ∀ c x ca, (s.clients c).calls x = some ca → ca.done = true →
    s.Returnable c x ca.intret ca.un
  ended : ∀ e ∈ s.ended, s.Issued e.cltNonce e.xid ∧ (s.clients e.cltNonce).calls e.xid = none ∧
    s.Returnable e.cltNonce e.xid e.ret e.body

theorem results_init (nonce : ℕ) : Results (init nonce) :=
  ⟨by simp [init], by simp [init]⟩

/-- A client has changed and the record of the ended calls has not. -/
theorem Results.setClient {s s' : RpcSystem} {c : ℕ} {cl : Rpcc} (h : Results s)
    (hclients : s'.clients = (s.setClient c cl).clients) (hended : s'.ended = s.ended)
    (hissued : ∀ c x, s.Issued c x → s'.Issued c x)
    (hprod : ∀ c x ret body, s.Produced c x ret body → s'.Produced c x ret body)
    (hdone : ∀ x ca, cl.calls x = some ca → ca.done = true → s.Returnable c x ca.intret ca.un)
    (hnone : ∀ x, s.Issued c x → (s.clients c).calls x = none → cl.calls x = none) :
    Results s' := by
  constructor
  · rw [hclients]
    refine forall_setClient (P := fun c' cl' => ∀ x ca, cl'.calls x = some ca → ca.done = true →
      s'.Returnable c' x ca.intret ca.un) ?_ ?_
    · intro x ca hca hd
      exact (hdone x ca hca hd).imp_left (fun hp h0 => hprod _ _ _ _ (hp h0))
    · intro c' _ x ca hca hd
      exact (h.done c' x ca hca hd).imp_left (fun hp h0 => hprod _ _ _ _ (hp h0))
  · rw [hclients, hended]
    intro e he
    obtain ⟨hi, hcalls, hp, hcode⟩ := h.ended e he
    refine ⟨hissued _ _ hi, ?_, fun h0 => hprod _ _ _ _ (hp h0), hcode⟩
    by_cases hc : e.cltNonce = c
    · rw [← hc, clients_setClient_self]
      exact hnone _ (hc ▸ hi) (hc ▸ hcalls)
    · rwa [clients_setClient_of_ne s cl hc]

/-- Steps that leave the clients alone. -/
theorem Results.grow {s s' : RpcSystem} (h : Results s) (hclients : s'.clients = s.clients)
    (hended : s'.ended = s.ended) (hissued : ∀ c x, s.Issued c x → s'.Issued c x)
    (hprod : ∀ c x ret body, s.Produced c x ret body → s'.Produced c x ret body) :
    Results s' := by
  have hself : s'.clients = (s.setClient 0 (s.clients 0)).clients := by
    rw [hclients]
    exact (Function.update_eq_self 0 s.clients).symm
  exact h.setClient hself hended hissued hprod (h.done 0) (fun x _ hx => hx)

/-- A call returns what it has been given, or that it has timed out. -/
theorem Results.returned {s : RpcSystem} {c x : ℕ} {ca : Caller} (h : Results s)
    (hca : (s.clients c).calls x = some ca) :
    s.Returnable c x (Rpcc.returned ca).1 (Rpcc.returned ca).2 := by
  unfold Rpcc.returned
  split_ifs with hdone
  · exact h.done c x ca hca hdone
  · exact s.returnable_failure c x (f := .timeout_failure) [] (by simp)

theorem results_step {s s' : RpcSystem} {l : RpcLabel} (h : Results s) (hn : Numbered s)
    (ha : Acknowledged s) (hr : Replies s) (hb : Bounded s l) (hm : Move s l s') :
    Results s' := by
  have hissued : ∀ c x, s.Issued c x → s'.Issued c x := fun c x hx => issued_of_move hm hx
  have hprod : ∀ c x ret body, s.Produced c x ret body → s'.Produced c x ret body :=
    fun c x ret body hx => produced_of_move hm hx
  cases hm with
  | @call c proc body q cl hc =>
    obtain ⟨-, hcl⟩ := Rpcc.call1_ok hc
    refine h.setClient rfl rfl hissued hprod ?_ ?_
    · intro x ca hca hdone
      rw [hcl] at hca
      rcases Rpcc.calls_set hca with ⟨-, rfl⟩ | ⟨-, hca⟩
      · cases hdone
      · exact h.done c x ca hca hdone
    · intro x hx hnone
      rw [hcl]
      exact (StdMap.set_of_ne _ _ (hn.fresh hb hx)).trans hnone
  | @gotPdu c r hmem =>
    obtain ⟨-, hp, hpassed⟩ := hr.sent c r hmem
    refine h.setClient rfl rfl hissued hprod ?_ ?_
    · intro x ca hca hdone
      rcases Rpcc.calls_gotPdu hca with ⟨hca, -⟩ | ⟨rfl, hout, rfl⟩
      · exact h.done c x ca hca hdone
      · -- only calls that have passed are told `atmostonce_failure`, and this one waits
        exact ⟨hp, fun hcode => (hpassed hcode).2 hout⟩
    · intro x _ hnone
      cases hx : ((s.clients c).gotPdu r).calls x with
      | none => rfl
      | some ca =>
        rcases Rpcc.calls_gotPdu hx with ⟨hca, -⟩ | ⟨-, ⟨ca₀, hca, -⟩, -⟩
        · rw [hnone] at hca
          cases hca
        · rw [hnone] at hca
          cases hca
  | @finish c xid ca hca =>
    have hset : Results (s.setClient c ((s.clients c).finish xid)) := by
      refine h.setClient rfl rfl (fun _ _ hx => hx) (fun _ _ _ _ hx => hx) ?_ ?_
      · exact fun x ca' hca' hdone => h.done c x ca' (Rpcc.calls_finish hca').2 hdone
      · intro x _ hnone
        cases hx : ((s.clients c).finish xid).calls x with
        | none => rfl
        | some ca' => rw [← hnone, (Rpcc.calls_finish hx).2]
    refine ⟨hset.done, ?_⟩
    intro e he
    rcases List.mem_append.1 he with he | he
    · exact hset.ended e he
    · rw [List.mem_singleton.1 he]
      refine ⟨ha.calls c xid ca hca, ?_, h.returned hca⟩
      rw [clients_setClient_self]
      exact StdMap.erase_self _ _
  | @bound c xid r =>
    exact h.setClient rfl rfl hissued hprod (h.done c) (fun x _ hx => hx)
  | @cancel c =>
    refine h.setClient rfl rfl hissued hprod ?_ ?_
    · intro x ca hca hdone
      obtain ⟨-, hret, -⟩ := Rpcc.calls_cancel hca
      rw [hret]
      exact s.returnable_failure c x (f := .cancel_failure) ca.un (by simp)
    · intro x _ hnone
      show ((s.clients c).calls x).map _ = none
      rw [hnone, Option.map_none]
  | _ => exact h.grow rfl rfl hissued hprod

/-! ## Runs -/

/-- The invariant of the runs in which no reply is freed while it is sent. -/
structure Sound (s : RpcSystem) : Prop where
  delivered : Delivered s
  numbered : Numbered s
  acknowledged : Acknowledged s
  replies : Replies s
  results : Results s

theorem sound_step {s s' : RpcSystem} {l : RpcLabel} (h : Sound s) (hb : Bounded s l)
    (hsafe : FreeSafe s l) (hm : Move s l s') : Sound s' where
  delivered := delivered_step h.delivered hb hm
  numbered := numbered_step h.numbered hb hm
  acknowledged := acknowledged_step h.acknowledged h.numbered hb hm
    (fun c r hr => (h.replies.sent c r hr).1)
  replies := replies_step h.replies h.delivered h.numbered h.acknowledged hb hsafe hm
  results := results_step h.results h.numbered h.acknowledged h.replies hb hm

theorem sound_of_freeSafe {nonce : ℕ} {t : List RpcLabel} {s : RpcSystem}
    (h : Trace (Guarded (fun s l => Bounded s l ∧ FreeSafe s l) Step) (init nonce) t s) :
    Sound s := by
  refine Trace.invariant ?_ ?_ h
  · exact ⟨delivered_init nonce, numbered_init nonce, acknowledged_init nonce, replies_init nonce,
      results_init nonce⟩
  · rintro s l s' hs ⟨⟨hb, hsafe⟩, hstep⟩
    exact sound_step hs hb hsafe (move_of_step hstep)

/-- An entry leaves the window only for a request that acknowledges it. -/
theorem window_of_move {s s' : RpcSystem} {l : RpcLabel} {c x : ℕ} (hm : Move s l s')
    (hx : x ∈ (s.server.window c).map ReplyEntry.xid) :
    x ∈ (s'.server.window c).map ReplyEntry.xid ∨
      ∃ j q, s.jobs j = some (.arrived q) ∧ q.cltNonce = c ∧ x ≤ q.xidRep := by
  have hchecked : ∀ {j : ℕ} {q : Request}, s.jobs j = some (.arrived q) →
      x ∈ ((s.checked q).server.window c).map ReplyEntry.xid ∨
        ∃ j q, s.jobs j = some (.arrived q) ∧ q.cltNonce = c ∧ x ≤ q.xidRep := by
    intro j q hj
    by_cases hne : c = q.cltNonce
    · obtain ⟨e, he, rfl⟩ := List.mem_map.1 hx
      by_cases hin : e ∈ (s.checked q).server.window c
      · exact .inl (List.mem_map_of_mem hin)
      · subst hne
        exact .inr ⟨j, q, hj, rfl, ((s.classified q).lost e he hin).1⟩
    · left
      rwa [((s.classified q).frame c hne).1]
  cases hm with
  | new hj | inProgress hj | done hj | forgotten hj => exact hchecked hj
  | @addReply j q b hj =>
    left
    dsimp only
    split_ifs
    · rwa [Rpcs.map_xid_window_addReply]
    · exact hx
  | _ => exact .inl hx

/-- While a call waits, its entry stays, its requests are not `FORGOTTEN`, and no call ends with the
failure that tells so. -/
def RepliesKept (s : RpcSystem) : Prop :=
  (∀ c x, s.Outstanding c x → x ∈ (s.server.window c).map ReplyEntry.xid →
    ∀ l s', Step s l s' → x ∈ (s'.server.window c).map ReplyEntry.xid) ∧
  (∀ q ∈ s.requests, s.Outstanding q.cltNonce q.xid → s.stateOf q ≠ .FORGOTTEN) ∧
  (∀ e ∈ s.ended, e.ret ≠ RpcFailure.atmostonce_failure.code)

/-- **No reply is forgotten while it is needed**, in every run in which no reply is freed while it is
sent. -/
theorem repliesKept_of_freeSafe {nonce : ℕ} {t : List RpcLabel} {s : RpcSystem}
    (h : Trace (Guarded (fun s l => Bounded s l ∧ FreeSafe s l) Step) (init nonce) t s) :
    RepliesKept s := by
  have hs := sound_of_freeSafe h
  refine ⟨?_, ?_, fun e he => (hs.results.ended e he).2.2.2⟩
  · intro c x hout hx l s' hstep
    rcases window_of_move (move_of_step hstep) hx with hx | ⟨j, q, hj, rfl, hle⟩
    · exact hx
    · -- the request would acknowledge a call that waits
      have hq := hs.delivered.job j _ hj
      obtain ⟨ca, hca, -⟩ := id hout
      obtain ⟨q₀, hq₀, hkey⟩ := hs.acknowledged.calls _ x ca hca
      have hpos : 1 ≤ x := by
        rw [← (Prod.mk.inj hkey).2]
        exact (hs.numbered.range q₀ hq₀).1
      exact absurd hout (hs.acknowledged.packed q hq x hpos hle).2
  · intro q hq hout hst
    exact (hs.replies.passed_of_forgotten hs.numbered hs.acknowledged hq hst).2 hout

/-- The first call of a client, when its request has reached the server. -/
theorem repliesKept_bind : ∃ t s,
    Trace (Guarded (fun s l => Bounded s l ∧ FreeSafe s l) Step) (init 5) t s ∧
      s.Outstanding 7 1 ∧ 1 ∈ (s.server.window 7).map ReplyEntry.xid ∧ RepliesKept s := by
  have hrun : ((init 5).run (fun s l => Bounded s l ∧ NothingFreed s l)
      [.call 7 Rpcc.bindProc [], .deliver 0 ⟨1, 1, 7, 0, 0, []⟩, .check 0]).any
      (fun s => decide ((s.clients 7).calls 1 = some ⟨[], 0, false⟩ ∧
        1 ∈ (s.server.window 7).map ReplyEntry.xid)) = true := by
    decide
  obtain ⟨s, ht, hs⟩ := exists_trace hrun
  obtain ⟨hca, hx⟩ := of_decide_eq_true hs
  have ht' := trace_freeSafe ht
  exact ⟨_, s, ht', ⟨_, hca, rfl⟩, hx, repliesKept_of_freeSafe ht'⟩

/-- The steps until a freed reply is sent.  A copy of the `bind` request of the client 7 is answered
from the window; before the answer is sent, call 2 of the client frees it.  The client 8 binds and makes
two calls, and the reply to its call `x` is packed next. -/
def freedWhileSent (x : ℕ) : List RpcLabel :=
  List.flatten
    [binding 7 5,
      [.deliver 1 ⟨1, Rpcc.bindProc, 7, 0, 0, []⟩, .check 1, .call 7 9 [],
        .deliver 2 ⟨2, 9, 7, 5, 1, []⟩, .check 2],
      binding 8 5,
      [.call 8 9 [], .call 8 9 [], .deliver 0 ⟨x, 9, 8, 5, 1, []⟩, .check 0, .exec 0 0 [1],
        .send 1 ⟨x, 0, [1]⟩, .gotPdu 7 ⟨x, 0, [1]⟩]]

/-- The client 7 gets a reply with xid 3 before it has made this call, and acknowledges call 3 in the
requests of calls 3 and 4.  The latter erases the entry of the former. -/
theorem forgotten_while_waiting :
    ¬ ∀ nonce t s, Trace (Guarded Bounded Step) (init nonce) t s → RepliesKept s := by
  have hrun : ((init 5).run Bounded
      (List.flatten
        [freedWhileSent 3,
          [.exec 2 0 [], .addReply 2, .send 2 ⟨2, 0, []⟩, .gotPdu 7 ⟨2, 0, []⟩, .finish 7 2,
            .call 7 9 [], .call 7 9 [], .deliver 2 ⟨3, 9, 7, 5, 3, []⟩, .check 2,
            .deliver 3 ⟨4, 9, 7, 5, 3, []⟩]])).any
      (fun s => decide ((s.clients 7).calls 3 = some ⟨[], 0, false⟩ ∧
        3 ∈ (s.server.window 7).map ReplyEntry.xid) &&
        (s.step (.check 3)).any
          (fun s' => decide (3 ∉ (s'.server.window 7).map ReplyEntry.xid))) = true := by
    decide +kernel
  intro h
  obtain ⟨s, ht, hs⟩ := exists_trace hrun
  rw [Bool.and_eq_true] at hs
  obtain ⟨hca, hx⟩ := of_decide_eq_true hs.1
  cases hstep : s.step (.check 3) with
  | none => simp [hstep] at hs
  | some s' =>
    rw [hstep, Option.any_some] at hs
    exact of_decide_eq_true hs.2 ((h 5 _ s ht).1 7 3 ⟨_, hca, rfl⟩ hx _ s' hstep)

/-- The ended calls that have a result have the output of an execution on the request that the client
has issued for them. -/
def Answered (s : RpcSystem) : Prop :=
  ∀ e ∈ s.ended, 0 ≤ e.ret → ∃ q ∈ s.requests, q.key = (e.cltNonce, e.xid) ∧
    (∀ q' ∈ s.requests, q'.key = q.key → q' = q) ∧ ⟨q, e.ret, e.body⟩ ∈ s.execs

instance (s : RpcSystem) : Decidable s.Answered :=
  inferInstanceAs (Decidable (∀ e ∈ s.ended, _ → ∃ q ∈ s.requests, _))

/-- No call ends with the reply to another one, and a reply to an ended call changes no call. -/
def NotCrossed (s : RpcSystem) : Prop :=
  s.Answered ∧
  (∀ e ∈ s.ended, ∀ r : RpcReply, r.xid = e.xid →
    ((s.clients e.cltNonce).gotPdu r).calls = (s.clients e.cltNonce).calls)

/-- **Replies are not crossed**, in every run in which no reply is freed while it is sent. -/
theorem notCrossed_of_freeSafe {nonce : ℕ} {t : List RpcLabel} {s : RpcSystem}
    (h : Trace (Guarded (fun s l => Bounded s l ∧ FreeSafe s l) Step) (init nonce) t s) :
    NotCrossed s := by
  have hs := sound_of_freeSafe h
  constructor
  · intro e he hret
    obtain ⟨q, hq, hkey, hexec⟩ := (hs.results.ended e he).2.2.1 hret
    exact ⟨q, hq, hkey, fun q' hq' hkey' => hs.numbered.unique q' hq' q hq hkey', hexec⟩
  · intro e he r hr
    apply Rpcc.calls_gotPdu_of_none
    rw [hr]
    exact (hs.results.ended e he).2.1

/-- A client that has bound, and a copy of its request that is answered from the window. -/
theorem notCrossed_bind : ∃ t s,
    Trace (Guarded (fun s l => Bounded s l ∧ FreeSafe s l) Step) (init 5) t s ∧
      s.replies.length = 2 ∧ s.ended = [⟨7, 1, 0, packInt 5⟩] ∧ NotCrossed s := by
  have hrun : ((init 5).run (fun s l => Bounded s l ∧ NothingFreed s l)
      (List.flatten
        [binding 7 5, [.deliver 1 ⟨1, Rpcc.bindProc, 7, 0, 0, []⟩, .check 1, .send 1 ⟨1, 0, []⟩]])).any
      (fun s => decide (s.replies.length = 2 ∧ s.ended = [⟨7, 1, 0, packInt 5⟩])) = true := by
    decide
  obtain ⟨s, ht, hs⟩ := exists_trace hrun
  obtain ⟨hlen, hended⟩ := of_decide_eq_true hs
  exact ⟨_, s, trace_freeSafe ht, hlen, hended, notCrossed_of_freeSafe (trace_freeSafe ht)⟩

/-- Call 2 of the client 7 ends with the output of call 2 of the client 8. -/
theorem crossed_after_free :
    ¬ ∀ nonce t s, Trace (Guarded Bounded Step) (init nonce) t s → NotCrossed s := by
  have hrun : ((init 5).run Bounded (freedWhileSent 2 ++ [.finish 7 2])).any
      (fun s => !decide s.Answered) = true := by
    decide +kernel
  intro h
  obtain ⟨s, ht, hs⟩ := exists_trace hrun
  simp [(h 5 _ s ht).1] at hs

end RpcSystem
