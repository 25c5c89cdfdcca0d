/-
# A call can always be answered (`rpc/rpc.cc`)

From every state of a safe run there is a way on in which a call that waits is answered: its client
sends nothing but copies of the request it has built, and the service answers what it is asked.

* A call whose request has been admitted is on its way: a job runs its handler, stores or sends the
  reply, or a reply to it is in the network (`Live.tracked`).  A copy of the request would be of no
  use then: while the handler runs the server drops it.
* A call whose request has not been admitted is classified as `NEW` when a copy arrives
  (`Live.stateOf_eq`), after the jobs that are about to send have done so (`drain`).
-/
import Yfs.RpcRefinement

theorem unpackInt_packInt {n : ℕ} (hn : n < 2 ^ 32) : unpackInt (packInt n) = some n := by
  simp only [unpackInt, packInt, UInt8.toNat_ofNat', Option.some.injEq]
  omega

theorem Rpcc.srvNonce_gotPdu (cl : Rpcc) (r : RpcReply) : (cl.gotPdu r).srvNonce = cl.srvNonce := by
  unfold gotPdu
  dsimp only
  split
  · rfl
  · split_ifs <;> rfl

/-- The window has an entry of a request that is `INPROGRESS`. -/
theorem Rpcs.mem_window_of_inProgress {s : Rpcs} {c xid xidRep : ℕ}
    (h : (s.checkduplicateAndUpdate c xid xidRep).1 = .INPROGRESS) :
    ∃ e ∈ s.window c, e.xid = xid := by
  have hp : Prunes xid xidRep (s.window c) (s.scanned c xid xidRep) := scan_prunes xid xidRep _ _
  unfold checkduplicateAndUpdate at h
  dsimp only at h
  split_ifs at h
  split at h
  · next e hstop => exact ⟨e, hp.found e hstop⟩
  · cases h

/-- The handler of the job runs, or its reply is being stored or sent. -/
def Job.active : Job → Bool
  | running _ | replied _ _ | sending _ _ => true
  | arrived _ | dangling _ => false

namespace RpcSystem

variable {s s' : RpcSystem} {k : ℕ × ℕ}

/-! ## Calls that are on their way -/

/-- A job works on the call. -/
def Working (s : RpcSystem) (k : ℕ × ℕ) : Prop :=
  ∃ j job, s.jobs j = some job ∧ job.active = true ∧ job.request.key = k

/-- A reply with the output of the call is in the network. -/
def Replied (s : RpcSystem) (k : ℕ × ℕ) : Prop :=
  ∃ r, (k.1, r) ∈ s.replies ∧ r.xid = k.2 ∧ 0 ≤ r.ret

/-- A job goes on; if it worked on the call it still does. -/
theorem Working.setJob {j : ℕ} {o : Option Job} (h : s.Working k)
    (hj : ∀ job, s.jobs j = some job → job.active = true → job.request.key = k →
      ∃ job', o = some job' ∧ job'.active = true ∧ job'.request.key = k) :
    (s.setJob j o).Working k := by
  obtain ⟨i, job, hi, hactive, hkey⟩ := h
  by_cases hij : i = j
  · subst hij
    obtain ⟨job', rfl, hactive', hkey'⟩ := hj job hi hactive hkey
    exact ⟨i, job', Function.update_self .., hactive', hkey'⟩
  · exact ⟨i, job, (Function.update_of_ne hij ..).trans hi, hactive, hkey⟩

/-- A job that did not work on any call. -/
theorem Working.setIdle {j : ℕ} {o : Option Job} (h : s.Working k)
    (hj : ∀ job, s.jobs j = some job → job.active = false) : (s.setJob j o).Working k := by
  refine h.setJob (fun job hjob hactive _ => ?_)
  rw [hj job hjob] at hactive
  cases hactive

/-- A classification that frees no reply which is being sent. -/
theorem Working.checked {j : ℕ} {q : Request} (h : s.Working k) (hsafe : s.FreeSafe (.check j))
    (hj : s.jobs j = some (.arrived q)) : (s.checked q).Working k := by
  obtain ⟨i, job, hi, hactive, hkey⟩ := h
  refine ⟨i, job, ?_, hactive, hkey⟩
  show (s.jobs i).map _ = some job
  rw [hi, Option.map_some]
  obtain heq | ⟨q', b, rfl, hfreed, -⟩ := afterFree_cases (s.freedBy q) job
  · exact congrArg some heq
  · exact absurd hfreed (hsafe.not_mem_freedBy hj hi)

/-- A request is delivered to a job that is not in use. -/
theorem free_of_deliver {j : ℕ} {q : Request} (h : Step s (.deliver j q) s') :
    s.jobs j = none := by
  unfold Step at h
  rw [step] at h
  split_ifs at h with hq
  exact hq.2

/-- **A call that is on its way stays so.** -/
theorem tracked_of_step {l : RpcLabel} (hi : Exact s) (hsafe : s.Safe l) (hstep : Step s l s')
    (h : s.Working k ∨ s.Replied k) : s'.Working k ∨ s'.Replied k := by
  have harrived : ∀ {j : ℕ} {q : Request}, s.jobs j = some (.arrived q) →
      ∀ job, s.jobs j = some job → job.active = false := by
    intro j q hj job hjob
    rw [hj] at hjob
    obtain rfl := Option.some.inj hjob
    rfl
  have hchecked : ∀ {j : ℕ} {q : Request} {o : Option Job}, s.jobs j = some (.arrived q) →
      s.FreeSafe (.check j) → s.Working k → ((s.checked q).setJob j o).Working k := by
    intro j q o hj hfree hw
    refine (hw.checked hfree hj).setIdle ?_
    intro job hjob
    have hmap : (s.jobs j).map (Job.afterFree (s.freedBy q)) = some job := hjob
    rw [hj, Option.map_some] at hmap
    obtain rfl := Option.some.inj hmap
    rfl
  have hgrow : ∀ {x : ℕ × RpcReply} {replies : List (ℕ × RpcReply)}, s.Replied k →
      replies = s.replies ++ [x] → ∃ r, (k.1, r) ∈ replies ∧ r.xid = k.2 ∧ 0 ≤ r.ret := by
    rintro x replies ⟨r, hr, hx⟩ rfl
    exact ⟨r, List.mem_append_left _ hr, hx⟩
  cases move_of_step hstep with
  | refused | call | gotPdu | finish | bound | cancel => exact h
  | @deliver j q hq =>
    refine h.imp (fun hw => hw.setIdle ?_) id
    rw [free_of_deliver hstep]
    simp
  | oldsrv hj => exact h.imp (fun hw => hw.setIdle (harrived hj)) (fun hr => hgrow hr rfl)
  | unchecked hj => exact h.imp (fun hw => hw.setIdle (harrived hj)) id
  | new hj => exact h.imp (fun hw => hchecked hj hsafe.2.2 hw) id
  | inProgress hj => exact h.imp (fun hw => hchecked hj hsafe.2.2 hw) id
  | done hj => exact h.imp (fun hw => hchecked hj hsafe.2.2 hw) id
  | forgotten hj => exact h.imp (fun hw => hchecked hj hsafe.2.2 hw) (fun hr => hgrow hr rfl)
  | @exec j q ret body hj hret =>
    refine h.imp (fun hw => hw.setJob (o := some (.replied q ⟨s.nextBuf, ⟨q.xid, ret, body⟩⟩)) ?_) id
    intro job hjob _ hkey
    rw [hj] at hjob
    obtain rfl := Option.some.inj hjob
    exact ⟨_, rfl, rfl, hkey⟩
  | @addReply j q b hj =>
    refine h.imp (fun hw => hw.setJob (o := some (.sending q b)) ?_) id
    intro job hjob _ hkey
    rw [hj] at hjob
    obtain rfl := Option.some.inj hjob
    exact ⟨_, rfl, rfl, hkey⟩
  | @send j q b garbage hj =>
    rcases h with hw | hr
    · -- the job may be the one that works on the call; then its reply is in the network now
      by_cases hkey : q.key = k
      · obtain ⟨hx, hret, -⟩ := hi.sound.replies.jobs j _ hj
        subst hkey
        exact .inr ⟨b.reply, List.mem_append_right _ (List.mem_singleton_self _), hx, hret⟩
      · refine .inl (hw.setJob (o := none) ?_)
        intro job hjob _ hk
        rw [hj] at hjob
        obtain rfl := Option.some.inj hjob
        exact absurd hk hkey
    · exact .inr (hgrow hr rfl)
  | sendFreed hj => exact (hi.sound.replies.jobs _ _ hj).elim

/-! ## What the server knows of a call -/

/-- Admitted calls are on their way, the windows list admitted calls only, and the clients know no
other server. -/
structure Live (nonce : ℕ) (s : RpcSystem) : Prop where
  exact : Exact s
  server : s.server.nonce = nonce
  tracked : ∀ k ∈ s.admitted, s.Working k ∨ s.Replied k
  listed : ∀ c, ∀ e ∈ s.server.window c, (c, e.xid) ∈ s.admitted
  bound : ∀ c, (s.clients c).srvNonce = 0 ∨ (s.clients c).srvNonce = nonce
  sent : ∀ q ∈ s.requests, q.srvNonce = 0 ∨ q.srvNonce = nonce
  binds : ∀ e ∈ s.execs, e.request.proc = Rpcc.bindProc → e.output = ⟨0, packInt nonce⟩

theorem live_init (nonce : ℕ) : Live nonce (init nonce) where
  exact := exact_init nonce
  server := rfl
  tracked := by simp [init]
  listed := by
    intro c e he
    cases (show e ∈ ([] : List ReplyEntry) from he)
  bound c := .inl rfl
  sent := by simp [init]
  binds := by simp [init]

variable {nonce : ℕ} {l : RpcLabel}

/-- What is admitted in a step is worked on. -/
theorem working_of_admitted (hm : Move s l s') (hk : k ∈ s'.admitted) :
    k ∈ s.admitted ∨ s'.Working k := by
  cases hm with
  | @new j q hj hst =>
    rcases List.mem_append.1 hk with hk | hk
    · exact .inl hk
    · rw [List.mem_singleton.1 hk]
      exact .inr ⟨j, .running q, Function.update_self .., rfl, rfl⟩
  | _ => exact .inl hk

theorem Live.listed_step (h : Live nonce s) (hm : Move s l s') (c : ℕ) (e : ReplyEntry)
    (he : e ∈ s'.server.window c) : (c, e.xid) ∈ s'.admitted := by
  -- the entries after a classification
  have hchecked : ∀ {q : Request} {st : RpcState}, s.stateOf q = st →
      e ∈ (s.checked q).server.window c →
      (c, e.xid) ∈ s.admitted ∨ (st = .NEW ∧ (c, e.xid) = q.key) := by
    rintro q st rfl he
    by_cases hc : c = q.cltNonce
    · subst hc
      exact ((s.classified q).origin e he).imp (h.listed _ e)
        (fun hnew => ⟨hnew.1, congrArg (Prod.mk q.cltNonce) (congrArg ReplyEntry.xid hnew.2)⟩)
    · rw [((s.classified q).frame c hc).1] at he
      exact .inl (h.listed c e he)
  cases hm with
  | new hj hst =>
    rcases hchecked hst he with hold | ⟨-, hkey⟩
    · exact List.mem_append_left _ hold
    · rw [hkey]
      exact List.mem_append_right _ (List.mem_singleton_self _)
  | inProgress hj hst => exact (hchecked hst he).resolve_right (by simp)
  | done hj hst => exact (hchecked hst he).resolve_right (by simp)
  | forgotten hj hst => exact (hchecked hst he).resolve_right (by simp)
  | @addReply j q b hj =>
    obtain ⟨e₀, he₀, hx⟩ : ∃ e₀ ∈ s.server.window c, e₀.xid = e.xid := by
      dsimp only at he
      split_ifs at he
      · have hmem := List.mem_map_of_mem (f := ReplyEntry.xid) he
        rw [Rpcs.map_xid_window_addReply] at hmem
        exact List.mem_map.1 hmem
      · exact ⟨e, he, rfl⟩
    rw [← hx]
    exact h.listed c e₀ he₀
  | _ => exact h.listed c e he

/-- `bind` hands the client the nonce of this server. -/
theorem Live.boundNonce_eq (h : Live nonce s) (hn : nonce < 2 ^ 32) {c xid r : ℕ}
    (hr : s.boundNonce c xid = some r) : r = nonce := by
  unfold boundNonce at hr
  split_ifs at hr with hany
  obtain ⟨q, hq, hbind⟩ := List.any_eq_true.1 hany
  rw [Bool.and_eq_true, beq_iff_eq, beq_iff_eq] at hbind
  obtain ⟨e, hfind, hunpack⟩ := Option.bind_eq_some_iff.1 hr
  have he := List.find?_some hfind
  simp only [Bool.and_eq_true, beq_iff_eq] at he
  obtain ⟨⟨hc, hx⟩, hret⟩ := he
  -- the call has returned the output of the handler, which is that of `rpcbind`
  obtain ⟨q', hq', hkey, hexec⟩ :=
    (h.exact.sound.results.ended e (List.mem_of_find?_eq_some hfind)).2.2.1 (le_of_eq hret.symm)
  obtain rfl : q' = q := h.exact.sound.numbered.unique q' hq' q hq (by rw [hkey, hbind.1, hc, hx])
  have hout := congrArg ProcResult.body (h.binds _ hexec hbind.2)
  have hbody : e.body = packInt nonce := hout
  rw [hbody, unpackInt_packInt hn, Option.some.injEq] at hunpack
  exact hunpack.symm

theorem Live.bound_step (h : Live nonce s) (hn : nonce < 2 ^ 32) (hstep : Step s l s') (c : ℕ) :
    (s'.clients c).srvNonce = 0 ∨ (s'.clients c).srvNonce = nonce := by
  have hset : ∀ {c₀ : ℕ} {cl : Rpcc}, cl.srvNonce = 0 ∨ cl.srvNonce = nonce →
      ((s.setClient c₀ cl).clients c).srvNonce = 0 ∨
        ((s.setClient c₀ cl).clients c).srvNonce = nonce := fun hcl =>
    forall_setClient (P := fun _ cl => cl.srvNonce = 0 ∨ cl.srvNonce = nonce) hcl
      (fun c' _ => h.bound c') c
  by_cases hbound : ∃ c₀ xid, l = .bound c₀ xid
  · obtain ⟨c₀, xid, rfl⟩ := hbound
    unfold Step at hstep
    rw [step] at hstep
    obtain ⟨r, hr, rfl⟩ := Option.map_eq_some_iff.1 hstep
    exact hset (.inr (h.boundNonce_eq hn hr))
  · cases move_of_step hstep with
    | call hc =>
      refine hset ?_
      rw [(Rpcc.call1_ok hc).2]
      exact h.bound _
    | gotPdu hr =>
      refine hset ?_
      rw [Rpcc.srvNonce_gotPdu]
      exact h.bound _
    | bound => exact absurd ⟨_, _, rfl⟩ hbound
    | finish | cancel => exact hset (h.bound _)
    | _ => exact h.bound c

theorem live_step (hn : nonce < 2 ^ 32) (h : Live nonce s) (hsafe : s.Safe l) (hstep : Step s l s') :
    Live nonce s' where
  exact := exact_step h.exact hsafe (move_of_step hstep)
  server := (nonce_of_move (move_of_step hstep)).trans h.server
  tracked k hk := by
    rcases working_of_admitted (move_of_step hstep) hk with hk | hw
    · exact tracked_of_step h.exact hsafe hstep (h.tracked k hk)
    · exact .inl hw
  listed := h.listed_step (move_of_step hstep)
  bound := h.bound_step hn hstep
  sent := by
    rcases requests_of_move (move_of_step hstep) with hreq | ⟨c, proc, body, q, cl, rfl, hc, hreq⟩
    · rw [hreq]
      exact h.sent
    · rw [hreq]
      intro q' hq'
      rcases List.mem_append.1 hq' with hq' | hq'
      · exact h.sent q' hq'
      · rw [List.mem_singleton.1 hq', (Rpcc.call1_ok hc).1]
        exact h.bound c
  binds := by
    cases move_of_step hstep with
    | @exec j q ret body hj hret =>
      obtain ⟨q', hj', hh⟩ := Remote.exec_cases hstep
      obtain rfl : q = q' := by
        rw [hj, Option.some.injEq, Job.running.injEq] at hj'
        exact hj'
      intro e he hbind
      rcases List.mem_append.1 he with he | he
      · exact h.binds e he hbind
      · rw [List.mem_singleton.1 he] at hbind ⊢
        have hproc : q.proc = Rpcc.bindProc := hbind
        rw [handled, if_pos hproc, Bool.and_eq_true, beq_iff_eq, beq_iff_eq, h.server] at hh
        obtain ⟨rfl, rfl⟩ := hh
        rfl
    | _ => exact h.binds

/-- **A waiting call whose request has not been admitted is `NEW`**, and it is recognised. -/
theorem Live.stateOf_eq (h : Live nonce s) {q : Request} (hq : q ∈ s.requests)
    (hout : s.Outstanding q.cltNonce q.xid) (hk : q.key ∉ s.admitted) :
    s.stateOf q = .NEW ∧ s.server.Recognised q := by
  have hsound := h.exact.sound
  have hwin : ∀ e ∈ s.server.window q.cltNonce, e.xid ≠ q.xid := by
    intro e he hx
    apply hk
    rw [Request.key, ← hx]
    exact h.listed _ e he
  constructor
  · cases hst : s.stateOf q with
    | NEW => rfl
    | INPROGRESS =>
      obtain ⟨e, he, hx⟩ := Rpcs.mem_window_of_inProgress hst
      exact absurd hx (hwin e he)
    | DONE b =>
      obtain ⟨e, he, hx, -⟩ := (s.classified q).done b hst
      exact absurd hx (hwin e he)
    | FORGOTTEN =>
      exact absurd hout
        (hsound.replies.passed_of_forgotten hsound.numbered hsound.acknowledged hq hst).2
  · have hnot : q.xid ∉ (s.server.window q.cltNonce).map ReplyEntry.xid := by
      intro hmem
      obtain ⟨e, he, hx⟩ := List.mem_map.1 hmem
      exact hwin e he hx
    refine ⟨fun hmax => absurd hout ?_, fun hmem => absurd hmem hnot⟩
    have hpos := (hsound.numbered.range q hq).1
    exact (hsound.replies.maxima _ _ hmax q.xid hpos le_rfl).2

end RpcSystem

/-- The waiting call with the xid of a reply gets it. -/
theorem Rpcc.calls_gotPdu_self {cl : Rpcc} {r : RpcReply} (h : cl.Outstanding r.xid) :
    (cl.gotPdu r).calls r.xid = some ⟨r.body, r.ret, true⟩ := by
  obtain ⟨ca, hca, hdone⟩ := h
  unfold gotPdu
  dsimp only
  rw [hca]
  dsimp only
  rw [if_neg (by simp [hdone])]
  exact StdMap.set_self ..

/-- The steps with which the call `k` is brought to its end: nobody makes another call or gives up. -/
def RpcLabel.completes (k : ℕ × ℕ) : RpcLabel → Bool
  | .call .. | .bound .. | .cancel .. => false
  | .finish c x => (c, x) == k
  | _ => true

namespace Remote

open RpcSystem

variable {σ : Type*} {nonce : ℕ} {serves : σ → ProcCall → ProcResult → σ → Prop}

/-! ## The way on -/

/-- There is a way on to the end of the call, with a result. -/
def Answerable (nonce : ℕ) (serves : σ → ProcCall → ProcResult → σ → Prop) (s : Remote σ)
    (k : ℕ × ℕ) : Prop :=
  ∃ t s' ret body, Trace (SafeStep nonce serves) s t s' ∧ (∀ l ∈ t, l.completes k = true) ∧
    0 ≤ ret ∧ ⟨k.1, k.2, ret, body⟩ ∈ s'.rpc.ended

section Way

variable {s s' : Remote σ} {k : ℕ × ℕ}

theorem Answerable.of_trace {t : List RpcLabel} (h : Trace (SafeStep nonce serves) s t s')
    (ht : ∀ l ∈ t, l.completes k = true) (ha : Answerable nonce serves s' k) :
    Answerable nonce serves s k := by
  obtain ⟨t', s₁, ret, body, h', ht', hret, hended⟩ := ha
  refine ⟨t ++ t', s₁, ret, body, h.append h', ?_, hret, hended⟩
  intro l hl
  rcases List.mem_append.1 hl with hl | hl
  · exact ht l hl
  · exact ht' l hl

/-- A step of the RPC system that runs no handler and classifies nothing. -/
theorem Answerable.of_other {x : σ} {r r' : RpcSystem} {l : RpcLabel} (h : r.step l = some r')
    (hl : ∀ j ret body, l ≠ .exec j ret body) (hb : r.Bounded l) (hc : r.classifies l = none)
    (hk : l.completes k = true) (ha : Answerable nonce serves ⟨r', x⟩ k) :
    Answerable nonce serves ⟨r, x⟩ k := by
  refine ha.of_trace (.single ⟨safe_of_unclassified hb hc, .other h hl⟩) ?_
  intro l' hl'
  rw [List.mem_singleton.1 hl']
  exact hk

theorem answerable_of_replied {r : RpcSystem} {x : σ} (hout : r.Outstanding k.1 k.2)
    (h : r.Replied k) : Answerable nonce serves ⟨r, x⟩ k := by
  obtain ⟨reply, hmem, hx, hret⟩ := h
  rw [← hx] at hout
  have hcalls := Rpcc.calls_gotPdu_self (r := reply) hout
  rw [hx] at hcalls
  -- the reply arrives, and the call returns
  let r₁ := r.setClient k.1 ((r.clients k.1).gotPdu reply)
  have hgot : r.step (.gotPdu k.1 reply) = some r₁ := if_pos hmem
  have hca : (r₁.clients k.1).calls k.2 = some ⟨reply.body, reply.ret, true⟩ := by
    rw [clients_setClient_self]
    exact hcalls
  have hfinish : r₁.step (.finish k.1 k.2) = some { r₁.setClient k.1 ((r₁.clients k.1).finish k.2) with
      ended := r₁.ended ++ [⟨k.1, k.2, reply.ret, reply.body⟩] } := by
    rw [step, hca]
    rfl
  refine Answerable.of_other hgot (by simp) trivial rfl rfl ?_
  refine Answerable.of_other hfinish (by simp) trivial rfl (by simp [RpcLabel.completes]) ?_
  exact ⟨[], _, reply.ret, reply.body, .nil, by simp, hret, by simp⟩

theorem answerable_of_sending {r : RpcSystem} {x : σ} {j : ℕ} {q : Request} {b : Buf}
    (hout : r.Outstanding q.cltNonce q.xid) (hj : r.jobs j = some (.sending q b))
    (hx : b.reply.xid = q.xid) (hret : 0 ≤ b.reply.ret) :
    Answerable nonce serves ⟨r, x⟩ q.key := by
  have hsend : r.step (.send j b.reply) = some (r.reply j q b.reply) := by rw [step, hj]
  refine Answerable.of_other hsend (by simp) trivial rfl rfl (answerable_of_replied hout ?_)
  exact ⟨b.reply, List.mem_append_right _ (List.mem_singleton_self _), hx, hret⟩

theorem answerable_of_stored {r : RpcSystem} {x : σ} {j : ℕ} {q : Request} {b : Buf}
    (hout : r.Outstanding q.cltNonce q.xid) (hj : r.jobs j = some (.replied q b))
    (hx : b.reply.xid = q.xid) (hret : 0 ≤ b.reply.ret) :
    Answerable nonce serves ⟨r, x⟩ q.key := by
  have hadd : r.step (.addReply j) = some { r.setJob j (some (.sending q b)) with
      server := if 0 < q.cltNonce then r.server.addReply q.cltNonce q.xid b else r.server } := by
    rw [step, hj]
  refine Answerable.of_other hadd (by simp) trivial rfl rfl ?_
  exact answerable_of_sending hout (Function.update_self ..) hx hret

/-- The service answers the request, in any of its states. -/
def Answers (serves : σ → ProcCall → ProcResult → σ → Prop) (i : ProcCall) : Prop :=
  ∀ x, ∃ o x', 0 ≤ o.ret ∧ serves x i o x'

theorem answerable_of_running {r : RpcSystem} {x : σ} {j : ℕ} {q : Request}
    (hserver : r.server.nonce = nonce) (hlive : q.proc ≠ Rpcc.bindProc → Answers serves q.input)
    (hout : r.Outstanding q.cltNonce q.xid) (hj : r.jobs j = some (.running q)) :
    Answerable nonce serves ⟨r, x⟩ q.key := by
  -- what the handler gives back
  obtain ⟨o, x', hx, hh, hret⟩ : ∃ o x', Handlers nonce serves x q.input o x' ∧
      r.handled q o.ret o.body = true ∧ 0 ≤ o.ret := by
    by_cases hbind : q.proc = Rpcc.bindProc
    · refine ⟨_, x, .rpcbind hbind, ?_, le_refl 0⟩
      rw [handled, if_pos hbind, hserver]
      simp
    · obtain ⟨o, x', hret, hserves⟩ := hlive hbind x
      refine ⟨o, x', .service hbind hserves, ?_, hret⟩
      rw [handled, if_neg hbind]
      exact decide_eq_true hret
  have hstep : RpcSystem.Step r (.exec j o.ret o.body)
      { r.setJob j (some (.replied q ⟨r.nextBuf, ⟨q.xid, o.ret, o.body⟩⟩)) with
        nextBuf := r.nextBuf + 1
        execs := r.execs ++ [⟨q, o.ret, o.body⟩] } := by
    unfold RpcSystem.Step
    rw [step, hj]
    exact if_pos hh
  have hsafe : r.Safe (.exec j o.ret o.body) := safe_of_unclassified trivial rfl
  refine Answerable.of_trace (.single ⟨hsafe, .handler hstep hj hx⟩) ?_
    (answerable_of_stored hout (Function.update_self ..) rfl hret)
  intro l hl
  rw [List.mem_singleton.1 hl]
  rfl

theorem answerable_of_working {r : RpcSystem} {x : σ} (hi : Live nonce r) (hw : r.Working k)
    (hlive : ∀ q ∈ r.requests, q.key = k → q.proc ≠ Rpcc.bindProc → Answers serves q.input)
    (hout : r.Outstanding k.1 k.2) : Answerable nonce serves ⟨r, x⟩ k := by
  obtain ⟨j, job, hj, hactive, rfl⟩ := hw
  have hjob := hi.exact.sound.replies.jobs j job hj
  cases job with
  | arrived q | dangling q => cases hactive
  | running q =>
    exact answerable_of_running hi.server
      (hlive q (hi.exact.sound.delivered.job j _ hj) rfl) hout hj
  | replied q b => exact answerable_of_stored hout hj hjob.1 hjob.2.1
  | sending q b => exact answerable_of_sending hout hj hjob.1 hjob.2.1

/-- A call whose request has not been admitted, when no job is about to send. -/
theorem answerable_of_new {r : RpcSystem} {x : σ} {n : ℕ} {q : Request} (hn : nonce < 2 ^ 32)
    (hi : Live nonce r) (hidle : r.IdleFrom n) (hsends : ∀ j, r.sends j = none)
    (hlive : q.proc ≠ Rpcc.bindProc → Answers serves q.input) (hq : q ∈ r.requests)
    (hout : r.Outstanding q.cltNonce q.xid) (hk : q.key ∉ r.admitted) :
    Answerable nonce serves ⟨r, x⟩ q.key := by
  let r₁ := r.setJob n (some (.arrived q))
  have hdeliver : r.step (.deliver n q) = some r₁ := if_pos ⟨hq, hidle n le_rfl⟩
  have hfree : r.Safe (.deliver n q) := safe_of_unclassified trivial rfl
  have hi₁ : Live nonce r₁ := live_step hn hi hfree hdeliver
  have hj : r₁.jobs n = some (.arrived q) := Function.update_self ..
  obtain ⟨hst, hrec⟩ := hi₁.stateOf_eq hq hout hk
  -- the copy is classified as `NEW`
  have hdispatch : r₁.dispatch n q =
      { (r₁.checked q).setJob n (some (.running q)) with admitted := r₁.admitted ++ [q.key] } := by
    have hold : ¬ (q.srvNonce ≠ 0 ∧ q.srvNonce ≠ r₁.server.nonce) := by
      rw [hi₁.server]
      rcases hi₁.sent q hq with h | h <;> simp [h]
    unfold dispatch
    rw [if_neg hold, if_neg (hi₁.exact.sound.delivered.nonce q hq), hst]
  have hcheck : r₁.step (.check n) = some (r₁.dispatch n q) := by
    rw [step, hj]
  have hsafe : r₁.Safe (.check n) := by
    refine ⟨trivial, ?_, ?_⟩
    · intro q' hq'
      rw [classifies, hj] at hq'
      obtain rfl := Option.some.inj hq'
      exact hrec
    · intro q' _ _ e _ _ j q'' b hsending
      rcases jobs_setJob hsending with ⟨-, hjob⟩ | ⟨-, hjob⟩
      · cases hjob
      · have hnone := hsends j
        rw [sends, hjob] at hnone
        cases hnone
  refine Answerable.of_other hdeliver (by simp) trivial rfl rfl ?_
  refine Answerable.of_trace (.single ⟨hsafe, .other hcheck (by simp)⟩) ?_ ?_
  · intro l hl
    rw [List.mem_singleton.1 hl]
    rfl
  · rw [hdispatch]
    refine answerable_of_running ?_ hlive hout (Function.update_self ..)
    exact (r₁.classified q).nonce.trans hi₁.server

/-- What the jobs leave alone that are about to send. -/
structure Drained (n : ℕ) (r r' : RpcSystem) : Prop where
  clients : r'.clients = r.clients
  server : r'.server = r.server
  requests : r'.requests = r.requests
  admitted : r'.admitted = r.admitted
  idle : ∀ j, r.jobs j = none → r'.jobs j = none
  sends : ∀ j < n, r'.sends j = none

/-- **The jobs that are about to send can do so.** -/
theorem drain (r : RpcSystem) (x : σ) (k : ℕ × ℕ) (n : ℕ) :
    ∃ t r', Trace (SafeStep nonce serves) ⟨r, x⟩ t ⟨r', x⟩ ∧ (∀ l ∈ t, l.completes k = true) ∧
      Drained n r r' := by
  induction n with
  | zero => exact ⟨[], r, .nil, by simp, rfl, rfl, rfl, rfl, fun _ h => h, by simp⟩
  | succ n ih =>
    obtain ⟨t, r₁, ht, hcompletes, hd⟩ := ih
    cases hs : r₁.sends n with
    | none =>
      refine ⟨t, r₁, ht, hcompletes, hd.clients, hd.server, hd.requests, hd.admitted, hd.idle, ?_⟩
      intro j hj
      rcases Nat.lt_succ_iff_lt_or_eq.1 hj with hj | rfl
      · exact hd.sends j hj
      · exact hs
    | some i =>
      obtain ⟨q, b, hj⟩ : ∃ q b, r₁.jobs n = some (.sending q b) := by
        unfold RpcSystem.sends at hs
        split at hs
        · next q b hj => exact ⟨q, b, hj⟩
        · cases hs
      have hsend : r₁.step (.send n b.reply) = some (r₁.reply n q b.reply) := by rw [step, hj]
      have hnext : SafeStep nonce serves ⟨r₁, x⟩ (.send n b.reply) ⟨r₁.reply n q b.reply, x⟩ :=
        ⟨safe_of_unclassified trivial rfl, .other hsend (by simp)⟩
      refine ⟨t ++ [.send n b.reply], r₁.reply n q b.reply, ht.snoc hnext, ?_, hd.clients, hd.server,
        hd.requests, hd.admitted, ?_, ?_⟩
      · intro l hl
        rcases List.mem_append.1 hl with hl | hl
        · exact hcompletes l hl
        · rw [List.mem_singleton.1 hl]
          rfl
      · intro j hj'
        by_cases hjn : j = n
        · subst hjn
          exact Function.update_self ..
        · exact (Function.update_of_ne hjn ..).trans (hd.idle j hj')
      · intro j hj'
        unfold RpcSystem.sends
        by_cases hjn : j = n
        · subst hjn
          rw [show (r₁.reply j q b.reply).jobs j = none from Function.update_self ..]
        · rw [show (r₁.reply n q b.reply).jobs j = r₁.jobs j from Function.update_of_ne hjn ..]
          exact hd.sends j (by omega)

end Way

/-! ## Runs -/

theorem live_of_trace (hn : nonce < 2 ^ 32) {x : σ} {t : List RpcLabel} {s : Remote σ}
    (h : Trace (SafeStep nonce serves) (init nonce x) t s) :
    Live nonce s.rpc ∧ ∃ n, s.rpc.IdleFrom n := by
  refine Trace.invariant (I := fun s : Remote σ => Live nonce s.rpc ∧ ∃ n, s.rpc.IdleFrom n)
    ⟨live_init nonce, 0, idleFrom_init nonce 0⟩ ?_ h
  rintro s l s' ⟨hi, n, hidle⟩ hs
  refine ⟨live_step hn hi hs.1 hs.2.rpc, ?_⟩
  have hm := move_of_step hs.2.rpc
  by_cases hl : ∃ j q, l = .deliver j q
  · obtain ⟨j, q, rfl⟩ := hl
    refine ⟨max n (j + 1), idleFrom_of_move hm (fun i hi => hidle i (by omega)) ?_⟩
    intro j' q' heq
    obtain ⟨rfl, -⟩ := RpcLabel.deliver.inj heq
    omega
  · exact ⟨n, idleFrom_of_move hm hidle (fun j q heq => absurd ⟨j, q, heq⟩ hl)⟩

end Remote
