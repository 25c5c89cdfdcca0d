/-
# Replies that are being sent (`rpc/rpc.cc`)

`checkduplicate_and_update` (for a copy of a request) and `add_reply` (for a new one) leave `dispatch`
with a pointer to a reply that belongs to an entry of the reply window.  `dispatch` sends it after it has
released `reply_window_m_`.  A `dangling` job is one whose reply has been freed in between, by the
classification of another request.

* `noneDangling_of_ackSafe`: this does not happen in a run in which no request acknowledges a call while
  a dispatch of that call is about to send the stored reply.
* `freed_while_sent`: it does happen without this condition.  The client has the reply to a call from
  the first copy of its request and acknowledges it in its next call, which overtakes the answer to the
  second copy.

A buffer carries no name of the call it answers.  The proof gives every buffer an owner, the client and
the xid of the request on which the handler has run; a buffer in the window belongs to the entry with the
owner's xid.
-/
import Yfs.RpcReplies

/-- The reply that a job has in its hands, before `add_reply` or before `send`. -/
def Job.held : Job → Option Buf
  | replied _ b | sending _ b => some b
  | arrived _ | running _ | dangling _ => none

theorem Job.held_afterFree {freed : List ℕ} {job : Job} {b : Buf}
    (h : b ∈ (job.afterFree freed).held) : b ∈ job.held := by
  obtain heq | ⟨q, b', -, -, heq⟩ := RpcSystem.afterFree_cases freed job
  · rwa [heq] at h
  · rw [heq] at h
    cases h

namespace RpcSystem

/-- No job is about to send a reply that has been freed. -/
def NoneDangling (s : RpcSystem) : Prop := ∀ k q, s.jobs k ≠ some (.dangling q)

/-- When a request that is not below the recorded maximum is classified, it acknowledges no call of its
client that another dispatch is about to answer from the window. -/
def AckSafe (s : RpcSystem) (l : RpcLabel) : Prop :=
  ∀ q ∈ s.classifies l, (s.server.maximaXidRep q.cltNonce).getD q.xidRep ≤ q.xid →
    ∀ k q' b, s.jobs k = some (.sending q' b) → q'.cltNonce = q.cltNonce → q'.xid ≤ q.xidRep →
      ∀ e ∈ s.server.window q.cltNonce, e.xid = q'.xid → e.buf = none

/-! ## The owner of a buffer -/

/-- Every buffer that a job holds or an entry stores belongs to the call it answers. -/
structure Owned (s : RpcSystem) (owner : ℕ → ℕ × ℕ) : Prop where
  job : ∀ k job, s.jobs k = some job → ∀ b ∈ job.held,
    b.id < s.nextBuf ∧ owner b.id = job.request.key
  entry : ∀ c, ∀ e ∈ s.server.window c, ∀ b, e.buf = some b →
    b.id < s.nextBuf ∧ owner b.id = (c, e.xid)

theorem owned_init (nonce : ℕ) (owner : ℕ → ℕ × ℕ) : Owned (init nonce) owner := by
  refine ⟨by simp [init], ?_⟩
  intro c e he
  cases (show e ∈ ([] : List ReplyEntry) from he)

variable {s : RpcSystem} {owner : ℕ → ℕ × ℕ}

theorem Owned.setJob (h : Owned s owner) (j : ℕ) {o : Option Job}
    (ho : ∀ job, o = some job → ∀ b ∈ job.held,
      b.id < s.nextBuf ∧ owner b.id = job.request.key) : Owned (s.setJob j o) owner := by
  refine ⟨?_, h.entry⟩
  intro k job hk
  rcases jobs_setJob hk with ⟨-, hjob⟩ | ⟨-, hk⟩
  · exact ho job hjob
  · exact h.job k job hk

theorem Owned.reply (h : Owned s owner) (j : ℕ) (q : Request) (r : RpcReply) :
    Owned (s.reply j q r) owner := by
  have hj := h.setJob j (o := none) (by simp)
  exact ⟨hj.job, hj.entry⟩

/-- A classification adds no buffer, to no entry and to no job but its own. -/
theorem Owned.checked (h : Owned s owner) (q : Request) : Owned (s.checked q) owner := by
  have hc := s.classified q
  constructor
  · intro k job hk b hb
    obtain ⟨job₀, hk₀, rfl⟩ := jobs_checked hk
    rw [request_afterFree]
    exact h.job k job₀ hk₀ b (Job.held_afterFree hb)
  · intro c e he b hb
    exact h.entry c e (hc.stored he hb) b hb

/-- The handler allocates a buffer, whose owner is the request it has run on. -/
theorem Owned.exec (h : Owned s owner) (j : ℕ) (q : Request) (ret : ℤ) (body : List UInt8) :
    Owned { s.setJob j (some (.replied q ⟨s.nextBuf, ⟨q.xid, ret, body⟩⟩)) with
      nextBuf := s.nextBuf + 1
      execs := s.execs ++ [⟨q, ret, body⟩] } (Function.update owner s.nextBuf q.key) := by
  -- the buffers that are already there have smaller names
  have hold : ∀ {i : ℕ} {key : ℕ × ℕ}, i < s.nextBuf ∧ owner i = key →
      i < s.nextBuf + 1 ∧ Function.update owner s.nextBuf q.key i = key := by
    rintro i key ⟨hlt, hown⟩
    refine ⟨by omega, ?_⟩
    rw [Function.update_of_ne (by omega), hown]
  constructor
  · intro k job hk b hb
    rcases jobs_setJob hk with ⟨-, hjob⟩ | ⟨-, hk⟩
    · obtain rfl := Option.some.inj hjob
      obtain rfl : ⟨s.nextBuf, ⟨q.xid, ret, body⟩⟩ = b := by simpa [Job.held] using hb
      exact ⟨Nat.lt_succ_self _, Function.update_self ..⟩
    · exact hold (h.job k job hk b hb)
  · exact fun c e he b hb => hold (h.entry c e he b hb)

/-- `add_reply` stores the buffer in the entry of its owner. -/
theorem Owned.addReply {j : ℕ} {q : Request} {b : Buf} (h : Owned s owner)
    (hj : s.jobs j = some (.replied q b)) :
    Owned { s with server := s.server.addReply q.cltNonce q.xid b } owner := by
  refine ⟨h.job, ?_⟩
  intro c e he b' hb'
  rcases Rpcs.stored_addReply he hb' with he | ⟨rfl, hx, rfl⟩
  · exact h.entry c e he b' hb'
  · rw [hx]
    exact h.job j _ hj b' rfl

theorem owned_step {s' : RpcSystem} {l : RpcLabel} (h : Owned s owner) (hm : Move s l s') :
    ∃ owner', Owned s' owner' := by
  cases hm with
  | refused => exact ⟨owner, h⟩
  | call | gotPdu | finish | bound | cancel => exact ⟨owner, h.job, h.entry⟩
  | deliver hq => exact ⟨owner, h.setJob _ (by simp [Job.held])⟩
  | oldsrv hj => exact ⟨owner, h.reply _ _ _⟩
  | unchecked hj => exact ⟨owner, h.setJob _ (by simp [Job.held])⟩
  | @new j q hj hst =>
    have hset := (h.checked q).setJob j (o := some (.running q)) (by simp [Job.held])
    exact ⟨owner, hset.job, hset.entry⟩
  | inProgress hj hst => exact ⟨owner, (h.checked _).setJob _ (by simp)⟩
  | @done j q b hj hst =>
    refine ⟨owner, (h.checked q).setJob _ ?_⟩
    intro job hjob b' hb'
    obtain rfl := Option.some.inj hjob
    obtain rfl : b = b' := Option.some.inj hb'
    -- the stored reply belongs to the entry with the xid of `q`
    obtain ⟨e, he, hx, heb⟩ := (s.classified q).done b hst
    have hown := h.entry _ e he b heb
    rwa [hx] at hown
  | forgotten hj hst => exact ⟨owner, (h.checked _).reply _ _ _⟩
  | @exec j q ret body hj hret => exact ⟨_, h.exec j q ret body⟩
  | @addReply j q b hj =>
    have hjob : ∀ job, some (Job.sending q b) = some job → ∀ b' ∈ job.held,
        b'.id < s.nextBuf ∧ owner b'.id = job.request.key := by
      intro job hjob b' hb'
      obtain rfl := Option.some.inj hjob
      exact h.job j _ hj b' hb'
    split_ifs with hq
    · exact ⟨owner, (h.addReply hj).setJob j hjob⟩
    · exact ⟨owner, h.setJob j hjob⟩
  | send hj => exact ⟨owner, h.reply _ _ _⟩
  | sendFreed hj => exact ⟨owner, h.reply _ _ _⟩

/-! ## Runs -/

/-- A buffer is freed together with the entry of its owner, which the request acknowledges. -/
theorem AckSafe.not_mem_freedBy {j k : ℕ} {q q' : Request} {b : Buf} (h : s.AckSafe (.check j))
    (hown : Owned s owner) (hj : s.jobs j = some (.arrived q))
    (hk : s.jobs k = some (.sending q' b)) : b.id ∉ s.freedBy q := by
  intro hmem
  obtain ⟨hst, e, he, hle, hid⟩ := (s.classified q).frees b.id hmem
  have hmax := mt (s.classified q).forgotten.2 hst
  obtain ⟨b', hb', hbid⟩ : ∃ b', e.buf = some b' ∧ b'.id = b.id := by
    simpa [Rpcs.freeBuf] using hid
  -- the entry and the job have the same owner
  have hjob := (hown.job k _ hk b rfl).2
  have hentry := (hown.entry _ e he b' hb').2
  rw [hbid, hjob] at hentry
  obtain ⟨hc, hx⟩ := Prod.mk.inj hentry
  have hnone := h q (classifies_check hj) (by omega) k q' b hk hc (hx.trans_le hle) e he hx.symm
  rw [hnone] at hb'
  cases hb'

theorem NoneDangling.setJob (h : NoneDangling s) (j : ℕ) {o : Option Job}
    (ho : ∀ q, o ≠ some (.dangling q)) : NoneDangling (s.setJob j o) := by
  intro k q hk
  rcases jobs_setJob hk with ⟨-, hjob⟩ | ⟨-, hk⟩
  · exact ho q hjob
  · exact h k q hk

theorem NoneDangling.checked {j : ℕ} {q : Request} (h : NoneDangling s) (hown : Owned s owner)
    (hsafe : s.AckSafe (.check j)) (hj : s.jobs j = some (.arrived q)) :
    NoneDangling (s.checked q) := by
  intro k q' hk
  obtain ⟨job₀, hk₀, hjob⟩ := jobs_checked hk
  obtain heq | ⟨q'', b, rfl, hfreed, -⟩ := afterFree_cases (s.freedBy q) job₀
  · rw [heq] at hjob
    exact h k q' (hjob ▸ hk₀)
  · exact hsafe.not_mem_freedBy hown hj hk₀ hfreed

theorem noneDangling_step {s' : RpcSystem} {l : RpcLabel} (h : NoneDangling s)
    (hown : Owned s owner) (hsafe : AckSafe s l) (hm : Move s l s') : NoneDangling s' := by
  cases hm with
  | refused | call | gotPdu | finish | bound | cancel => exact h
  | deliver | unchecked | exec | addReply => exact h.setJob _ (by simp)
  | oldsrv | send | sendFreed => exact h.setJob _ (by simp)
  | new hj | inProgress hj | done hj | forgotten hj =>
    exact (h.checked hown hsafe hj).setJob _ (by simp)

/-- **No reply is freed while it is sent**, in every run in which no request acknowledges a call that
another dispatch is about to answer from the window. -/
theorem noneDangling_of_ackSafe {nonce : ℕ} {t : List RpcLabel} {s : RpcSystem}
    (h : Trace (Guarded AckSafe Step) (init nonce) t s) : NoneDangling s := by
  have hinv : NoneDangling s ∧ ∃ owner, Owned s owner := by
    refine Trace.invariant (I := fun s => NoneDangling s ∧ ∃ owner, Owned s owner) ?_ ?_ h
    · exact ⟨by simp [NoneDangling, init], fun _ => (0, 0), owned_init nonce _⟩
    · rintro s l s' ⟨hs, owner, hown⟩ ⟨hsafe, hstep⟩
      have hm := move_of_step hstep
      exact ⟨noneDangling_step hs hown hsafe hm, owned_step hown hm⟩
  exact hinv.1

theorem trace_ackSafe {s₀ s : RpcSystem} {t : List RpcLabel}
    (h : Trace (Guarded NothingFreed Step) s₀ t s) : Trace (Guarded AckSafe Step) s₀ t s := by
  refine h.mono ?_
  rintro s l s' ⟨hfree, hstep⟩
  refine ⟨?_, hstep⟩
  intro q hq _ k q' b _ _ hle e he hx
  exact absurd (hx.trans_le hle) (hfree q hq e he)

/-- A copy of a request is answered from the window while the client, which has had its answer, makes
another call. -/
theorem noneDangling_copy : ∃ t s,
    Trace (Guarded AckSafe Step) (init 5) t s ∧
      s.jobs 1 = some (.sending ⟨1, Rpcc.bindProc, 7, 0, 0, []⟩ ⟨0, ⟨1, 0, packInt 5⟩⟩) ∧
      ⟨2, 9, 7, 5, 1, []⟩ ∈ s.requests ∧ NoneDangling s := by
  have hrun : ((init 5).run NothingFreed
      (List.flatten
        [binding 7 5, [.deliver 1 ⟨1, Rpcc.bindProc, 7, 0, 0, []⟩, .check 1, .call 7 9 []]])).any
      (fun s => decide
        (s.jobs 1 = some (.sending ⟨1, Rpcc.bindProc, 7, 0, 0, []⟩ ⟨0, ⟨1, 0, packInt 5⟩⟩) ∧
          ⟨2, 9, 7, 5, 1, []⟩ ∈ s.requests)) = true := by
    decide
  obtain ⟨s, ht, hs⟩ := exists_trace hrun
  obtain ⟨hjob, hq⟩ := of_decide_eq_true hs
  exact ⟨_, s, trace_ackSafe ht, hjob, hq, noneDangling_of_ackSafe (trace_ackSafe ht)⟩

/-- Call 2 of the client 7 acknowledges call 1 while a copy of the request of call 1 is answered. -/
theorem freed_while_sent :
    ¬ ∀ nonce t s, Trace (Guarded Bounded Step) (init nonce) t s → NoneDangling s := by
  have hrun : ((init 5).run Bounded
      (List.flatten
        [binding 7 5,
          [.deliver 1 ⟨1, Rpcc.bindProc, 7, 0, 0, []⟩, .check 1, .call 7 9 [],
            .deliver 2 ⟨2, 9, 7, 5, 1, []⟩, .check 2]])).any
      (fun s => decide (s.jobs 1 = some (.dangling ⟨1, Rpcc.bindProc, 7, 0, 0, []⟩))) = true := by
    decide
  intro h
  obtain ⟨s, ht, hs⟩ := exists_trace hrun
  exact h 5 _ s ht 1 _ (of_decide_eq_true hs)

end RpcSystem
