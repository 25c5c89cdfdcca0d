/-
# At-most-once execution (`rpc/rpc.cc`)

The server runs the handler of a call at most once as long as `checkduplicate_and_update` recognises
every request it has seen before.  It fails to do so in two ways.

* The scan erases while it runs and steps over the entry after an erased one.  A request is not
  recognised when its own entry is stepped over: when an odd number of entries stand right before it
  that the request acknowledges.
* A request below the recorded maximum is `FORGOTTEN`, but the entries up to the maximum have been
  pruned.  A copy of the request with the maximum itself is `NEW` again.

`Recognised` excludes both.  In every run in which the requests that are classified meet it, the server
admits every pair of client and xid at most once and runs its handler at most once.
-/
import Yfs.RpcSystem

/-! ## What the server remembers -/

namespace Rpcs

/-- The scan does not step over the entry of `q`, and if `q` is the recorded maximum its entry has not
been pruned. -/
def Recognised (s : Rpcs) (q : Request) : Prop :=
  (s.maximaXidRep q.cltNonce = some q.xid → q.xid ∈ (s.window q.cltNonce).map ReplyEntry.xid) ∧
  (q.xid ∈ (s.window q.cltNonce).map ReplyEntry.xid →
    (s.maximaXidRep q.cltNonce).getD q.xidRep ≤ q.xid →
    Even (trailing (fun e => decide (e.xid ≤ q.xidRep))
      ((s.window q.cltNonce).takeWhile (fun e => decide (e.xid ≠ q.xid)))))

instance (s : Rpcs) (q : Request) : Decidable (s.Recognised q) :=
  inferInstanceAs (Decidable (_ ∧ _))

/-- The server has an entry for the call `x` of the client `c`, or knows that it is acknowledged. -/
def Remembers (s : Rpcs) (c x : ℕ) : Prop :=
  x ∈ (s.window c).map ReplyEntry.xid ∨ ∃ m, s.maximaXidRep c = some m ∧ x ≤ m

section Classified

variable {s s' : Rpcs} {q : Request} {st : RpcState} {freed : List ℕ}

/-- An entry is pruned only when the maximum covers it. -/
theorem Remembers.classified {c x : ℕ} (h : s.Remembers c x)
    (hc : Classified s q.cltNonce q.xid q.xidRep st freed s') : s'.Remembers c x := by
  by_cases hne : c = q.cltNonce
  · subst hne
    obtain ⟨m', hm', -, hmono, hrep⟩ := hc.maximum
    rcases h with h | ⟨m, hm, hx⟩
    · obtain ⟨e, he, rfl⟩ := List.mem_map.1 h
      by_cases hin : e ∈ s'.window q.cltNonce
      · exact .inl (List.mem_map_of_mem hin)
      · obtain ⟨hle, hst⟩ := hc.lost e he hin
        exact .inr ⟨m', hm', hle.trans (hrep hst)⟩
    · exact .inr ⟨m', hm', hx.trans (hmono m hm)⟩
  · obtain ⟨hwin, hmax⟩ := hc.frame c hne
    unfold Remembers
    rw [hwin, hmax]
    exact h

theorem remembers_of_new (hc : Classified s q.cltNonce q.xid q.xidRep .NEW freed s') :
    s'.Remembers q.cltNonce q.xid :=
  .inl (List.mem_map.2 ⟨_, (hc.new rfl).1, rfl⟩)

/-- **A remembered request is not `NEW`.** -/
theorem Recognised.not_remembers (h : s.Recognised q)
    (hc : Classified s q.cltNonce q.xid q.xidRep .NEW freed s') :
    ¬ s.Remembers q.cltNonce q.xid := by
  have hnot : ¬ q.xid < (s.maximaXidRep q.cltNonce).getD q.xidRep := by
    intro hlt
    cases hc.forgotten.2 hlt
  -- an entry in the window would have stopped the scan
  have hwin : q.xid ∉ (s.window q.cltNonce).map ReplyEntry.xid := by
    intro hmem
    obtain ⟨e, he⟩ := scan_stop_of_even q.xid q.xidRep (s.window q.cltNonce).length _ hmem
      (h.2 hmem (by omega))
    exact (hc.new rfl).2 e he
  rintro (hmem | ⟨m, hm, hx⟩)
  · exact hwin hmem
  · rw [hm, Option.getD_some] at hnot
    obtain rfl : q.xid = m := by omega
    exact hwin (h.1 hm)

end Classified

theorem Remembers.addReply {s : Rpcs} {c x : ℕ} (h : s.Remembers c x) (c' x' : ℕ) (b : Buf) :
    (s.addReply c' x' b).Remembers c x := by
  refine h.imp_left (fun hmem => ?_)
  rwa [map_xid_window_addReply]

end Rpcs

namespace RpcSystem

/-! ## The invariant -/

/-- Every request is admitted at most once, and its handler runs at most once after that. -/
structure RunOnce (s : RpcSystem) : Prop where
  admitted : s.admitted.Nodup
  execs : (s.execs.map (fun e => e.request.key)).Nodup
  ran : ∀ e ∈ s.execs, e.request.key ∈ s.admitted
  running : ∀ k q, s.jobs k = some (.running q) →
    q.key ∈ s.admitted ∧ ∀ e ∈ s.execs, e.request.key ≠ q.key
  apart : ∀ k k' q q', s.jobs k = some (.running q) → s.jobs k' = some (.running q') →
    q.key = q'.key → k = k'
  remembered : ∀ p ∈ s.admitted, s.server.Remembers p.1 p.2

theorem runOnce_init (nonce : ℕ) : RunOnce (init nonce) := by
  refine ⟨?_, ?_, ?_, ?_, ?_, ?_⟩ <;> simp [init]

/-- Steps that admit and run nothing. -/
theorem RunOnce.frame {s s' : RpcSystem} (h : RunOnce s) (hadm : s'.admitted = s.admitted)
    (hexecs : s'.execs = s.execs)
    (hrun : ∀ k q, s'.jobs k = some (.running q) → s.jobs k = some (.running q))
    (hrem : ∀ c x, s.server.Remembers c x → s'.server.Remembers c x) : RunOnce s' := by
  constructor
  · rw [hadm]
    exact h.admitted
  · rw [hexecs]
    exact h.execs
  · rw [hexecs, hadm]
    exact h.ran
  · intro k q hk
    rw [hexecs, hadm]
    exact h.running k q (hrun k q hk)
  · intro k k' q q' hk hk'
    exact h.apart k k' q q' (hrun k q hk) (hrun k' q' hk')
  · rw [hadm]
    exact fun p hp => hrem _ _ (h.remembered p hp)

theorem running_of_setJob {s : RpcSystem} {j k : ℕ} {o : Option Job} {q : Request}
    (ho : ∀ q', o ≠ some (.running q')) (h : (s.setJob j o).jobs k = some (.running q)) :
    s.jobs k = some (.running q) := by
  rcases jobs_setJob h with ⟨-, hjob⟩ | ⟨-, hk⟩
  · exact absurd hjob (ho q)
  · exact hk

theorem running_of_checked {s : RpcSystem} {q q' : Request} {k : ℕ}
    (h : (s.checked q).jobs k = some (.running q')) : s.jobs k = some (.running q') := by
  obtain ⟨job, hk, hjob⟩ := jobs_checked h
  obtain heq | ⟨q₁, b, rfl, -, heq⟩ := afterFree_cases (s.freedBy q) job
  · rw [heq] at hjob
    rw [hk, hjob]
  · rw [heq] at hjob
    cases hjob

/-- The classification of a request, when it is not `NEW`. -/
theorem RunOnce.checked {s s' : RpcSystem} {q : Request} {j : ℕ} {o : Option Job} (h : RunOnce s)
    (ho : ∀ q', o ≠ some (.running q')) (hadm : s'.admitted = s.admitted)
    (hexecs : s'.execs = s.execs) (hserver : s'.server = (s.checked q).server)
    (hjobs : s'.jobs = ((s.checked q).setJob j o).jobs) : RunOnce s' := by
  refine h.frame hadm hexecs ?_ ?_
  · intro k q' hk
    rw [hjobs] at hk
    exact running_of_checked (running_of_setJob ho hk)
  · intro c x hx
    rw [hserver]
    exact hx.classified (s.classified q)

/-- A `NEW` request has not been admitted before. -/
theorem RunOnce.new {s : RpcSystem} {j : ℕ} {q : Request} (h : RunOnce s)
    (hst : s.stateOf q = .NEW) (hrec : s.server.Recognised q) :
    RunOnce
      { (s.checked q).setJob j (some (.running q)) with admitted := s.admitted ++ [q.key] } := by
  have hc := s.classified q
  rw [hst] at hc
  have hfresh : q.key ∉ s.admitted := fun hmem =>
    hrec.not_remembers hc (h.remembered q.key hmem)
  have hrun : ∀ k q', ((s.checked q).setJob j (some (.running q))).jobs k = some (.running q') →
      (k = j ∧ q' = q) ∨ s.jobs k = some (.running q') := by
    intro k q' hk
    rcases jobs_setJob hk with ⟨rfl, hjob⟩ | ⟨-, hk⟩
    · left
      exact ⟨rfl, by simpa using hjob.symm⟩
    · exact .inr (running_of_checked hk)
  constructor
  · exact List.nodup_append.2 ⟨h.admitted, by simp, by rintro p hp p' hp' rfl; simp_all⟩
  · exact h.execs
  · exact fun e he => List.mem_append_left _ (h.ran e he)
  · -- what has run had been admitted, the new request had not
    intro k q' hk
    rcases hrun k q' hk with ⟨-, rfl⟩ | hk
    · exact ⟨by simp, fun e he heq => hfresh (heq ▸ h.ran e he)⟩
    · obtain ⟨hadm, hnot⟩ := h.running k q' hk
      exact ⟨List.mem_append_left _ hadm, hnot⟩
  · intro k k' q₁ q₂ hk hk' heq
    rcases hrun k q₁ hk with ⟨rfl, rfl⟩ | h₁
    · rcases hrun k' q₂ hk' with ⟨rfl, -⟩ | h₂
      · rfl
      · exact absurd (heq ▸ (h.running k' q₂ h₂).1) hfresh
    · rcases hrun k' q₂ hk' with ⟨-, rfl⟩ | h₂
      · exact absurd (heq ▸ (h.running k q₁ h₁).1) hfresh
      · exact h.apart k k' q₁ q₂ h₁ h₂ heq
  · intro p hp
    rcases List.mem_append.1 hp with hp | hp
    · exact (h.remembered p hp).classified hc
    · rw [List.mem_singleton.1 hp]
      exact Rpcs.remembers_of_new hc

/-- The handler runs: the job was the only one with its call. -/
theorem RunOnce.exec {s : RpcSystem} {j : ℕ} {q : Request} {ret : ℤ} {body : List UInt8}
    (h : RunOnce s) (hj : s.jobs j = some (.running q)) :
    RunOnce { s.setJob j (some (.replied q ⟨s.nextBuf, ⟨q.xid, ret, body⟩⟩)) with
      nextBuf := s.nextBuf + 1
      execs := s.execs ++ [⟨q, ret, body⟩] } := by
  obtain ⟨hadm, hnot⟩ := h.running j q hj
  have hrun : ∀ k q', (s.setJob j (some (.replied q ⟨s.nextBuf, ⟨q.xid, ret, body⟩⟩))).jobs k =
      some (.running q') → k ≠ j ∧ s.jobs k = some (.running q') := by
    intro k q' hk
    rcases jobs_setJob hk with ⟨-, hjob⟩ | hk
    · cases hjob
    · exact hk
  constructor
  · exact h.admitted
  · show ((s.execs ++ [Exec.mk q ret body]).map (fun e => e.request.key)).Nodup
    rw [List.map_append]
    refine List.nodup_append.2 ⟨h.execs, by simp, ?_⟩
    intro p hp p' hp'
    obtain ⟨e, he, rfl⟩ := List.mem_map.1 hp
    obtain rfl : p' = q.key := by simpa using hp'
    exact hnot e he
  · intro e he
    rcases List.mem_append.1 he with he | he
    · exact h.ran e he
    · rw [List.mem_singleton.1 he]
      exact hadm
  · intro k q' hk
    obtain ⟨hne, hk⟩ := hrun k q' hk
    refine ⟨(h.running k q' hk).1, ?_⟩
    intro e he heq
    rcases List.mem_append.1 he with he | he
    · exact (h.running k q' hk).2 e he heq
    · -- no other job runs the same call
      rw [List.mem_singleton.1 he] at heq
      exact hne (h.apart k j q' q hk hj heq.symm)
  · intro k k' q₁ q₂ hk hk' heq
    exact h.apart k k' q₁ q₂ (hrun k q₁ hk).2 (hrun k' q₂ hk').2 heq
  · exact h.remembered

/-! ## Runs -/

/-- The requests that are classified are recognised. -/
def ScanSafe (s : RpcSystem) (l : RpcLabel) : Prop :=
  ∀ q ∈ s.classifies l, s.server.Recognised q

instance (s : RpcSystem) (l : RpcLabel) : Decidable (s.ScanSafe l) :=
  inferInstanceAs (Decidable (∀ q ∈ s.classifies l, s.server.Recognised q))

theorem runOnce_step {s s' : RpcSystem} {l : RpcLabel} (hd : Delivered s) (h : RunOnce s)
    (hsafe : ScanSafe s l) (hm : Move s l s') : RunOnce s' := by
  cases hm with
  | refused => exact h
  | call | gotPdu | finish | bound | cancel =>
    exact h.frame rfl rfl (fun k q hk => hk) (fun c x hx => hx)
  | deliver hq =>
    exact h.frame rfl rfl (fun k q hk => running_of_setJob (by simp) hk) (fun c x hx => hx)
  | oldsrv hj =>
    exact h.frame rfl rfl (fun k q hk => running_of_setJob (by simp) hk) (fun c x hx => hx)
  | unchecked hj hq => exact absurd hq (hd.nonce _ (hd.job _ _ hj))
  | new hj hst => exact h.new hst (hsafe _ (classifies_check hj))
  | inProgress hj hst => exact h.checked (by simp) rfl rfl rfl rfl
  | done hj hst => exact h.checked (by simp) rfl rfl rfl rfl
  | forgotten hj hst => exact h.checked (o := none) (by simp) rfl rfl rfl rfl
  | exec hj hret => exact h.exec hj
  | addReply hj =>
    refine h.frame rfl rfl (fun k q hk => running_of_setJob (by simp) hk) ?_
    intro c x hx
    dsimp only
    split_ifs
    · exact hx.addReply _ _ _
    · exact hx
  | send hj =>
    exact h.frame rfl rfl (fun k q hk => running_of_setJob (by simp) hk) (fun c x hx => hx)
  | sendFreed hj =>
    exact h.frame rfl rfl (fun k q hk => running_of_setJob (by simp) hk) (fun c x hx => hx)

/-- No request is classified as `NEW` twice, and no handler runs twice on a call. -/
def AtMostOnce (s : RpcSystem) : Prop :=
  s.admitted.Nodup ∧ (s.execs.map (fun e => e.request.key)).Nodup

instance (s : RpcSystem) : Decidable s.AtMostOnce := inferInstanceAs (Decidable (_ ∧ _))

/-- **At-most-once execution**, in every run in which the classified requests are recognised. -/
theorem atMostOnce_of_scanSafe {nonce : ℕ} {t : List RpcLabel} {s : RpcSystem}
    (h : Trace (Guarded (fun s l => Bounded s l ∧ ScanSafe s l) Step) (init nonce) t s) :
    AtMostOnce s := by
  have hinv : Delivered s ∧ RunOnce s := by
    refine Trace.invariant (I := fun s => Delivered s ∧ RunOnce s)
      ⟨delivered_init nonce, runOnce_init nonce⟩ ?_ h
    rintro s l s' ⟨hd, hr⟩ ⟨⟨hb, hsafe⟩, hs⟩
    have hm := move_of_step hs
    exact ⟨delivered_step hd hb hm, runOnce_step hd hr hsafe hm⟩
  exact ⟨hinv.2.admitted, hinv.2.execs⟩

/-- A client whose second call reaches the server twice. -/
theorem atMostOnce_duplicate : ∃ t s,
    Trace (Guarded (fun s l => Bounded s l ∧ ScanSafe s l) Step) (init 5) t s ∧
      s.execs.length = 2 ∧ AtMostOnce s := by
  have hrun : ((init 5).run (fun s l => Bounded s l ∧ ScanSafe s l)
      (List.flatten
        [binding 7 5, [.call 7 9 []], served ⟨2, 9, 7, 5, 1, []⟩ 0 [],
          [.deliver 1 ⟨2, 9, 7, 5, 1, []⟩, .check 1]])).any
      (fun s => s.execs.length == 2) = true := by
    decide
  obtain ⟨s, ht, hs⟩ := exists_trace hrun
  exact ⟨_, s, ht, by simpa using hs, atMostOnce_of_scanSafe ht⟩

/-- After two concurrent calls the window is `[2, 3]`.  The first copy of call 4 erases 2 and steps
over 3; the second copy erases 3 and steps over 4. -/
theorem admitted_twice :
    ¬ ∀ nonce t s, Trace (Guarded Bounded Step) (init nonce) t s → AtMostOnce s := by
  have hrun : ((init 5).run Bounded
      (List.flatten
        [binding 7 5, [.call 7 9 [], .call 7 9 []], served ⟨2, 9, 7, 5, 1, []⟩ 0 [],
          served ⟨3, 9, 7, 5, 1, []⟩ 0 [],
          [.call 7 9 [], .deliver 0 ⟨4, 9, 7, 5, 3, []⟩, .deliver 1 ⟨4, 9, 7, 5, 3, []⟩, .check 0,
            .check 1, .exec 0 0 [], .exec 1 0 []]])).any
      (fun s => !decide s.AtMostOnce) = true := by
    decide +kernel
  intro h
  obtain ⟨s, ht, hs⟩ := exists_trace hrun
  have := h 5 _ s ht
  simp [this] at hs

end RpcSystem
