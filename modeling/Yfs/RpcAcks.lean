/-
# What clients acknowledge (`rpc/rpc.h`, `rpc/rpc.cc`)

The server relies on the `xid_rep` of a request: it forgets the replies of all calls up to it.  The
invariants of this module say that a client never acknowledges a call that still waits for its reply,
in any order of replies, timeouts and cancellations, as long as every reply it receives has the xid of
a call it has made.

* `Numbered`: the requests of a client have the xids `1`, `2`, .., and the next one is fresh.
* `Acknowledged`: every xid up to a packed `xid_rep` belongs to a call that has passed, that is, one
  that has been issued and does not wait any more.
-/
import Yfs.RpcSystem

namespace RpcSystem

/-- The client `c` has built a request with the xid `x`. -/
def Issued (s : RpcSystem) (c x : ℕ) : Prop := ∃ q ∈ s.requests, q.key = (c, x)

/-- The call `x` of the client `c` is in `calls_` and not done. -/
def Outstanding (s : RpcSystem) (c x : ℕ) : Prop := (s.clients c).Outstanding x

/-- The call has been made and does not wait any more. -/
def Passed (s : RpcSystem) (c x : ℕ) : Prop := s.Issued c x ∧ ¬ s.Outstanding c x

theorem issued_of_mem {s : RpcSystem} {q : Request} (h : q ∈ s.requests) :
    s.Issued q.cltNonce q.xid :=
  ⟨q, h, rfl⟩

theorem clients_setClient_self (s : RpcSystem) (c : ℕ) (cl : Rpcc) :
    (s.setClient c cl).clients c = cl :=
  Function.update_self ..

theorem clients_setClient_of_ne (s : RpcSystem) {c c' : ℕ} (cl : Rpcc) (h : c' ≠ c) :
    (s.setClient c cl).clients c' = s.clients c' :=
  Function.update_of_ne h ..

/-- To check a property of all clients after one has changed. -/
theorem forall_setClient {s : RpcSystem} {c : ℕ} {cl : Rpcc} {P : ℕ → Rpcc → Prop}
    (h : P c cl) (hs : ∀ c', c' ≠ c → P c' (s.clients c')) (c' : ℕ) :
    P c' ((s.setClient c cl).clients c') := by
  by_cases hc : c' = c
  · subst hc
    rwa [clients_setClient_self]
  · rw [clients_setClient_of_ne s cl hc]
    exact hs c' hc

/-! ## Numbering -/

/-- The requests of a client are numbered from 1 on, without gaps or repetitions. -/
structure Numbered (s : RpcSystem) : Prop where
  range : ∀ q ∈ s.requests, 1 ≤ q.xid ∧ q.xid ≤ s.count q.cltNonce
  next : ∀ c, (s.clients c).xid = (s.count c + 1) % 2 ^ 32
  unique : ∀ q ∈ s.requests, ∀ q' ∈ s.requests, q.key = q'.key → q = q'

theorem numbered_init (nonce : ℕ) : Numbered (init nonce) := by
  refine ⟨by simp [init], ?_, by simp [init]⟩
  intro c
  simp [init, count]

theorem Numbered.frame {s s' : RpcSystem} (h : Numbered s) (hreq : s'.requests = s.requests)
    (hxid : ∀ c, (s'.clients c).xid = (s.clients c).xid) : Numbered s' := by
  have hcount : ∀ c, s'.count c = s.count c := fun c => by rw [count, hreq, count]
  constructor
  · intro q hq
    rw [hreq] at hq
    rw [hcount]
    exact h.range q hq
  · intro c
    rw [hxid, hcount]
    exact h.next c
  · rw [hreq]
    exact h.unique

/-- The xid of the next call has not been used. -/
theorem Numbered.fresh {s : RpcSystem} {c proc x : ℕ} {body : List UInt8} (h : Numbered s)
    (hb : Bounded s (.call c proc body)) (hx : s.Issued c x) : x ≠ (s.clients c).xid := by
  obtain ⟨q, hq, hkey⟩ := hx
  obtain ⟨rfl, rfl⟩ := Prod.mk.inj hkey
  have hle := (h.range q hq).2
  have hlt := hb.2
  rw [h.next, Nat.mod_eq_of_lt hlt]
  omega

theorem Numbered.call {s : RpcSystem} {c proc : ℕ} {body : List UInt8} {q : Request} {cl : Rpcc}
    (h : Numbered s) (hb : Bounded s (.call c proc body))
    (hc : (s.clients c).call1 c proc body = .ok (q, cl)) :
    Numbered { s.setClient c cl with requests := s.requests ++ [q] } := by
  obtain ⟨hq, hcl⟩ := Rpcc.call1_ok hc
  have hxid : (s.clients c).xid = s.count c + 1 := by
    rw [h.next, Nat.mod_eq_of_lt hb.2]
  have hqx : q.xid = s.count c + 1 := by rw [hq, ← hxid]
  have hqc : q.cltNonce = c := by rw [hq]
  have hcount : ∀ c', (s.requests ++ [q]).countP (fun q' => q'.cltNonce == c') =
      s.count c' + if c' = c then 1 else 0 := by
    intro c'
    rw [List.countP_append, count]
    by_cases hne : c' = c
    · simp [hne, hqc]
    · simp [hne, hqc, Ne.symm hne]
  constructor
  · intro q' hq'
    show 1 ≤ q'.xid ∧ q'.xid ≤ (s.requests ++ [q]).countP _
    rw [hcount]
    rcases List.mem_append.1 hq' with hq' | hq'
    · have := h.range q' hq'
      omega
    · rw [List.mem_singleton.1 hq', hqc, hqx, if_pos rfl]
      omega
  · intro c'
    show ((s.setClient c cl).clients c').xid = ((s.requests ++ [q]).countP _ + 1) % 2 ^ 32
    rw [hcount]
    refine forall_setClient (P := fun c' cl' =>
      cl'.xid = (s.count c' + (if c' = c then 1 else 0) + 1) % 2 ^ 32) ?_ ?_ c'
    · rw [hcl, if_pos rfl, ← hxid]
    · intro c' hne
      rw [if_neg hne, Nat.add_zero]
      exact h.next c'
  · -- the new request is the only one with its xid
    have hnew : ∀ q' ∈ s.requests, q'.key ≠ q.key := by
      intro q' hq' hkey
      refine h.fresh hb (x := q'.xid) ⟨q', hq', ?_⟩ ?_
      · rw [hkey, Request.key, hqc, (Prod.mk.inj hkey).2]
      · rw [(Prod.mk.inj hkey).2, hqx, hxid]
    intro q₁ h₁ q₂ h₂ hkey
    rcases List.mem_append.1 h₁ with h₁ | h₁
    · rcases List.mem_append.1 h₂ with h₂ | h₂
      · exact h.unique q₁ h₁ q₂ h₂ hkey
      · rw [List.mem_singleton.1 h₂] at hkey
        exact absurd hkey (hnew q₁ h₁)
    · rcases List.mem_append.1 h₂ with h₂ | h₂
      · rw [List.mem_singleton.1 h₁] at hkey
        exact absurd hkey.symm (hnew q₂ h₂)
      · rw [List.mem_singleton.1 h₁, List.mem_singleton.1 h₂]

theorem numbered_step {s s' : RpcSystem} {l : RpcLabel} (h : Numbered s) (hb : Bounded s l)
    (hm : Move s l s') : Numbered s' := by
  cases hm with
  | call hc => exact h.call hb hc
  | gotPdu hr =>
    refine h.frame rfl (forall_setClient (P := fun c cl => cl.xid = (s.clients c).xid) ?_ ?_)
    · exact Rpcc.xid_gotPdu _ _
    · exact fun c' _ => rfl
  | finish | bound | cancel =>
    exact h.frame rfl (forall_setClient (P := fun c cl => cl.xid = (s.clients c).xid) rfl
      (fun c' _ => rfl))
  | _ => exact h.frame rfl (fun c => rfl)

/-! ## Passed calls -/

theorem issued_of_move {s s' : RpcSystem} {l : RpcLabel} {c x : ℕ} (hm : Move s l s')
    (h : s.Issued c x) : s'.Issued c x := by
  obtain ⟨q, hq, hkey⟩ := h
  rcases requests_of_move hm with hreq | ⟨-, -, -, q', -, -, -, hreq⟩
  · exact ⟨q, by rwa [hreq], hkey⟩
  · exact ⟨q, by rw [hreq]; exact List.mem_append_left _ hq, hkey⟩

/-- Only `call1` makes a call wait. -/
theorem outstanding_of_move {s s' : RpcSystem} {l : RpcLabel} {c x : ℕ} (hn : Numbered s)
    (hb : Bounded s l) (hm : Move s l s') (hx : s.Issued c x) (h : s'.Outstanding c x) :
    s.Outstanding c x := by
  -- a step of the client `c₀` that makes no issued call wait
  have hset : ∀ {c₀ : ℕ} {cl : Rpcc}, (c = c₀ → cl.Outstanding x → (s.clients c₀).Outstanding x) →
      ((s.setClient c₀ cl).clients c).Outstanding x → (s.clients c).Outstanding x := by
    intro c₀ cl hcl h
    by_cases hc : c = c₀
    · subst hc
      rw [clients_setClient_self] at h
      exact hcl rfl h
    · rwa [clients_setClient_of_ne s cl hc] at h
  cases hm with
  | call hc =>
    refine hset ?_ h
    rintro rfl ⟨ca, hca, hdone⟩
    rw [(Rpcc.call1_ok hc).2] at hca
    -- the new call has a fresh xid
    rcases Rpcc.calls_set hca with ⟨heq, -⟩ | ⟨-, hca⟩
    · exact absurd heq (hn.fresh hb hx)
    · exact ⟨ca, hca, hdone⟩
  | gotPdu hr => exact hset (fun _ h => (Rpcc.outstanding_gotPdu h).1) h
  | finish hca =>
    refine hset ?_ h
    rintro rfl ⟨ca, hca, hdone⟩
    exact ⟨ca, (Rpcc.calls_finish hca).2, hdone⟩
  | bound =>
    refine hset ?_ h
    exact fun _ ho => ho
  | cancel =>
    refine hset ?_ h
    rintro rfl ⟨ca, hca, hdone⟩
    rw [(Rpcc.calls_cancel hca).2.2] at hdone
    cases hdone
  | _ => exact h

/-- **A call that has passed does not wait again.** -/
theorem passed_of_move {s s' : RpcSystem} {l : RpcLabel} {c x : ℕ} (hn : Numbered s)
    (hb : Bounded s l) (hm : Move s l s') (h : s.Passed c x) : s'.Passed c x :=
  ⟨issued_of_move hm h.1, fun ho => h.2 (outstanding_of_move hn hb hm h.1 ho)⟩

/-! ## Acknowledgements -/

/-- Clients acknowledge only calls that have passed. -/
structure Acknowledged (s : RpcSystem) : Prop where
  calls : ∀ c x ca, (s.clients c).calls x = some ca → s.Issued c x
  window : ∀ c, Rpcc.Acked (s.Passed c) (s.clients c).xidRepWindow
  packed : ∀ q ∈ s.requests, ∀ z, 1 ≤ z → z ≤ q.xidRep → s.Passed q.cltNonce z

theorem acknowledged_init (nonce : ℕ) : Acknowledged (init nonce) :=
  ⟨by simp [init], fun c => Rpcc.acked_init _, by simp [init]⟩

/-- One client has changed, and no request has been made. -/
theorem Acknowledged.setClient {s : RpcSystem} {c : ℕ} {cl : Rpcc} (h : Acknowledged s)
    (hpassed : ∀ c' x, s.Passed c' x → (s.setClient c cl).Passed c' x)
    (hcalls : ∀ x ca, cl.calls x = some ca → s.Issued c x)
    (hwindow : Rpcc.Acked ((s.setClient c cl).Passed c) cl.xidRepWindow) :
    Acknowledged (s.setClient c cl) := by
  constructor
  · exact forall_setClient (P := fun c' cl' => ∀ x ca, cl'.calls x = some ca → s.Issued c' x) hcalls
      (fun c' _ => h.calls c')
  · exact forall_setClient (P := fun c' cl' =>
      Rpcc.Acked ((s.setClient c cl).Passed c') cl'.xidRepWindow) hwindow
      (fun c' _ => (h.window c').mono (hpassed c'))
  · exact fun q hq z h1 h2 => hpassed _ _ (h.packed q hq z h1 h2)

/-- The request that `call1` builds acknowledges the front of the window. -/
theorem Acknowledged.call {s : RpcSystem} {c proc : ℕ} {body : List UInt8} {q : Request}
    {cl : Rpcc} (h : Acknowledged s) (hn : Numbered s) (hb : Bounded s (.call c proc body))
    (hc : (s.clients c).call1 c proc body = .ok (q, cl)) :
    Acknowledged { s.setClient c cl with requests := s.requests ++ [q] } := by
  have hm : Move s (.call c proc body) _ := .call hc
  obtain ⟨hq, hcl⟩ := Rpcc.call1_ok hc
  constructor
  · refine forall_setClient (P := fun c' cl' => ∀ x ca, cl'.calls x = some ca →
      Issued { s.setClient c cl with requests := s.requests ++ [q] } c' x) ?_ ?_
    · intro x ca hca
      rw [hcl] at hca
      rcases Rpcc.calls_set hca with ⟨rfl, -⟩ | ⟨-, hca⟩
      · exact ⟨q, by simp, by rw [hq]; rfl⟩
      · exact issued_of_move hm (h.calls c x ca hca)
    · exact fun c' _ x ca hca => issued_of_move hm (h.calls c' x ca hca)
  · refine forall_setClient (P := fun c' cl' => Rpcc.Acked
      (Passed { s.setClient c cl with requests := s.requests ++ [q] } c') cl'.xidRepWindow) ?_ ?_
    · have hwindow : cl.xidRepWindow = (s.clients c).xidRepWindow := by rw [hcl]
      rw [hwindow]
      exact (h.window c).mono (fun y hy => passed_of_move hn hb hm hy)
    · exact fun c' _ => (h.window c').mono (fun y hy => passed_of_move hn hb hm hy)
  · intro q' hq' z h1 h2
    apply passed_of_move hn hb hm
    rcases List.mem_append.1 hq' with hq' | hq'
    · exact h.packed q' hq' z h1 h2
    · rw [List.mem_singleton.1 hq', hq] at h2 ⊢
      exact (h.window c).upto z h1 h2

/-- A reply is acknowledged when it arrives, a call that ends when it is taken out of `calls_`. -/
theorem acknowledged_step {s s' : RpcSystem} {l : RpcLabel} (h : Acknowledged s) (hn : Numbered s)
    (hb : Bounded s l) (hm : Move s l s') (hreplies : ∀ c r, (c, r) ∈ s.replies → s.Issued c r.xid) :
    Acknowledged s' := by
  have hpassed : ∀ c x, s.Passed c x → s'.Passed c x := fun c x hx => passed_of_move hn hb hm hx
  cases hm with
  | call hc => exact h.call hn hb hc
  | @gotPdu c r hr =>
    refine h.setClient hpassed ?_ ?_
    · intro x ca hca
      rcases Rpcc.calls_gotPdu hca with ⟨hca, -⟩ | ⟨-, ⟨ca₀, hca₀, -⟩, -⟩
      · exact h.calls c x ca hca
      · exact h.calls c x ca₀ hca₀
    · -- the call of the reply is done now, or was no longer pending
      rw [Rpcc.window_gotPdu]
      refine ((h.window c).mono (hpassed c)).update ⟨hreplies c r hr, fun ho => ?_⟩
      unfold Outstanding at ho
      rw [clients_setClient_self] at ho
      exact (Rpcc.outstanding_gotPdu ho).2 rfl
  | @finish c xid ca hca =>
    have hcl : Acknowledged (s.setClient c ((s.clients c).finish xid)) := by
      refine h.setClient hpassed ?_ ?_
      · exact fun x ca' hca' => h.calls c x ca' (Rpcc.calls_finish hca').2
      · refine ((h.window c).mono (hpassed c)).update ⟨h.calls c xid ca hca, fun ho => ?_⟩
        unfold Outstanding at ho
        rw [clients_setClient_self] at ho
        obtain ⟨ca', hca', -⟩ := ho
        exact (Rpcc.calls_finish hca').1 rfl
    exact ⟨hcl.calls, hcl.window, hcl.packed⟩
  | @bound c xid r =>
    exact h.setClient hpassed (fun x ca hca => h.calls c x ca hca)
      ((h.window c).mono (hpassed c))
  | @cancel c =>
    refine h.setClient hpassed ?_ ((h.window c).mono (hpassed c))
    intro x ca hca
    obtain ⟨⟨ca₀, hca₀⟩, -, -⟩ := Rpcc.calls_cancel hca
    exact h.calls c x ca₀ hca₀
  | _ => exact ⟨h.calls, h.window, h.packed⟩

end RpcSystem
