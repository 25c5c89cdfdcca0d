/-
# The RPC client endpoint (`rpc/rpc.h`, class `rpcc`)

An `rpcc` numbers its calls with consecutive xids and packs into each request the largest xid up to
which it has received all replies, `xid_rep`.  It computes this number from `xid_rep_window_`, the
sorted list of the xids whose reply has arrived or whose call has ended, compressed at its front
(`updateXidRep`).

The functions below are the critical sections of `call1`, `got_pdu`, `bind` and `cancel` under the
mutex `m_`.  Sending, waiting and the clock are not part of them: a request that has been built may
reach the server any number of times, and a call may be given up at any moment.

* xids, nonces and procedure numbers are `unsigned int`s, kept as natural numbers; `xid_++` and
  `front() + 1` wrap around at `2 ^ 32`.
* The fields of the lossy test (`dup_req_`, `xid_rep_done_`) are left out: what they do is send an old
  request again.
-/
import Yfs.StdMap

/-- The negative codes of `rpc_const`. -/
inductive RpcFailure
  | timeout_failure
  | unmarshal_args_failure
  | unmarshal_reply_failure
  | atmostonce_failure
  | oldsrv_failure
  | bind_failure
  | cancel_failure
  deriving DecidableEq, Repr

/-- The values of `rpc_const`. -/
def RpcFailure.code : RpcFailure → ℤ
  | timeout_failure => -1
  | unmarshal_args_failure => -2
  | unmarshal_reply_failure => -3
  | atmostonce_failure => -4
  | oldsrv_failure => -5
  | bind_failure => -6
  | cancel_failure => -7

theorem RpcFailure.code_neg (f : RpcFailure) : f.code < 0 := by
  cases f <;> decide

theorem RpcFailure.code_injective : Function.Injective RpcFailure.code := by
  intro f g h
  cases f <;> cases g <;> first | rfl | exact absurd h (by decide)

/-- A request: `req_header` and the marshalled arguments. -/
structure Request where
  xid : ℕ
  proc : ℕ
  cltNonce : ℕ
  srvNonce : ℕ
  xidRep : ℕ
  body : List UInt8
  deriving DecidableEq, Repr

/-- A reply: `reply_header` and the marshalled result. -/
structure RpcReply where
  xid : ℕ
  ret : ℤ
  body : List UInt8
  deriving DecidableEq, Repr

/-- `rpcc::caller`.  `intret` and `un` are read only when `done` is set. -/
structure Caller where
  un : List UInt8
  intret : ℤ
  done : Bool
  deriving DecidableEq, Repr

/-- The state of an `rpcc`.  Its `clt_nonce_` never changes; it is a parameter of `call1`. -/
structure Rpcc where
  srvNonce : ℕ := 0
  bindDone : Bool := false
  xid : ℕ := 1
  calls : StdMap ℕ Caller := fun _ => none
  xidRepWindow : List ℕ := [0]
  destroyWait : Bool := false

namespace Rpcc

/-- `rpc_const::bind`. -/
def bindProc : ℕ := 1

/-! ## The window of replies -/

/-- The `for` loop of `update_xid_rep`: `xid` goes before the first larger element. -/
def insertXid (xid : ℕ) : List ℕ → List ℕ
  | [] => [xid]
  | y :: ys => if xid < y then xid :: y :: ys else y :: insertXid xid ys

/-- `while (front() + 1 == *it) pop_front();` on the elements before `it`, where `*it` is `y`.  It
stops at the latest when `it` is the front. -/
def popFront (y : ℕ) : List ℕ → List ℕ
  | [] => []
  | f :: fs => if (f + 1) % 2 ^ 32 = y then popFront y fs else f :: fs

/-- The loop after `compress`: `pre` are the elements before `it`, the other list those from `it`. -/
def compress : List ℕ → List ℕ → List ℕ
  | pre, [] => pre
  | pre, y :: ys => compress (popFront y pre ++ [y]) ys

/-- `update_xid_rep` as a function of `xid_rep_window_`, which is never empty. -/
def updateXidRep (xid : ℕ) (window : List ℕ) : List ℕ :=
  if xid ≤ window.headD 0 then window
  else
    match insertXid xid window with
    | [] => []
    | f :: fs => compress [f] fs

/-! ## The critical sections -/

/-- `call1` up to the first transmission: the request it will send, or the code it returns. -/
def call1 (cltNonce : ℕ) (cl : Rpcc) (proc : ℕ) (body : List UInt8) :
    Except RpcFailure (Request × Rpcc) :=
  if (proc ≠ bindProc ∧ cl.bindDone = false) ∨ (proc = bindProc ∧ cl.bindDone = true) then
    .error .bind_failure
  else if cl.destroyWait then .error .cancel_failure
  else
    .ok (⟨cl.xid, proc, cltNonce, cl.srvNonce, cl.xidRepWindow.headD 0, body⟩,
      { cl with xid := (cl.xid + 1) % 2 ^ 32, calls := cl.calls.set cl.xid ⟨[], 0, false⟩ })

/-- What `call1` does when it sends a request. -/
theorem call1_ok {cltNonce : ℕ} {cl cl' : Rpcc} {proc : ℕ} {body : List UInt8} {q : Request}
    (h : call1 cltNonce cl proc body = .ok (q, cl')) :
    q = ⟨cl.xid, proc, cltNonce, cl.srvNonce, cl.xidRepWindow.headD 0, body⟩ ∧
      cl' = { cl with
        xid := (cl.xid + 1) % 2 ^ 32
        calls := cl.calls.set cl.xid ⟨[], 0, false⟩ } := by
  unfold call1 at h
  split_ifs at h
  obtain ⟨hq, hcl⟩ := Prod.mk.inj (Except.ok.inj h)
  exact ⟨hq.symm, hcl.symm⟩

/-- `got_pdu`. -/
def gotPdu (cl : Rpcc) (r : RpcReply) : Rpcc :=
  let cl := { cl with xidRepWindow := updateXidRep r.xid cl.xidRepWindow }
  match cl.calls r.xid with
  | none => cl
  | some ca =>
    if ca.done then cl
    else { cl with calls := cl.calls.set r.xid ⟨r.body, r.ret, true⟩ }

/-- What `call1` returns for `ca`, with the result that `rep` has taken in. -/
def returned (ca : Caller) : ℤ × List UInt8 :=
  if ca.done then (ca.intret, ca.un) else (RpcFailure.timeout_failure.code, [])

/-- `call1` after its loop, which it leaves with a reply or when the time is over. -/
def finish (cl : Rpcc) (xid : ℕ) : Rpcc :=
  { cl with
    calls := cl.calls.erase xid
    xidRepWindow := updateXidRep xid cl.xidRepWindow }

/-- `bind` after its call has returned 0 with the server's nonce `r`. -/
def bound (cl : Rpcc) (r : ℕ) : Rpcc :=
  { cl with bindDone := true, srvNonce := r }

/-- `cancel`: it overwrites the result also of the calls that have one.  `destroy_wait_` is set when a
call is outstanding, and never reset. -/
def cancel (cl : Rpcc) : Rpcc :=
  { cl with
    calls := fun x => (cl.calls x).map (fun ca =>
      { ca with intret := RpcFailure.cancel_failure.code, done := true })
    destroyWait := cl.destroyWait || (List.range (2 ^ 32)).any (fun x => (cl.calls x).isSome) }

/-! ## The acknowledged prefix -/

theorem mem_insertXid {xid y : ℕ} {l : List ℕ} : y ∈ insertXid xid l ↔ y = xid ∨ y ∈ l := by
  induction l with
  | nil => simp [insertXid]
  | cons z zs ih =>
    rw [insertXid]
    split_ifs with h
    · simp
    · rw [List.mem_cons, ih, List.mem_cons]
      tauto

theorem pairwise_insertXid (xid : ℕ) {l : List ℕ} (h : l.Pairwise (· ≤ ·)) :
    (insertXid xid l).Pairwise (· ≤ ·) := by
  induction l with
  | nil => simp [insertXid]
  | cons z zs ih =>
    obtain ⟨hz, hzs⟩ := List.pairwise_cons.1 h
    rw [insertXid]
    split_ifs with hlt
    · refine List.pairwise_cons.2 ⟨?_, h⟩
      intro y hy
      rcases List.mem_cons.1 hy with rfl | hy
      · omega
      · have := hz y hy
        omega
    · refine List.pairwise_cons.2 ⟨?_, ih hzs⟩
      intro y hy
      rcases mem_insertXid.1 hy with rfl | hy
      · omega
      · exact hz y hy

theorem popFront_suffix (y : ℕ) (l : List ℕ) : popFront y l <:+ l := by
  induction l with
  | nil => exact List.suffix_refl _
  | cons f fs ih =>
    rw [popFront]
    split_ifs
    · exact ih.trans (List.suffix_cons f fs)
    · exact List.suffix_refl _

/-- A window of acknowledged xids: sorted, every element but 0 in `P`, and `P` up to the front. -/
structure Acked (P : ℕ → Prop) (w : List ℕ) : Prop where
  nonempty : w ≠ []
  sorted : w.Pairwise (· ≤ ·)
  mem : ∀ y ∈ w, y = 0 ∨ P y
  upto : ∀ z, 1 ≤ z → z ≤ w.headD 0 → P z

theorem Acked.mono {P Q : ℕ → Prop} {w : List ℕ} (h : Acked P w) (hPQ : ∀ y, P y → Q y) :
    Acked Q w :=
  ⟨h.nonempty, h.sorted, fun y hy => (h.mem y hy).imp_right (hPQ y),
    fun z h1 h2 => hPQ z (h.upto z h1 h2)⟩

/-- Popping the front keeps the prefix: the next element is the front or its successor. -/
theorem Acked.popFront {P : ℕ → Prop} {y : ℕ} {pre : List ℕ} (h : Acked P (pre ++ [y])) :
    Acked P (popFront y pre ++ [y]) := by
  induction pre with
  | nil => exact h
  | cons f fs ih =>
    rw [Rpcc.popFront]
    split_ifs with hf
    · apply ih
      have hsorted := List.pairwise_cons.1 h.sorted
      refine ⟨by simp, hsorted.2, fun z hz => h.mem z (List.mem_cons_of_mem f hz), ?_⟩
      -- the new front lies between the old one and `y`, which is at most its successor
      obtain ⟨g, hg⟩ : ∃ g, (fs ++ [y]).head? = some g :=
        Option.isSome_iff_exists.1 (by cases fs <;> simp)
      have hmem : g ∈ fs ++ [y] := List.mem_of_mem_head? (by rw [hg]; rfl)
      have hfg : f ≤ g := hsorted.1 g hmem
      have hgy : g ≤ y := by
        cases fs with
        | nil =>
          obtain rfl : y = g := by simpa using hg
          exact le_rfl
        | cons x xs =>
          obtain rfl : x = g := by simpa using hg
          exact (List.pairwise_cons.1 hsorted.2).1 y (by simp)
      have hyf : y ≤ f + 1 := by
        rw [← hf]
        exact Nat.mod_le _ _
      intro z h1 h2
      rw [List.headD_eq_head?_getD, hg, Option.getD_some] at h2
      by_cases hzf : z ≤ f
      · exact h.upto z h1 hzf
      · obtain rfl : z = g := by omega
        exact (h.mem z (List.mem_cons_of_mem f hmem)).resolve_left (by omega)
    · exact h

theorem Acked.compress {P : ℕ → Prop} {pre l : List ℕ} (h : Acked P (pre ++ l)) (hne : pre ≠ []) :
    Acked P (compress pre l) := by
  induction l generalizing pre with
  | nil => simpa [Rpcc.compress] using h
  | cons y ys ih =>
    rw [Rpcc.compress]
    have hsplit : pre ++ y :: ys = (pre ++ [y]) ++ ys := by simp
    rw [hsplit] at h
    have hhead : ∀ l l' : List ℕ, l ≠ [] → (l ++ l').headD 0 = l.headD 0 := by
      intro l l' hl
      cases l with
      | nil => exact absurd rfl hl
      | cons a l => rfl
    have hsorted := List.pairwise_append.1 h.sorted
    have hpre : Acked P (pre ++ [y]) :=
      ⟨by simp, hsorted.1, fun z hz => h.mem z (List.mem_append_left _ hz),
        fun z h1 h2 => h.upto z h1 (by rwa [hhead _ _ (by simp)])⟩
    -- popping changes the elements before `it` only, and the front is among them or is `it`
    have hpop := hpre.popFront
    refine ih ⟨by simp, ?_, ?_, ?_⟩ (by simp)
    · refine List.pairwise_append.2 ⟨hpop.sorted, hsorted.2.1, ?_⟩
      intro a ha b hb
      refine hsorted.2.2 a ?_ b hb
      rcases List.mem_append.1 ha with ha | ha
      · exact List.mem_append_left _ ((popFront_suffix y pre).subset ha)
      · exact List.mem_append_right _ ha
    · intro z hz
      rcases List.mem_append.1 hz with hz | hz
      · exact hpop.mem z hz
      · exact h.mem z (List.mem_append_right _ hz)
    · intro z h1 h2
      rw [hhead _ _ (by simp)] at h2
      exact hpop.upto z h1 h2

/-- **`update_xid_rep` acknowledges nothing but what it has been told.** -/
theorem Acked.update {P : ℕ → Prop} {w : List ℕ} {xid : ℕ} (h : Acked P w) (hx : P xid) :
    Acked P (updateXidRep xid w) := by
  unfold updateXidRep
  split_ifs with hle
  · exact h
  · obtain ⟨f, fs, rfl⟩ := List.exists_cons_of_ne_nil h.nonempty
    -- the xid is beyond the front, so the front does not change before the compression
    have hxf : ¬ xid < f := fun hlt => hle hlt.le
    have hins : insertXid xid (f :: fs) = f :: insertXid xid fs := by
      rw [insertXid, if_neg hxf]
    rw [hins]
    show Acked P (Rpcc.compress [f] (insertXid xid fs))
    refine Acked.compress ⟨by simp, ?_, ?_, h.upto⟩ (by simp)
    · have hsorted := pairwise_insertXid xid h.sorted
      rwa [hins] at hsorted
    · intro y hy
      have hy' : y ∈ insertXid xid (f :: fs) := by
        rw [hins]
        exact hy
      rcases mem_insertXid.1 hy' with rfl | hy'
      · exact .inr hx
      · exact h.mem y hy'

theorem acked_init (P : ℕ → Prop) : Acked P [0] := by
  refine ⟨by simp, by simp, by simp, ?_⟩
  intro z h1 h2
  have : z ≤ 0 := h2
  omega

/-! ## The pending calls -/

/-- The call `x` waits for its reply. -/
def Outstanding (cl : Rpcc) (x : ℕ) : Prop := ∃ ca, cl.calls x = some ca ∧ ca.done = false

section Calls

variable {cl : Rpcc} {x : ℕ} {ca : Caller}

/-- A reply is delivered to the call with its xid, if that call waits. -/
theorem calls_gotPdu {r : RpcReply} (h : (cl.gotPdu r).calls x = some ca) :
    cl.calls x = some ca ∧ (x = r.xid → ca.done = true) ∨
      x = r.xid ∧ cl.Outstanding x ∧ ca = ⟨r.body, r.ret, true⟩ := by
  unfold gotPdu at h
  dsimp only at h
  split at h
  · next hnone =>
    left
    refine ⟨h, fun hx => ?_⟩
    rw [hx, hnone] at h
    cases h
  · next ca₀ hsome =>
    split_ifs at h with hdone
    · left
      refine ⟨h, fun hx => ?_⟩
      rw [hx, hsome] at h
      rwa [← Option.some.inj h]
    · dsimp only at h
      by_cases hx : x = r.xid
      · subst hx
        rw [StdMap.set_self] at h
        exact .inr ⟨rfl, ⟨ca₀, hsome, by simpa using hdone⟩, (Option.some.inj h).symm⟩
      · rw [StdMap.set_of_ne _ _ hx] at h
        exact .inl ⟨h, fun hx' => absurd hx' hx⟩

theorem calls_gotPdu_of_none {r : RpcReply} (h : cl.calls r.xid = none) :
    (cl.gotPdu r).calls = cl.calls := by
  unfold gotPdu
  dsimp only
  rw [h]

theorem outstanding_gotPdu {r : RpcReply} (h : (cl.gotPdu r).Outstanding x) :
    cl.Outstanding x ∧ x ≠ r.xid := by
  obtain ⟨ca, hca, hdone⟩ := h
  rcases calls_gotPdu hca with ⟨hca, hx⟩ | ⟨-, -, rfl⟩
  · refine ⟨⟨ca, hca, hdone⟩, fun heq => ?_⟩
    rw [hx heq] at hdone
    cases hdone
  · cases hdone

theorem window_gotPdu (cl : Rpcc) (r : RpcReply) :
    (cl.gotPdu r).xidRepWindow = updateXidRep r.xid cl.xidRepWindow := by
  unfold gotPdu
  dsimp only
  split
  · rfl
  · split_ifs <;> rfl

theorem xid_gotPdu (cl : Rpcc) (r : RpcReply) : (cl.gotPdu r).xid = cl.xid := by
  unfold gotPdu
  dsimp only
  split
  · rfl
  · split_ifs <;> rfl

theorem calls_finish {xid : ℕ} (h : (cl.finish xid).calls x = some ca) :
    x ≠ xid ∧ cl.calls x = some ca := by
  unfold finish at h
  dsimp only at h
  have hx : x ≠ xid := by
    rintro rfl
    rw [StdMap.erase_self] at h
    cases h
  rw [StdMap.erase_of_ne _ hx] at h
  exact ⟨hx, h⟩

theorem calls_cancel (h : cl.cancel.calls x = some ca) :
    (∃ ca₀, cl.calls x = some ca₀) ∧ ca.intret = RpcFailure.cancel_failure.code ∧
      ca.done = true := by
  obtain ⟨ca₀, h₀, rfl⟩ := Option.map_eq_some_iff.1 h
  exact ⟨⟨ca₀, h₀⟩, rfl, rfl⟩

/-- The calls after `call1` has entered a new one. -/
theorem calls_set {xid : ℕ} (h : cl.calls.set xid ⟨[], 0, false⟩ x = some ca) :
    x = xid ∧ ca = ⟨[], 0, false⟩ ∨ x ≠ xid ∧ cl.calls x = some ca := by
  by_cases hx : x = xid
  · subst hx
    rw [StdMap.set_self] at h
    exact .inl ⟨rfl, (Option.some.inj h).symm⟩
  · rw [StdMap.set_of_ne _ _ hx] at h
    exact .inr ⟨hx, h⟩

end Calls

end Rpcc
