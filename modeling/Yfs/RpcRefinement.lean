/-
# Remote calls are procedure calls (`rpc/rpc.cc`)

The clients, the server and the network of `Yfs.RpcSystem` together with the state of the service that
the handlers belong to.  A handler runs in one step: those of the extent server hold its mutex while
they do.

`Remote.refines_atomic_calls`: in every run in which the classified requests are recognised and no
reply is freed while it is sent, the system is an `AtomicCalls`.  `toCalls` is the state of the ideal
that a state of the system stands for: a call waits until its handler has run, however many copies of
its request and of its reply are on their way, and its caller waits as long as it is in `calls_`.
-/
import Yfs.AtomicCalls
import Yfs.RpcAtMostOnce
import Yfs.RpcReplies

/-- What a handler gets: the procedure and the marshalled arguments. -/
structure ProcCall where
  proc : ℕ
  body : List UInt8
  deriving DecidableEq, Repr

/-- What a handler gives back: the status and the marshalled result. -/
structure ProcResult where
  ret : ℤ
  body : List UInt8
  deriving DecidableEq, Repr

def Request.input (q : Request) : ProcCall := ⟨q.proc, q.body⟩

def Exec.output (e : Exec) : ProcResult := ⟨e.ret, e.body⟩

/-- The RPC system and the state of the service behind the handlers. -/
structure Remote (σ : Type*) where
  rpc : RpcSystem
  service : σ

/-- What happens to the calls of all clients; a failure has the code that `call1` returns. -/
abbrev RemoteEvent := CallEvent (ℕ × ℕ) ProcCall ProcResult ℤ

/-- The handlers of the server: `rpcbind` is its own, the others are those of the service. -/
inductive Handlers {σ : Type*} (nonce : ℕ) (serves : σ → ProcCall → ProcResult → σ → Prop) :
    σ → ProcCall → ProcResult → σ → Prop
  | rpcbind {x : σ} {i : ProcCall} (hi : i.proc = Rpcc.bindProc) :
      Handlers nonce serves x i ⟨0, packInt nonce⟩ x
  | service {x x' : σ} {i : ProcCall} {o : ProcResult} (hi : i.proc ≠ Rpcc.bindProc)
      (h : serves x i o x') : Handlers nonce serves x i o x'

/-- A reply changes the result of a call, but takes none out of `calls_`. -/
theorem Rpcc.calls_gotPdu_eq_none_iff {cl : Rpcc} {r : RpcReply} {x : ℕ} :
    (cl.gotPdu r).calls x = none ↔ cl.calls x = none := by
  unfold gotPdu
  dsimp only
  split
  · exact Iff.rfl
  · next ca hca =>
    split_ifs
    · exact Iff.rfl
    · by_cases hx : x = r.xid
      · subst hx
        simp [hca]
      · simp [StdMap.set_of_ne _ _ hx]

namespace RpcSystem

/-- The conditions under which the server keeps its promises. -/
def Safe (s : RpcSystem) (l : RpcLabel) : Prop := Bounded s l ∧ ScanSafe s l ∧ FreeSafe s l

/-- What has become of a call. -/
def progress (s : RpcSystem) (k : ℕ × ℕ) : Option (Progress ProcCall ProcResult) :=
  match s.execs.find? (fun e => e.request.key == k) with
  | some e => some (.served e.output)
  | none => (s.requests.find? (fun q => q.key == k)).map (fun q => .waiting q.input)

/-- The calls that are in `calls_`. -/
def unanswered (s : RpcSystem) : Set (ℕ × ℕ) := {k | (s.clients k.1).calls k.2 ≠ none}

/-- What is seen of a step: a call that is sent, a handler that runs, a call that returns. -/
def observe (s : RpcSystem) : RpcLabel → List RemoteEvent
  | .call c proc body =>
    match (s.clients c).call1 c proc body with
    | .ok (q, _) => [.issue q.key q.input]
    | .error _ => []
  | .exec j ret body =>
    match s.jobs j with
    | some (.running q) => [.serve q.key ⟨ret, body⟩]
    | _ => []
  | .finish c xid =>
    match (s.clients c).calls xid with
    | some ca =>
      if 0 ≤ (Rpcc.returned ca).1 then
        [.answer (c, xid) ⟨(Rpcc.returned ca).1, (Rpcc.returned ca).2⟩]
      else [.fail (c, xid) (Rpcc.returned ca).1]
    | none => []
  | _ => []

/-! ## The progress of a call -/

/-- Every request is admitted and executed at most once, no reply goes astray, and what has been
executed had been issued. -/
structure Exact (s : RpcSystem) : Prop where
  sound : Sound s
  once : RunOnce s
  issued : ∀ e ∈ s.execs, e.request ∈ s.requests

theorem exact_init (nonce : ℕ) : Exact (init nonce) where
  sound := sound_of_freeSafe .nil
  once := runOnce_init nonce
  issued := by simp [init]

theorem exact_step {s s' : RpcSystem} {l : RpcLabel} (h : Exact s) (hsafe : s.Safe l)
    (hm : Move s l s') : Exact s' where
  sound := sound_step h.sound hsafe.1 hsafe.2.2 hm
  once := runOnce_step h.sound.delivered h.once hsafe.2.1 hm
  issued := by
    cases hm with
    | call hc => exact fun e he => List.mem_append_left _ (h.issued e he)
    | exec hj hret =>
      intro e he
      rcases List.mem_append.1 he with he | he
      · exact h.issued e he
      · rw [List.mem_singleton.1 he]
        exact h.sound.delivered.job _ _ hj
    | _ => exact h.issued

variable {s : RpcSystem}

theorem progress_congr {s' : RpcSystem} (hexecs : s'.execs = s.execs)
    (hreq : s'.requests = s.requests) : s'.progress = s.progress := by
  funext k
  rw [progress, hexecs, hreq, progress]

/-- What has been executed has its output. -/
theorem Exact.progress_served (h : Exact s) {e : Exec} (he : e ∈ s.execs) :
    s.progress e.request.key = some (.served e.output) := by
  unfold progress
  cases hf : s.execs.find? (fun e' => e'.request.key == e.request.key) with
  | none => exact absurd (List.find?_eq_none.1 hf e he) (by simp)
  | some e' =>
    have hkey : e'.request.key = e.request.key := by simpa using List.find?_some hf
    rw [List.inj_on_of_nodup_map h.once.execs (List.mem_of_find?_eq_some hf) he hkey]

/-- What has not been executed waits. -/
theorem Exact.progress_waiting (h : Exact s) {q : Request} (hq : q ∈ s.requests)
    (hnot : ∀ e ∈ s.execs, e.request.key ≠ q.key) : s.progress q.key = some (.waiting q.input) := by
  unfold progress
  rw [List.find?_eq_none.2 (by simpa using hnot)]
  cases hf : s.requests.find? (fun q' => q'.key == q.key) with
  | none => exact absurd (List.find?_eq_none.1 hf q hq) (by simp)
  | some q' =>
    have hkey : q'.key = q.key := by simpa using List.find?_some hf
    rw [h.sound.numbered.unique q' (List.mem_of_find?_eq_some hf) q hq hkey]
    rfl

theorem Exact.progress_none (h : Exact s) {k : ℕ × ℕ} (hk : ¬ s.Issued k.1 k.2) :
    s.progress k = none := by
  have hreq : ∀ q ∈ s.requests, q.key ≠ k := fun q hq hkey => hk ⟨q, hq, hkey⟩
  unfold progress
  rw [List.find?_eq_none.2 (by simpa using fun e he => hreq _ (h.issued e he)),
    List.find?_eq_none.2 (by simpa using hreq)]
  rfl

/-- A new request waits, and nothing else changes. -/
theorem Exact.progress_call (h : Exact s) {s' : RpcSystem} {q : Request}
    (hnew : ¬ s.Issued q.cltNonce q.xid) (hexecs : s'.execs = s.execs)
    (hreq : s'.requests = s.requests ++ [q]) :
    s'.progress = Function.update s.progress q.key (some (.waiting q.input)) := by
  funext k
  by_cases hk : k = q.key
  · subst hk
    have hnone := h.progress_none (k := q.key) hnew
    rw [Function.update_self, progress, hexecs, hreq]
    unfold progress at hnone
    cases hf : s.execs.find? (fun e => e.request.key == q.key) with
    | some e => simp [hf] at hnone
    | none =>
      rw [hf] at hnone
      have hreq' : s.requests.find? (fun q' => q'.key == q.key) = none := by simpa using hnone
      simp [List.find?_append, hreq']
  · rw [Function.update_of_ne hk, progress, hexecs, hreq, progress, List.find?_append]
    have hq : [q].find? (fun q' => q'.key == k) = none := by simp [Ne.symm hk]
    rw [hq, Option.or_none]

/-- A call that is executed has been served, and nothing else changes. -/
theorem progress_exec {s' : RpcSystem} {e : Exec}
    (hnot : ∀ e' ∈ s.execs, e'.request.key ≠ e.request.key) (hexecs : s'.execs = s.execs ++ [e])
    (hreq : s'.requests = s.requests) :
    s'.progress = Function.update s.progress e.request.key (some (.served e.output)) := by
  funext k
  rw [progress, hexecs, hreq, List.find?_append]
  by_cases hk : k = e.request.key
  · subst hk
    rw [List.find?_eq_none.2 (by simpa using hnot), Function.update_self]
    simp
  · have he : [e].find? (fun e' => e'.request.key == k) = none := by simp [Ne.symm hk]
    rw [Function.update_of_ne hk, he, Option.or_none, progress]

theorem nonce_of_move {s' : RpcSystem} {l : RpcLabel} (hm : Move s l s') :
    s'.server.nonce = s.server.nonce := by
  cases hm with
  | new | inProgress | done | forgotten => exact (s.classified _).nonce
  | addReply =>
    dsimp only
    split_ifs <;> rfl
  | _ => rfl

/-- The server keeps the nonce it has started with. -/
theorem nonce_of_trace {C : RpcSystem → RpcLabel → Prop} {nonce : ℕ} {t : List RpcLabel}
    (h : Trace (Guarded C Step) (init nonce) t s) : s.server.nonce = nonce :=
  Trace.invariant (I := fun s => s.server.nonce = nonce) rfl
    (fun _ _ _ hi hs => (nonce_of_move (move_of_step hs.2)).trans hi) h

/-- A step in which no request is classified. -/
theorem safe_of_unclassified {l : RpcLabel} (hb : s.Bounded l) (hc : s.classifies l = none) :
    s.Safe l := by
  refine ⟨hb, fun q hq => ?_, fun q hq => ?_⟩
  · rw [hc] at hq
    cases hq
  · rw [hc] at hq
    cases hq

/-! ## The jobs -/

/-- Only the jobs below `n` are used. -/
def IdleFrom (s : RpcSystem) (n : ℕ) : Prop := ∀ k, n ≤ k → s.jobs k = none

theorem idleFrom_init (nonce n : ℕ) : (init nonce).IdleFrom n := fun _ _ => rfl

theorem IdleFrom.setJob {n j : ℕ} {o : Option Job} (h : s.IdleFrom n) (ho : j < n ∨ o = none) :
    (s.setJob j o).IdleFrom n := by
  intro k hk
  by_cases hkj : k = j
  · subst hkj
    exact (Function.update_self ..).trans (ho.resolve_left (by omega))
  · exact (Function.update_of_ne hkj ..).trans (h k hk)

theorem IdleFrom.lt {n j : ℕ} {job : Job} (h : s.IdleFrom n) (hj : s.jobs j = some job) : j < n := by
  by_contra hn
  rw [h j (by omega)] at hj
  cases hj

theorem IdleFrom.checked {n : ℕ} (h : s.IdleFrom n) (q : Request) : (s.checked q).IdleFrom n := by
  intro k hk
  show (s.jobs k).map _ = none
  rw [h k hk, Option.map_none]

theorem idleFrom_of_move {s' : RpcSystem} {l : RpcLabel} {n : ℕ} (hm : Move s l s')
    (h : s.IdleFrom n) (hl : ∀ j q, l = .deliver j q → j < n) : s'.IdleFrom n := by
  cases hm with
  | refused | call | gotPdu | finish | bound | cancel => exact h
  | deliver hq => exact h.setJob (.inl (hl _ _ rfl))
  | oldsrv hj | send hj | sendFreed hj => exact h.setJob (.inr rfl)
  | unchecked hj | exec hj | addReply hj => exact h.setJob (.inl (h.lt hj))
  | new hj | done hj => exact (h.checked _).setJob (.inl (h.lt hj))
  | inProgress hj => exact (h.checked _).setJob (.inr rfl)
  | forgotten hj => exact (h.checked _).setJob (.inr rfl)

/-- The buffer that a job is about to send. -/
def sends (s : RpcSystem) (k : ℕ) : Option ℕ :=
  match s.jobs k with
  | some (.sending _ b) => some b.id
  | _ => none

/-- The step uses a job below `n` and frees no buffer that one of these is about to send. -/
def SafeBelow (n : ℕ) (s : RpcSystem) (l : RpcLabel) : Prop :=
  Bounded s l ∧ ScanSafe s l ∧ (∀ q ∈ s.classifies l, ∀ e ∈ s.server.window q.cltNonce,
    e.xid ≤ q.xidRep → ∀ k < n, ∀ i ∈ s.sends k, i ∉ Rpcs.freeBuf e) ∧
  match l with
  | .deliver j _ => j < n
  | _ => True

instance (n : ℕ) (s : RpcSystem) (l : RpcLabel) : Decidable (SafeBelow n s l) :=
  match l with
  | .deliver .. | .call .. | .check .. | .exec .. | .addReply .. | .send .. | .gotPdu .. | .finish ..
  | .bound .. | .cancel .. => inferInstanceAs (Decidable (_ ∧ _ ∧ _ ∧ _))

/-- So it is safe when the other jobs are not used. -/
theorem SafeBelow.safe {n : ℕ} {l : RpcLabel} (h : SafeBelow n s l) (hidle : s.IdleFrom n) :
    s.Safe l := by
  refine ⟨h.1, h.2.1, ?_⟩
  intro q hq _ e he hle k q' b hk
  refine h.2.2.1 q hq e he hle k (hidle.lt hk) b.id ?_
  rw [sends, hk]
  rfl

theorem SafeBelow.deliver {n j : ℕ} {q : Request} (h : SafeBelow n s (.deliver j q)) : j < n := h.2.2.2

theorem trace_safe {nonce n : ℕ} {t : List RpcLabel}
    (h : Trace (Guarded (SafeBelow n) Step) (init nonce) t s) :
    Trace (Guarded Safe Step) (init nonce) t s ∧ s.IdleFrom n := by
  induction h with
  | nil => exact ⟨.nil, idleFrom_init nonce n⟩
  | @snoc t s s' l _ hs ih =>
    obtain ⟨ht, hidle⟩ := ih
    refine ⟨ht.snoc ⟨hs.1.safe hidle, hs.2⟩, idleFrom_of_move (move_of_step hs.2) hidle ?_⟩
    rintro j q rfl
    exact hs.1.deliver

/-! ## The calls that wait -/

/-- A step of the client `c`, in terms of its `calls_`. -/
theorem unanswered_setClient {c : ℕ} {cl : Rpcc} {k : ℕ × ℕ} :
    k ∈ (s.setClient c cl).unanswered ↔
      if k.1 = c then cl.calls k.2 ≠ none else k ∈ s.unanswered := by
  show ((s.setClient c cl).clients k.1).calls k.2 ≠ none ↔ _
  by_cases hk : k.1 = c
  · rw [if_pos hk, hk, clients_setClient_self]
  · rw [if_neg hk, clients_setClient_of_ne s cl hk]
    rfl

theorem unanswered_of_iff {c : ℕ} {cl : Rpcc}
    (h : ∀ x, cl.calls x = none ↔ (s.clients c).calls x = none) :
    (s.setClient c cl).unanswered = s.unanswered := by
  ext k
  rw [unanswered_setClient]
  split_ifs with hk
  · rw [Ne, h, ← hk]
    rfl
  · rfl

/-- The steps in which nothing is seen. -/
theorem quiet_of_move {s' : RpcSystem} {l : RpcLabel} (hm : Move s l s')
    (hcall : ∀ c proc body, l ≠ .call c proc body) (hexec : ∀ j ret body, l ≠ .exec j ret body)
    (hfinish : ∀ c x, l ≠ .finish c x) :
    s'.execs = s.execs ∧ s'.requests = s.requests ∧ s'.unanswered = s.unanswered := by
  cases hm with
  | refused | call => exact absurd rfl (hcall _ _ _)
  | exec => exact absurd rfl (hexec _ _ _)
  | finish => exact absurd rfl (hfinish _ _)
  | gotPdu hr => exact ⟨rfl, rfl, unanswered_of_iff (fun x => Rpcc.calls_gotPdu_eq_none_iff)⟩
  | bound => exact ⟨rfl, rfl, unanswered_of_iff (fun x => Iff.rfl)⟩
  | cancel => exact ⟨rfl, rfl, unanswered_of_iff (fun x => Option.map_eq_none_iff)⟩
  | _ => exact ⟨rfl, rfl, rfl⟩

end RpcSystem

namespace Remote

open RpcSystem

variable {σ : Type*} {nonce : ℕ} {serves : σ → ProcCall → ProcResult → σ → Prop}

/-- The steps of the system: a handler changes the service, the other steps leave it alone. -/
inductive Step (nonce : ℕ) (serves : σ → ProcCall → ProcResult → σ → Prop) :
    Remote σ → RpcLabel → Remote σ → Prop
  | handler {s s' : RpcSystem} {x x' : σ} {j : ℕ} {ret : ℤ} {body : List UInt8} {q : Request}
      (h : RpcSystem.Step s (.exec j ret body) s') (hj : s.jobs j = some (.running q))
      (hx : Handlers nonce serves x q.input ⟨ret, body⟩ x') :
      Step nonce serves ⟨s, x⟩ (.exec j ret body) ⟨s', x'⟩
  | other {s s' : RpcSystem} {x : σ} {l : RpcLabel} (h : RpcSystem.Step s l s')
      (hl : ∀ j ret body, l ≠ .exec j ret body) : Step nonce serves ⟨s, x⟩ l ⟨s', x⟩

/-- The steps that meet the conditions. -/
def SafeStep (nonce : ℕ) (serves : σ → ProcCall → ProcResult → σ → Prop) :
    Remote σ → RpcLabel → Remote σ → Prop :=
  Guarded (fun s l => s.rpc.Safe l) (Step nonce serves)

/-- The state of the ideal that the system is in. -/
def toCalls (s : Remote σ) : AtomicCalls (ℕ × ℕ) ProcCall ProcResult σ :=
  ⟨s.service, s.rpc.progress, s.rpc.unanswered⟩

/-- The system when clients, server and service start. -/
def init (nonce : ℕ) (x : σ) : Remote σ := ⟨RpcSystem.init nonce, x⟩

theorem Step.rpc {s s' : Remote σ} {l : RpcLabel} (h : Step nonce serves s l s') :
    RpcSystem.Step s.rpc l s'.rpc := by
  cases h with
  | handler h => exact h
  | other h => exact h

/-! ## One step -/

section Steps

variable {s s' : RpcSystem} {x x' : σ}

/-- A call is refused, or its request is built. -/
theorem call_cases {c proc : ℕ} {body : List UInt8} (h : RpcSystem.Step s (.call c proc body) s') :
    (s.observe (.call c proc body) = [] ∧ s' = s) ∨
      ∃ q cl, (s.clients c).call1 c proc body = .ok (q, cl) ∧
        s.observe (.call c proc body) = [.issue q.key q.input] ∧
        s' = { s.setClient c cl with requests := s.requests ++ [q] } := by
  unfold RpcSystem.Step at h
  rw [step] at h
  rw [observe]
  cases hc : (s.clients c).call1 c proc body with
  | error f =>
    rw [hc] at h
    exact .inl ⟨rfl, (Option.some.inj h).symm⟩
  | ok p =>
    rw [hc] at h
    exact .inr ⟨p.1, p.2, rfl, rfl, (Option.some.inj h).symm⟩

theorem refines_call {c proc : ℕ} {body : List UInt8} (hi : Exact s)
    (hb : s.Bounded (.call c proc body)) (h : RpcSystem.Step s (.call c proc body) s') :
    Trace (AtomicCalls.Step (Handlers nonce serves)) (toCalls ⟨s, x⟩)
      (s.observe (.call c proc body)) (toCalls ⟨s', x⟩) := by
  obtain ⟨hobs, rfl⟩ | ⟨q, cl, hc, hobs, rfl⟩ := call_cases h
  · rw [hobs]
    exact .nil
  · obtain ⟨hq, hcl⟩ := Rpcc.call1_ok hc
    have hkey : q.cltNonce = c ∧ q.xid = (s.clients c).xid := by simp [hq]
    have hnew : ¬ s.Issued q.cltNonce q.xid := by
      intro hissued
      rw [hkey.1] at hissued
      exact hi.sound.numbered.fresh hb hissued hkey.2
    have hprogress : progress { s.setClient c cl with requests := s.requests ++ [q] } =
        Function.update s.progress q.key (some (.waiting q.input)) := hi.progress_call hnew rfl rfl
    have hun : unanswered { s.setClient c cl with requests := s.requests ++ [q] } =
        insert q.key s.unanswered := by
      ext k
      show k ∈ (s.setClient c cl).unanswered ↔ _
      rw [unanswered_setClient, Set.mem_insert_iff, hcl]
      split_ifs with hk
      · -- the calls of the client: the new one, and those it had before
        by_cases hx : k.2 = (s.clients c).xid
        · have hkq : k = q.key := Prod.ext (hk.trans hkey.1.symm) (hx.trans hkey.2.symm)
          simp [hkq, Request.key, hkey.2]
        · have hkq : k ≠ q.key := fun heq => hx ((congrArg Prod.snd heq).trans hkey.2)
          simp only [StdMap.set_of_ne _ _ hx, hkq, false_or]
          rw [← hk]
          rfl
      · have hkq : k ≠ q.key := fun heq => hk ((congrArg Prod.fst heq).trans hkey.1)
        simp [hkq]
    rw [hobs, toCalls, toCalls, hprogress, hun]
    exact .single (.issue (hi.progress_none hnew))

theorem refines_handler {j : ℕ} {ret : ℤ} {body : List UInt8} {q : Request} (hi : Exact s)
    (hj : s.jobs j = some (.running q)) (hx : Handlers nonce serves x q.input ⟨ret, body⟩ x')
    (h : RpcSystem.Step s (.exec j ret body) s') :
    Trace (AtomicCalls.Step (Handlers nonce serves)) (toCalls ⟨s, x⟩)
      (s.observe (.exec j ret body)) (toCalls ⟨s', x'⟩) := by
  have hobs : s.observe (.exec j ret body) = [.serve q.key ⟨ret, body⟩] := by rw [observe, hj]
  have hnot := (hi.once.running j q hj).2
  cases move_of_step h with
  | @exec _ q' _ _ hj' hret =>
    obtain rfl : q = q' := by
      rw [hj, Option.some.injEq, Job.running.injEq] at hj'
      exact hj'
    have hprogress : progress { s.setJob j (some (.replied q ⟨s.nextBuf, ⟨q.xid, ret, body⟩⟩)) with
        nextBuf := s.nextBuf + 1
        execs := s.execs ++ [⟨q, ret, body⟩] } =
        Function.update s.progress q.key (some (.served ⟨ret, body⟩)) :=
      progress_exec (e := ⟨q, ret, body⟩) hnot rfl rfl
    rw [hobs, toCalls, toCalls, hprogress]
    exact .single (.serve (hi.progress_waiting (hi.sound.delivered.job j _ hj) hnot) hx)

theorem refines_finish {c xid : ℕ} (hi : Exact s) (h : RpcSystem.Step s (.finish c xid) s') :
    Trace (AtomicCalls.Step (Handlers nonce serves)) (toCalls ⟨s, x⟩)
      (s.observe (.finish c xid)) (toCalls ⟨s', x⟩) := by
  cases move_of_step h with
  | @finish _ _ ca hca =>
    have hun : unanswered { s.setClient c ((s.clients c).finish xid) with
        ended := s.ended ++ [⟨c, xid, (Rpcc.returned ca).1, (Rpcc.returned ca).2⟩] } =
        s.unanswered \ {(c, xid)} := by
      ext k
      show k ∈ (s.setClient c ((s.clients c).finish xid)).unanswered ↔ _
      rw [unanswered_setClient, Set.mem_sdiff, Set.mem_singleton_iff]
      split_ifs with hk
      · by_cases hx : k.2 = xid
        · simp [Rpcc.finish, hx, Prod.ext_iff, hk]
        · simp only [Rpcc.finish, StdMap.erase_of_ne _ hx, Prod.ext_iff, hx, and_false,
            not_false_eq_true, and_true]
          rw [← hk]
          rfl
      · simp [Prod.ext_iff, hk]
    have hmem : (c, xid) ∈ s.unanswered := by
      show (s.clients c).calls xid ≠ none
      simp [hca]
    rw [observe, hca, toCalls, toCalls, hun]
    dsimp only
    split_ifs with hret
    · -- the call returns the output of an execution on its own request
      obtain ⟨q, -, hkey, hexec⟩ := (hi.sound.results.returned hca).1 hret
      have hserved := hi.progress_served hexec
      rw [hkey] at hserved
      exact .single (.answer hmem hserved)
    · exact .single (.fail hmem)

/-- **What is seen of a step is a step of the ideal, or nothing.** -/
theorem refines_step {s s' : Remote σ} {l : RpcLabel} (hi : Exact s.rpc)
    (h : SafeStep nonce serves s l s') :
    Exact s'.rpc ∧ Trace (AtomicCalls.Step (Handlers nonce serves)) s.toCalls (s.rpc.observe l)
      s'.toCalls := by
  obtain ⟨hsafe, hstep⟩ := h
  have hm := move_of_step hstep.rpc
  refine ⟨exact_step hi hsafe hm, ?_⟩
  cases hstep with
  | handler h hj hx => exact refines_handler hi hj hx h
  | @other s s' x l h hl =>
    cases l with
    | call c proc body => exact refines_call hi hsafe.1 h
    | exec j ret body => exact absurd rfl (hl j ret body)
    | finish c xid => exact refines_finish hi h
    | _ =>
      obtain ⟨hexecs, hreq, hun⟩ := quiet_of_move hm (by simp) (by simp) (by simp)
      have heq : toCalls ⟨s, x⟩ = toCalls ⟨s', x⟩ := by
        rw [toCalls, toCalls]
        dsimp only
        rw [progress_congr hexecs hreq, hun]
      rw [heq]
      exact .nil

end Steps

/-! ## Runs -/

theorem toCalls_init (nonce : ℕ) (x : σ) : (init nonce x).toCalls = .start x := by
  have hun : (RpcSystem.init nonce).unanswered = ∅ := by
    ext k
    simp [unanswered, RpcSystem.init]
  rw [toCalls, init, hun]
  rfl

/-- **Remote calls are procedure calls.**  In every run in which the classified requests are recognised
and no reply is freed while it is sent, whatever the network does to the messages: what is seen of the
calls is a history of `AtomicCalls`, which leads to the state the system stands for. -/
theorem refines_atomic_calls {x : σ} {t : List RpcLabel} {s : Observed (Remote σ) RemoteEvent}
    (h : Trace (Watching (SafeStep nonce serves) (fun s => s.rpc.observe)) ⟨init nonce x, []⟩ t s) :
    Trace (AtomicCalls.Step (Handlers nonce serves)) (.start x) s.seen s.state.toCalls := by
  rw [← toCalls_init nonce x]
  exact (Trace.observed (I := fun s => Exact s.rpc) toCalls (exact_init nonce)
    (fun _ _ _ hi hs => refines_step hi hs) h).2

/-- A service that takes down what it is asked, and answers anything. -/
def Records (x : List ProcCall) (i : ProcCall) (_ : ProcResult) (x' : List ProcCall) : Prop :=
  x' = x ++ [i]

/-- The handler of a job that runs. -/
theorem exec_cases {s s' : RpcSystem} {j : ℕ} {ret : ℤ} {body : List UInt8}
    (h : RpcSystem.Step s (.exec j ret body) s') :
    ∃ q, s.jobs j = some (.running q) ∧ s.handled q ret body = true := by
  unfold RpcSystem.Step at h
  rw [step] at h
  split at h
  · next q hj =>
    split_ifs at h with hh
    exact ⟨q, hj, hh⟩
  · cases h

/-- A run of clients, server and network is one with any service that may give the outputs in it. -/
theorem exists_served {t : List RpcLabel} {s : RpcSystem} (x : σ)
    (h : Trace (Guarded Safe RpcSystem.Step) (RpcSystem.init nonce) t s)
    (hserves : ∀ e ∈ s.execs, e.request.proc ≠ Rpcc.bindProc →
      ∀ x, ∃ x', serves x e.request.input e.output x') :
    ∃ x', Trace (SafeStep nonce serves) (init nonce x) t ⟨s, x'⟩ := by
  induction h with
  | nil => exact ⟨x, .nil⟩
  | @snoc t s s' a h hs ih =>
    by_cases hexec : ∃ j ret body, a = .exec j ret body
    · obtain ⟨j, ret, body, rfl⟩ := hexec
      obtain ⟨q, hj, hh⟩ := exec_cases hs.2
      have hexecs : s'.execs = s.execs ++ [⟨q, ret, body⟩] := by
        cases move_of_step hs.2 with
        | @exec _ q' _ _ hj' hret =>
          obtain rfl : q = q' := by
            rw [hj, Option.some.injEq, Job.running.injEq] at hj'
            exact hj'
          rfl
      rw [hexecs] at hserves
      obtain ⟨x', ih⟩ := ih (fun e he => hserves e (List.mem_append_left _ he))
      by_cases hq : q.proc = Rpcc.bindProc
      · rw [handled, if_pos hq, Bool.and_eq_true, beq_iff_eq, beq_iff_eq, nonce_of_trace h] at hh
        obtain ⟨rfl, rfl⟩ := hh
        exact ⟨x', ih.snoc ⟨hs.1, .handler hs.2 hj (.rpcbind hq)⟩⟩
      · obtain ⟨x₁, hx₁⟩ := hserves ⟨q, ret, body⟩ (by simp) hq x'
        exact ⟨x₁, ih.snoc ⟨hs.1, .handler hs.2 hj (.service hq hx₁)⟩⟩
    · have hsub : s.execs ⊆ s'.execs := by
        cases move_of_step hs.2 with
        | exec => exact List.subset_append_left _ _
        | _ => exact List.Subset.refl _
      obtain ⟨x', ih⟩ := ih (fun e he => hserves e (hsub he))
      exact ⟨x', ih.snoc ⟨hs.1, .other hs.2 (fun j ret body heq => hexec ⟨j, ret, body, heq⟩)⟩⟩

/-- The second call of a client reaches the server twice, and its reply reaches the client twice. -/
theorem refines_atomic_calls_duplicate : ∃ t s,
    Trace (Watching (SafeStep 5 Records) (fun s => s.rpc.observe)) ⟨init 5 [], []⟩ t s ∧
      s.state.rpc.requests.length = 2 ∧ s.state.rpc.replies.length = 3 ∧
      Trace (AtomicCalls.Step (Handlers 5 Records)) (.start []) s.seen s.state.toCalls := by
  have hrun : ((RpcSystem.init 5).run (SafeBelow 2)
      (List.flatten
        [binding 7 5, [.call 7 9 []], (served ⟨2, 9, 7, 5, 1, []⟩ 3 [1]).take 5,
          [.deliver 1 ⟨2, 9, 7, 5, 1, []⟩, .check 1, .send 1 ⟨2, 0, []⟩, .gotPdu 7 ⟨2, 3, [1]⟩,
            .finish 7 2, .gotPdu 7 ⟨2, 3, [1]⟩]])).any
      (fun s => decide (s.requests.length = 2 ∧ s.replies.length = 3)) = true := by
    decide
  obtain ⟨s, ht, hs⟩ := exists_trace hrun
  obtain ⟨hreq, hreplies⟩ := of_decide_eq_true hs
  obtain ⟨x, hx⟩ : ∃ x, Trace (SafeStep 5 Records) (init 5 []) _ ⟨s, x⟩ :=
    exists_served [] (trace_safe ht).1 (fun e _ _ x => ⟨_, rfl⟩)
  obtain ⟨seen, hw⟩ : ∃ seen, Trace (Watching (SafeStep 5 Records) (fun s => s.rpc.observe))
      ⟨init 5 [], []⟩ _ ⟨⟨s, x⟩, seen⟩ := hx.exists_watching
  exact ⟨_, _, hw, hreq, hreplies, refines_atomic_calls hw⟩

end Remote
