/-
# One file system over the network

The operations of an installation (`Yfs.Installation`) are those of a `Cluster`: what the clients do
between the issue and the answer of a call, what the network does to its messages and how long its
handler waits does not show there.  So the results about the cluster are results about the installation.

* `refines_cluster`: every run of an installation is a run of the cluster, with the same operations, which
  end in the same order and with the same outcomes, and with the same extent server.
* `one_file_system`: the operations of an installation are those of one file system, each taking effect
  at once between its issue and its end.
-/
import Yfs.Installation

open Cluster

/-- A request that is short enough says which call it is. -/
theorem ExtentRpc.input_injective {c c' : Call} (hc : Fits c) (h : input c = input c') : c = c' := by
  obtain ⟨hproc, hbytes⟩ := ProcCall.mk.inj h
  obtain ⟨g, hg, hreads⟩ := reads_handlerArgs c
  obtain ⟨g', hg', hreads'⟩ := reads_handlerArgs c'
  rw [← hproc, hg] at hg'
  obtain rfl := Option.some.inj hg'
  rw [← hbytes] at hreads'
  have hsize : (([] : List UInt8) ++ c.bytes).length < 2 ^ 31 := by
    unfold Fits at hc
    rw [List.nil_append]
    omega
  obtain ⟨u, hu, -⟩ := okdone_of_reads hreads hsize
  obtain ⟨u', hu', -⟩ := okdone_of_reads hreads' hsize
  have heq := hu.symm.trans hu'
  rw [Option.some.injEq, Prod.mk.injEq] at heq
  exact heq.1

theorem ExtentRpc.proc_ne_bind (c : Call) : (input c).proc ≠ Rpcc.bindProc := by
  cases c <;> exact Nat.ne_of_beq_eq_false rfl

namespace Installation

variable {τ : Type} [DecidableEq τ] {nonces : Nonces τ} {admin : Prop}

/-- The clients with calls in one step. -/
abbrev Ideal (τ : Type) :=
  AtomicClients τ (Option FsProg) (List Inum × List (Operation τ)) State

/-- The session has come to where the clients are.  Nobody sleeps: an `acquire` is made there when it is
granted. -/
structure Matches (a : Ideal τ) (s : Session τ) : Prop where
  prog : s.cluster.prog = a.prog
  extents : s.cluster.extents = a.services .extent
  locked : s.cluster.locks.server.isLocked = a.services .lock
  idle : ∀ t, s.cluster.locks.phase t = .idle
  inums : s.cluster.inums = a.shared.1
  ops : s.ops = a.shared.2

/-- The steps of a session; without administration, no call fails and none is one of the
administration. -/
def SessionStep (admin : Prop) : Session τ → Act τ → Session τ → Prop :=
  Guarded (fun _ a => ¬ admin → a.Within FileSystem.Answered) Session.Step

namespace Matches

variable {a a' : Ideal τ} {s : Session τ} {t : τ}

/-- An `acquire` that is served is granted to the client. -/
theorem acquire (h : Matches a s) {i : LockId} {k : FsProg} (hp : a.prog t = some (.acquire i k))
    (hfree : a.services .lock i = false) : ∃ tr s', Trace (SessionStep admin) s tr s' ∧
      Matches { a with
        services := Function.update a.services .lock (Function.update (a.services .lock) i true)
        prog := Function.update a.prog t (some k) } s' := by
  have hspec := LockServer.acquire_spec s.cluster.locks.server i
  have hgranted : (s.cluster.locks.server.acquire i).1 = true := by
    rw [hspec.1, h.locked, hfree]
    rfl
  have hstep : Session.Step s (.acquire t) ⟨_, s.ops⟩ :=
    ⟨.acquire (h.prog ▸ hp) (h.idle t), rfl⟩
  refine ⟨[.acquire t], _, .single ⟨fun _ => trivial, hstep⟩, ?_⟩
  refine ⟨?_, ?_, ?_, ?_, h.inums, h.ops⟩
  · show Function.update s.cluster.prog t (some (if (s.cluster.locks.server.acquire i).1 then k else _)) = _
    rw [hgranted, if_pos rfl, h.prog]
  · dsimp only
    rw [Function.update_of_ne (by simp)]
    exact h.extents
  · dsimp only
    rw [Function.update_self, ← h.locked]
    exact LockRpc.table_granted hspec.2
  · intro u
    show Function.update s.cluster.locks.phase t
      (if (s.cluster.locks.server.acquire i).1 then .idle else _) u = .idle
    rw [hgranted, if_pos rfl]
    by_cases hu : u = t
    · subst hu
      exact Function.update_self ..
    · rw [Function.update_of_ne hu]
      exact h.idle u

/-- A `release` that is served frees the lock. -/
theorem release (h : Matches a s) {i : LockId} {k : FsProg} (hp : a.prog t = some (.release i k)) :
    ∃ tr s', Trace (SessionStep admin) s tr s' ∧ Matches { a with
      services := Function.update a.services .lock (Function.update (a.services .lock) i false)
      prog := Function.update a.prog t (some k) } s' := by
  have hen : s.cluster.locks.Enabled (.release t i []) := by
    refine ⟨by simp, ?_⟩
    rintro ⟨u, hu⟩
    rw [h.idle u] at hu
    cases hu
  have hstep : Session.Step s (.release t []) ⟨_, s.ops⟩ := ⟨.release (h.prog ▸ hp) hen, rfl⟩
  refine ⟨[.release t []], _, .single ⟨fun _ => trivial, hstep⟩, ?_⟩
  refine ⟨?_, ?_, ?_, ?_, h.inums, h.ops⟩
  · dsimp only
    rw [h.prog]
  · dsimp only
    rw [Function.update_of_ne (by simp)]
    exact h.extents
  · dsimp only
    rw [Function.update_self, ← h.locked]
    funext j
    show (s.cluster.locks.server.release i).isLocked j = _
    rw [LockServer.isLocked_release]
    by_cases hj : j = i
    · simp [hj]
    · simp [hj]
  · intro u
    show (if u ∈ [] then (s.cluster.locks.phase u).wake else s.cluster.locks.phase u) = .idle
    rw [if_neg (by simp)]
    exact h.idle u

/-- A call of the extent server is executed. -/
theorem call (h : Matches a s) {c : ExtentCall} {k : Resp → FsProg} {env : Env}
    (hp : a.prog t = some (.call c k)) : ∃ tr s', Trace (SessionStep admin) s tr s' ∧
      Matches { a with
        services := Function.update a.services .extent (serve env c (a.services .extent)).2
        prog := Function.update a.prog t (some (k (serve env c (a.services .extent)).1)) } s' := by
  have hanswers : Answers c s.cluster.extents (serve env c (a.services .extent)).1
      (serve env c (a.services .extent)).2 := by
    rw [← h.extents]
    exact .reply env
  have hstep : Session.Step s (.call t (serve env c (a.services .extent)).1) ⟨_, s.ops⟩ :=
    ⟨.call (h.prog ▸ hp) hanswers, rfl⟩
  have hok : FileSystem.Answered (serve env c (a.services .extent)).1 := by
    intro f hf
    cases hf
  refine ⟨[.call t (serve env c (a.services .extent)).1], _, .single ⟨fun _ => hok, hstep⟩, ?_⟩
  refine ⟨?_, ?_, ?_, h.idle, h.inums, h.ops⟩
  · dsimp only
    rw [h.prog]
  · dsimp only
    rw [Function.update_self]
  · dsimp only
    rw [Function.update_of_ne (by simp)]
    exact h.locked

/-- The administration of keys and groups. -/
theorem administration (h : Matches a s) (hadmin : admin) (env : Env) {c : Call} (hc : c.isAdmin = true) :
    ∃ tr s', Trace (SessionStep admin) s tr s' ∧ Matches { a with
      services := Function.update a.services .extent ((a.services .extent).exec env c).2 } s' := by
  have hstep : Session.Step s (.admin env c) ⟨_, s.ops⟩ := ⟨.admin env hc, rfl⟩
  refine ⟨[.admin env c], _, .single ⟨fun hn => absurd hadmin hn, hstep⟩, ?_⟩
  refine ⟨h.prog, ?_, ?_, h.idle, h.inums, h.ops⟩
  · dsimp only
    rw [Function.update_self, ← h.extents]
  · dsimp only
    rw [Function.update_of_ne (by simp)]
    exact h.locked

/-- Nothing has happened to the services. -/
theorem unchanged (h : Matches a s) {b : Service} {x : State b} (hx : x = a.services b) :
    ∃ tr s', Trace (SessionStep admin) s tr s' ∧
      Matches { a with services := Function.update a.services b x } s' := by
  refine ⟨[], s, .nil, ?_⟩
  rw [hx, Function.update_eq_self]
  exact h

/-- A call that is served takes its client further. -/
theorem served (h : Matches a s) {b : Service} {i : ProcCall} {o : ProcResult} {x : State b}
    (hnext : (code nonces admin).next t (a.prog t) = some (b, i))
    (hx : serves nonces b (a.services b) i o x) : ∃ tr s', Trace (SessionStep admin) s tr s' ∧
      Matches { a with
        services := Function.update a.services b x
        prog := Function.update a.prog t ((code nonces admin).resume (a.prog t) o) } s' := by
  obtain ⟨p, hp, hnext⟩ := Option.bind_eq_some_iff.1 hnext
  have hresume : (code nonces admin).resume (a.prog t) o = some (resume p o) := by
    rw [hp]
    rfl
  rw [hresume]
  cases p with
  | ret => cases hnext
  | acquire lid k =>
    cases hnext
    cases hx with
    | rpcbind hbind => cases hbind
    | service _ hx =>
      have heffect := hx.effect
      rw [LockRpc.request_input] at heffect
      obtain ⟨hfree, rfl⟩ := heffect
      exact h.acquire hp hfree
  | release lid k =>
    cases hnext
    cases hx with
    | rpcbind hbind => cases hbind
    | service _ hx =>
      have heffect := hx.effect
      rw [LockRpc.request_input] at heffect
      obtain rfl := heffect
      exact h.release hp
  | call c k =>
    rw [nextCall] at hnext
    split_ifs at hnext with hfits
    cases hnext
    cases hx with
    | rpcbind hbind => exact absurd hbind (ExtentRpc.proc_ne_bind c.toCall)
    | service _ hx =>
      obtain ⟨c', env, hi, rfl, hout⟩ := hx
      obtain rfl := ExtentRpc.input_injective hfits hi
      have hhdr : (List.replicate rpcHeaderSz (0 : UInt8)).length = rpcHeaderSz := List.length_replicate
      have hres : response c o = (serve env c (a.services .extent)).1 :=
        response_eq hhdr (hout _ hhdr)
      show ∃ tr s', _ ∧ Matches { a with
        services := Function.update a.services .extent (serve env c (a.services .extent)).2
        prog := Function.update a.prog t (some (k (response c o))) } s'
      rw [hres]
      exact h.call hp

/-- **Every step of the clients is a step of the session, or none.** -/
theorem step {l : AtomicLabel τ Service ProcResult (Act τ)} (h : Matches a s)
    (hs : AtomicClients.Step (code nonces admin) (serves nonces) a l a') :
    ∃ tr s', Trace (SessionStep admin) s tr s' ∧ Matches a' s' := by
  cases hs with
  | @own t l g p hown =>
    have hown : Own t a.shared (a.prog t) l g p := hown
    generalize hp : a.prog t = p₀ at hown
    cases hown with
    | issue cl hc =>
      rw [← h.inums] at hc
      have hstep : Session.Step s (.issue t cl _) ⟨_, _⟩ := ⟨.issue cl (h.prog ▸ hp) hc, rfl⟩
      refine ⟨[.issue t cl _], _, .single ⟨fun _ => trivial, hstep⟩, ?_⟩
      refine ⟨?_, h.extents, h.locked, h.idle, ?_, ?_⟩
      · dsimp only
        rw [h.prog]
      · dsimp only
        rw [h.inums]
      · dsimp only [record]
        rw [h.ops]
    | @finish o =>
      have hp' : s.cluster.prog t = some (.ret o) := h.prog ▸ hp
      have hstep : Session.Step s (.finish t) ⟨_, _⟩ := ⟨.finish hp', rfl⟩
      refine ⟨[.finish t], _, .single ⟨fun _ => trivial, hstep⟩, ?_⟩
      refine ⟨?_, h.extents, h.locked, h.idle, h.inums, ?_⟩
      · dsimp only
        rw [h.prog]
      · dsimp only [record]
        rw [hp', h.ops]
  | call hnext hx => exact h.served hnext hx
  | @outside b i o x hi hx =>
    cases b with
    | lock =>
      obtain hbind | ⟨hb, -⟩ := hi
      · apply h.unchanged
        cases hx with
        | rpcbind => rfl
        | service hne => exact absurd hbind hne
      · cases hb
    | extent =>
      obtain hbind | ⟨-, hadmin, c, hc, hfits, rfl⟩ := hi
      · apply h.unchanged
        cases hx with
        | rpcbind => rfl
        | service hne => exact absurd hbind hne
      · cases hx with
        | rpcbind => exact h.unchanged rfl
        | service _ hx =>
          obtain ⟨c', env, hi, rfl, -⟩ := hx
          obtain rfl := ExtentRpc.input_injective hfits hi
          exact h.administration hadmin env hc

end Matches

/-! ## Runs -/

/-- The installation has come to where the session is. -/
def Follows (nonces : Nonces τ) (admin : Prop) (s : Installation τ) (c : Session τ) : Prop :=
  Inv s ∧ ∃ a, Clients.Simulates (code nonces admin) s.toClients a ∧ Matches a c

variable {s s' : Installation τ} {c : Session τ}

theorem Follows.run (h : Follows nonces admin s c) {t : List (Label τ)}
    (ht : Trace (Step nonces admin) s t s') :
    ∃ tr c', Trace (SessionStep admin) c tr c' ∧ Follows nonces admin s' c' := by
  obtain ⟨hi, a, hsim, hmatch⟩ := h
  obtain ⟨hi', ls, hclients⟩ := refines_clients hi ht
  obtain ⟨ls', a', hatomic, hsim'⟩ := Clients.simulates hsim hclients
  obtain ⟨tr, c', hsession, hmatch'⟩ := Trace.simulated (fun _ _ _ _ hR hs => hR.step hs) hmatch hatomic
  exact ⟨tr, c', hsession, hi', a', hsim', hmatch'⟩

theorem follows_start (nonces : Nonces τ) (admin : Prop) (time : UInt32) (uid : UserId) (gid : GroupId) :
    Follows nonces admin (start nonces time uid gid) ⟨Cluster.start time uid gid, []⟩ := by
  refine ⟨inv_start nonces time uid gid, ⟨fun b => ((start nonces time uid gid).calls b).service,
    fun _ => none, [Fuse.root], []⟩, ⟨fun _ => rfl, rfl, fun _ => .free rfl, ?_, ?_⟩, ?_⟩
  · intro b k i hw
    cases b <;> cases hw
  · intro t t' b k ht
    cases ht
  · exact ⟨rfl, rfl, rfl, fun _ => rfl, rfl, rfl⟩

/-- What the session has in common with the installation. -/
theorem Follows.same (h : Follows nonces admin s c) :
    c.ops = s.ops ∧ c.cluster.extents = s.extents.service ∧ c.cluster.inums = s.inums ∧
      ∀ t, s.awaits t = none → c.cluster.prog t = s.prog t := by
  obtain ⟨-, a, hsim, hmatch⟩ := h
  refine ⟨?_, ?_, ?_, ?_⟩
  · rw [hmatch.ops, hsim.shared]
    rfl
  · rw [hmatch.extents, hsim.services]
    rfl
  · rw [hmatch.inums, hsim.shared]
    rfl
  · intro t ht
    rw [hmatch.prog]
    exact (hsim.standing t).of_free ht

/-- The steps of a session, whatever happens to its calls. -/
theorem session_trace {c' : Session τ} {tr : List (Act τ)} (h : Trace (SessionStep admin) c tr c') :
    Trace Session.Step c tr c' :=
  h.mono (fun _ _ _ hs => hs.2)

theorem answered_of_trace {c' : Session τ} {tr : List (Act τ)} (h : Trace (SessionStep False) c tr c') :
    ∀ a ∈ tr, a.Within FileSystem.Answered := by
  induction h with
  | nil => simp
  | snoc _ hs ih =>
    intro a ha
    rcases List.mem_append.1 ha with ha | ha
    · exact ih a ha
    · obtain rfl := List.mem_singleton.1 ha
      exact hs.1 id

/-- Nobody runs an operation, and no call of the administration is under way. -/
structure Quiet (s : Installation τ) : Prop where
  idle : ∀ t, s.prog t = none
  free : ∀ t, s.awaits t = none
  calls : ∀ k i, s.extents.toCalls.progress k = some (.waiting i) → i.proc = Rpcc.bindProc

/-- A quiet installation, when the operations are counted from now on. -/
def opened (s : Installation τ) : Installation τ := { s with ops := [] }

/-- From a quiet state on, a session without administration can be followed. -/
theorem Follows.opened (h : Follows nonces admin s c) (hquiet : s.Quiet) :
    Follows nonces False s.opened ⟨c.cluster, []⟩ := by
  obtain ⟨hi, a, hsim, hmatch⟩ := h
  refine ⟨⟨hi.locks, hi.extents⟩, ⟨a.services, a.prog, a.shared.1, []⟩, ⟨hsim.services, ?_, ?_, ?_, ?_⟩, ?_⟩
  · show (a.shared.1, []) = (s.inums, [])
    rw [hsim.shared]
    rfl
  · intro t
    have hstand := (hsim.standing t).of_free (hquiet.free t)
    dsimp only
    rw [hstand]
    exact .free (s := s.opened.toClients) (hquiet.free t)
  · intro b k i hw
    rcases hsim.waiting b k i hw with (hbind | ⟨rfl, -⟩) | ⟨t, ht⟩
    · exact .inl (.inl hbind)
    · exact .inl (.inl (hquiet.calls k i hw))
    · exact .inr ⟨t, ht⟩
  · exact hsim.distinct
  · exact ⟨hmatch.prog, hmatch.extents, hmatch.locked, hmatch.idle, hmatch.inums, rfl⟩

/-- An installation is quiet at some moment, and its extent server stores the file system `fs`.  From then
on clients issue proper operations, and keys and groups are not administered.  So there is a session that
it follows, whose completions are runs of the file system. -/
theorem exists_followed {time : UInt32} {uid : UserId} {gid : GroupId}
    {t₀ t : List (Label τ)} {s₀ : Installation τ} {fs : FileSystem}
    (h₀ : Trace (Step nonces admin) (start nonces time uid gid) t₀ s₀) (hquiet : s₀.Quiet)
    (hfs : FileSystem.Represents fs s₀.extents.service)
    (h : Trace (Step nonces False) s₀.opened t s) (hproper : ∀ x ∈ s.ops, x.call.Proper) :
    ∃ tr₀ c₀ tr c, Trace Cluster.Step (Cluster.start time uid gid) tr₀ c₀ ∧
      Trace Session.Step ⟨c₀, []⟩ tr c ∧ Follows nonces False s c ∧
      ∀ c', Completion c c' → ∃ order res fs', FileSystem.Atomically fs c' order res fs' := by
  obtain ⟨tr₀, c₀, hrun₀, hfollows₀⟩ := (follows_start nonces admin time uid gid).run h₀
  obtain ⟨-, hextents₀, -, hprog₀⟩ := hfollows₀.same
  obtain ⟨tr, c, hrun, hfollows⟩ := (hfollows₀.opened hquiet).run h
  have hcluster₀ : Trace Cluster.Step (Cluster.start time uid gid) tr₀ c₀.cluster :=
    cluster_trace (session_trace hrun₀)
  have hidle₀ : ∀ t, c₀.cluster.prog t = none := by
    intro t
    rw [hprog₀ t (hquiet.free t), hquiet.idle t]
  rw [← hextents₀] at hfs
  have hproper' : ∀ x ∈ c.ops, x.call.Proper := by
    rw [hfollows.same.1]
    exact hproper
  refine ⟨tr₀, c₀.cluster, tr, c, hcluster₀, session_trace hrun, hfollows, ?_⟩
  intro c' hcom
  exact FileSystem.atomically_of_completion hcluster₀ hidle₀ hfs (session_trace hrun)
    (answered_of_trace hrun) hproper' hcom

/-- What the lock server and its network do by themselves. -/
theorem trace_locks {ls : List Remote.WaitLabel} {locks : Remote LockRpc.Server}
    (h : Trace (LockRpc.LockStep nonces.lockServer) s.locks ls locks)
    (hl : ∀ l ∈ ls, s.LockBackground l) :
    Trace (Step nonces admin) s (ls.map .locks) { s with locks := locks } := by
  induction h with
  | nil => exact .nil
  | @snoc ls locks locks' l _ hs ih =>
    rw [List.map_append]
    have hbackground : LockBackground { s with locks := locks } l := hl l (by simp)
    exact (ih (fun l' hl' => hl l' (List.mem_append_left _ hl'))).snoc (.locks hbackground hs)

/-- The servers have the nonces 5 and 6, the two `rpcc`s of the only client 7 and 8. -/
def oneClient : Nonces Unit := ⟨5, 6, fun _ => 7, fun _ => 8⟩

/-- Its `lock_client` has bound the lock server. -/
theorem exists_bound_client (admin : Prop) : ∃ t r,
    Trace (Step oneClient admin) (start oneClient 0 0 0) t
      { start oneClient 0 0 0 with locks := ⟨r, .start⟩ } ∧
    ((r.clients 7).bindDone = true ∧ (r.clients 7).destroyWait = false ∧ (r.clients 7).xid = 2) ∧
    r.count 7 = 1 := by
  have hbind : ((RpcSystem.init 5).run (RpcSystem.SafeBelow 1) (RpcSystem.binding 7 5)).any (fun s =>
      decide (((s.clients 7).bindDone = true ∧ (s.clients 7).destroyWait = false ∧
        (s.clients 7).xid = 2) ∧ s.count 7 = 1 ∧
        s.execs = [⟨⟨1, 1, 7, 0, 0, []⟩, 0, packInt 5⟩])) = true := by
    decide +kernel
  obtain ⟨r, ht, hr⟩ := RpcSystem.exists_trace hbind
  obtain ⟨hclient, hcount, hexecs⟩ := of_decide_eq_true hr
  have hrun : Trace (LockRpc.LockStep 5) (LockRpc.start 5) ((RpcSystem.binding 7 5).map .rpc)
      ⟨r, .start⟩ := by
    refine Remote.exists_waited (fun _ => LockServer.Sys.start) (RpcSystem.trace_safe ht).1 ?_ ?_
    · simp [RpcSystem.binding, RpcSystem.served, Remote.Asks]
    · rw [hexecs]
      rintro execs e ⟨rest, hrest⟩ j
      rcases execs with - | ⟨e₁, execs⟩
      · cases hrest
        exact .rpcbind rfl
      · simp at hrest
  refine ⟨_, r, trace_locks (s := start oneClient 0 0 0) hrun ?_, hclient, hcount⟩
  simp [RpcSystem.binding, RpcSystem.served, LockBackground, start]

/-- It calls `acquire`. -/
theorem exists_lock_call {admin : Prop} {t : List (Label Unit)} {s₀ s : Installation Unit}
    {r : RpcSystem} {lid : LockId} {k : FsProg} (h : Trace (Step oneClient admin) s₀ t s)
    (hlocks : s.locks = ⟨r, .start⟩) (hp : s.prog () = some (.acquire lid k))
    (hfree : s.awaits () = none)
    (hclient : (r.clients 7).bindDone = true ∧ (r.clients 7).destroyWait = false ∧
      (r.clients 7).xid = 2) (hcount : r.count 7 = 1) :
    ∃ s', Trace (Step oneClient admin) s₀ (t ++ [.call ()]) s' ∧ s'.ops = s.ops ∧
      s'.awaits () = some (.lock, (7, 2)) := by
  obtain ⟨hdone, hwait, hxid⟩ := hclient
  have hsize : rpcHeaderSz + (LockRpc.LockCall.bytes ⟨.acquire, 7, lid⟩).length < 2 ^ 30 := by
    rw [LockRpc.length_bytes]
    decide
  obtain ⟨m, hm, hbody⟩ :=
    ExtentRpc.body_of_writes (LockRpc.writes_marshal ⟨.acquire, 7, lid⟩) hsize (fun _ => 0)
  obtain ⟨q, cl, hcall⟩ : ∃ q cl, (r.clients 7).call1 7 LockRpc.Proc.acquire.code m.body = .ok (q, cl) := by
    rw [Rpcc.call1, if_neg (by rw [hdone]; decide), if_neg (by rw [hwait]; decide)]
    exact ⟨_, _, rfl⟩
  have hstep : LockRpc.LockStep 5 ⟨r, .start⟩ (.rpc (.call 7 LockRpc.Proc.acquire.code m.body))
      ⟨{ r.setClient 7 cl with requests := r.requests ++ [q] }, .start⟩ := by
    refine ⟨⟨.inr ⟨⟨.acquire, 7, lid⟩, _, m, rfl, hm, rfl⟩, RpcSystem.safe_of_unclassified ?_ rfl⟩,
      .other ?_ ?_⟩
    · refine ⟨by decide, ?_⟩
      rw [hcount]
      decide
    · unfold RpcSystem.Step
      rw [RpcSystem.step, hcall]
    · intro j ret body heq
      cases heq
  rw [← hlocks] at hstep
  have hcall' : (s.locks.rpc.clients (oneClient.lockClient ())).call1 (oneClient.lockClient ())
      LockRpc.Proc.acquire.code m.body = .ok (q, cl) := by
    rw [hlocks]
    exact hcall
  refine ⟨_, h.snoc (.lockCall hp rfl hfree hm hcall' hstep), rfl, ?_⟩
  dsimp only
  rw [Function.update_self, (Rpcc.call1_ok hcall).1, Request.key, hxid]

/-- The client looks up a name in the root; its `acquire` is under way. -/
theorem exists_waiting_client (admin : Prop) : ∃ t s,
    Trace (Step oneClient admin) (start oneClient 0 0 0) t s ∧
      s.ops.map (fun x => x.call) = [.lookup Fuse.root [97]] ∧ s.awaits () = some (.lock, (7, 2)) := by
  have hname : ProperName [97] := ⟨by decide, 97, by simp, by decide⟩
  obtain ⟨t, r, hbound, hclient, hcount⟩ := exists_bound_client admin
  have hissue := hbound.snoc (.issue (t := ()) (c := .lookup Fuse.root [97])
    ⟨3, [], 3, 3, default, 0⟩ rfl rfl ⟨by decide, hname⟩)
  obtain ⟨s, hcall, hops, hawaits⟩ :=
    exists_lock_call hissue rfl rfl rfl hclient hcount
  exact ⟨_, s, hcall, by rw [hops]; rfl, hawaits⟩

end Installation
