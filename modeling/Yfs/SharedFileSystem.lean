/-
# Many clients, one file system

The concurrent runs of the clients, in which no call fails in the RPC layer, are runs of the file
system of `Yfs.FileSystem`.  The steps are: a session has a linearisation (`exists_linearisation`), and
each operation of the linearisation is one step of the file system (`does_of_alone`).

* `represents_admin`: the extent server stores a file system from its start on, and the administration
  of keys and groups leaves the nodes alone.
* `atomic_file_system`: the main result.
* `never_undefined`: what follows for the outcomes at any moment of a session.
-/
import Yfs.FileSystemRefinement

open YfsClient

namespace FileSystem

/-! ## The start and the administration -/

/-- The file system before the first call: an empty root. -/
def start (time : UInt32) (uid : UserId) (gid : GroupId) : FileSystem where
  nodes i := if i = Fuse.root then some ⟨time, time, time, 0o777, uid, gid, .dir Directory.empty⟩
    else none
  keys _ := []
  groups _ := ∅

theorem represents_start (time : UInt32) (uid : UserId) (gid : GroupId) :
    Represents (start time uid gid) (ExtentServer.init time uid gid) where
  attrs := by
    funext i
    by_cases hi : i = 1
    · subst hi
      rfl
    · simp [ExtentServer.init, StdMap.set_of_ne, start, Fuse.root, hi]
  contents := by
    funext i
    by_cases hi : i = 1
    · subst hi
      rfl
    · simp [ExtentServer.init, StdMap.set_of_ne, start, Fuse.root, hi]
  keys u := rfl
  groups g := rfl
  fits i n hn := by
    by_cases hi : i = Fuse.root
    · subst hi
      obtain rfl : (⟨time, time, time, 0o777, uid, gid, .dir Directory.empty⟩ : Node) = n := by
        simpa [start] using hn
      have hroot : isdir Fuse.root := by decide
      exact hroot
    · simp [start, hi] at hn

/-- The administration of keys and groups leaves the nodes alone. -/
theorem represents_admin {fs : FileSystem} {s : ExtentServer} (hr : Represents fs s) (env : Env)
    {c : Call} (hc : c.isAdmin = true) :
    ∃ fs', fs'.nodes = fs.nodes ∧ Represents fs' (s.exec env c).2 := by
  have hstep : ExtentServer.Step s ⟨env, c, (s.exec env c).1⟩ (s.exec env c).2 := rfl
  have heff := ExtentServer.step_effect hr.sameKeys hstep
  have hsame : (s.exec env c).2.attrs = s.attrs ∧ (s.exec env c).2.contents = s.contents := by
    generalize (s.exec env c).2 = s', (s.exec env c).1 = r at heff
    cases heff with
    | unchanged hattrs hcontents _ => exact ⟨hattrs, hcontents⟩
    | put | get | setattr | remove => cases hc
  refine ⟨{ fs with
    keys := (s.exec env c).2.userkeys.get, groups := (s.exec env c).2.groupusers.get }, rfl, ?_⟩
  exact ⟨hsame.1.trans hr.attrs, hsame.2.trans hr.contents, fun _ => rfl, fun _ => rfl, hr.fits⟩

/-! ## Concurrent operations -/

variable {τ : Type} [DecidableEq τ]

/-- A serial run of operations is a run of the file system. -/
theorem runs_of_serial {K : Type} {cl : K → YfsClient} {call : K → FsCall}
    {res : K → Outcome FsReply} {order : List K} {s s' : ExtentServer} {fs : FileSystem}
    (hproper : ∀ k, (call k).Proper)
    (h : TwoPhase.Serial serve (fun k => (call k).prog (cl k)) res s order s')
    (hr : Represents fs s) :
    ∃ fs', fs.Runs (order.map (fun k => (cl k, call k, res k))) fs' ∧ Represents fs' s' := by
  induction h generalizing fs with
  | nil => exact ⟨fs, .nil, hr⟩
  | cons h _ ih =>
    obtain ⟨fs₁, hdoes, hr₁⟩ := does_of_alone hr (hproper _) h
    obtain ⟨fs₂, hruns, hr₂⟩ := ih hr₁
    exact ⟨fs₂, .cons hdoes hruns, hr₂⟩

/-- The operations of the session `s`, all of which have ended, are a run of the file system from `fs`
to `fs'`, which the extent server stores in the end.  Each of them takes effect at once, between the
moments at which it was issued and ended. -/
structure Atomically (fs : FileSystem) (s : Cluster.Session τ) (order : List (Fin s.ops.length))
    (res : Fin s.ops.length → Outcome FsReply) (fs' : FileSystem) : Prop where
  nodup : order.Nodup
  all : ∀ k, k ∈ order
  outcomes : ∀ k, ∃ m, (s.ops.get k).ended = some (res k, m)
  runs : fs.Runs (order.map (fun k => ((s.ops.get k).cl, (s.ops.get k).call, res k))) fs'
  represents : Represents fs' s.cluster.extents
  realtime : ∀ a b : Fin s.ops.length, Cluster.Before s.ops a b → order.idxOf a < order.idxOf b

/-- A response of the extent server. -/
def Answered (r : Resp) : Prop := ∀ f, r ≠ .failed f

open Cluster

omit [DecidableEq τ] in
/-- A step of a completion is one of an operation, and no call fails in it. -/
theorem answered_of_completes {a : Act τ} (h : a.completes = true) : a.Within Answered := by
  cases a with
  | admin env c => cases h
  | call t r =>
    rintro f rfl
    cases h
  | _ => trivial

/-- The calls stay the same in a completion. -/
theorem proper_of_completion {s s' : Session τ} (h : Completion s s')
    (hproper : ∀ x ∈ s.ops, x.call.Proper) (k : Fin s'.ops.length) :
    (s'.ops.get k).call.Proper := by
  obtain ⟨x, hx⟩ : ∃ x, s.ops[(k : ℕ)]? = some x :=
    ⟨_, List.getElem?_eq_getElem (h.length ▸ k.2)⟩
  obtain ⟨y, hy, hxy⟩ := h.grows k x hx
  rw [List.getElem?_eq_getElem k.2, Option.some.injEq] at hy
  rw [List.get_eq_getElem, hy, hxy.call]
  exact hproper x (List.mem_of_getElem? hx)

theorem atomically_of_completion {time : UInt32} {uid : UserId} {gid : GroupId}
    {tr₀ tr : List (Act τ)} {s₀ : Cluster τ} {s s' : Session τ} {fs : FileSystem}
    (h₀ : Trace Step (Cluster.start time uid gid) tr₀ s₀) (hidle : ∀ t, s₀.prog t = none)
    (hfs : Represents fs s₀.extents) (h : Trace Session.Step ⟨s₀, []⟩ tr s)
    (hok : ∀ a ∈ tr, a.Within Answered) (hproper : ∀ x ∈ s.ops, x.call.Proper)
    (hcom : Completion s s') : ∃ order res fs', Atomically fs s' order res fs' := by
  obtain ⟨tr₁, h₁, hc₁⟩ := hcom.run
  obtain ⟨order, res, hlin⟩ := exists_linearisation Answered serve_commutes
    (fun _ _ _ _ hr hans => serve_of_answers hr hans) hidle (isLocked_of_idle h₀ hidle)
    (h.append h₁) (by
      intro a ha
      rcases List.mem_append.1 ha with ha | ha
      · exact hok a ha
      · exact answered_of_completes (hc₁ a ha)) hcom.idle
  obtain ⟨fs', hruns, hr⟩ := runs_of_serial (proper_of_completion hcom hproper) hlin.serial hfs
  exact ⟨order, res, fs', hlin.nodup, hlin.all, hlin.outcomes, hruns, hr, hlin.realtime⟩

/-- **The clients share one file system.**  A session of proper operations that starts when nobody runs
one, without administration and without failing calls from then on, can be completed; and in every
completion the operations are a run of the file system the extent server stored at the start, each
taking effect at once between its issue and its end, and the extent server stores the file system this
run leads to. -/
theorem atomic_file_system [Fintype τ] {time : UInt32} {uid : UserId} {gid : GroupId}
    {tr₀ tr : List (Act τ)} {s₀ : Cluster τ} {s : Session τ} {fs : FileSystem}
    (h₀ : Trace Step (Cluster.start time uid gid) tr₀ s₀) (hidle : ∀ t, s₀.prog t = none)
    (hfs : Represents fs s₀.extents) (h : Trace Session.Step ⟨s₀, []⟩ tr s)
    (hok : ∀ a ∈ tr, a.Within Answered) (hproper : ∀ x ∈ s.ops, x.call.Proper) :
    (∃ s', Completion s s') ∧ ∀ s', Completion s s' →
      ∃ order res fs', Atomically fs s' order res fs' :=
  ⟨exists_completion h₀ h, fun _ hcom =>
    atomically_of_completion h₀ hidle hfs h hok hproper hcom⟩

/-- One client creates a file in the root, another one waits for the root. -/
theorem atomic_file_system_waiting :
    ∃ (tr : List (Act Bool)) (s s' : Session Bool),
      Trace Session.Step ⟨(Cluster.start 0 0 0 : Cluster Bool), []⟩ tr s ∧ s.cluster.Waits true 1 ∧
      Completion s s' ∧ ∃ order res fs', Atomically (start 0 0 0) s' order res fs' := by
  let cl : YfsClient := ⟨3, [], 3, 3, default, 0⟩
  have hname : ProperName [97] := ⟨by decide, 97, by simp, by decide⟩
  have h₁ : Trace Session.Step ⟨(Cluster.start 0 0 0 : Cluster Bool), []⟩ _ _ :=
    Session.snoc .nil (.issue (t := false) (c := .create Fuse.root 0x80000005 [97] 0o644) cl rfl
      ⟨by decide, by decide, by decide, hname⟩)
  have h₂ := Session.snoc h₁ (.acquire (t := false) rfl rfl)
  have h₃ := Session.snoc h₂ (.issue (t := true) (c := .lookup Fuse.root [97]) cl rfl
    ⟨by decide, hname⟩)
  have h₄ := Session.snoc h₃ (.acquire (t := true) rfl rfl)
  have hproper : ∀ x ∈ [(⟨false, cl, .create Fuse.root 0x80000005 [97] 0o644, none⟩ : Operation Bool),
      ⟨true, cl, .lookup Fuse.root [97], none⟩], x.call.Proper := by
    intro x hx
    rcases List.mem_cons.1 hx with rfl | hx
    · exact ⟨by decide, by decide, hname⟩
    · obtain rfl := List.mem_singleton.1 hx
      exact ⟨by decide, hname⟩
  have h₀ : Trace Step (Cluster.start 0 0 0 : Cluster Bool) [] (Cluster.start 0 0 0) := .nil
  obtain ⟨⟨s', hs'⟩, hall⟩ := atomic_file_system h₀ (fun _ => rfl) (represents_start 0 0 0) h₄
    (by simp [Act.Within]) hproper
  exact ⟨_, _, s', h₄, rfl, hs', hall s' hs'⟩

/-! ## The outcomes of the operations -/

theorem Runs.exists_does {fs fs' : FileSystem} {xs : List (YfsClient × FsCall × Outcome FsReply)}
    (h : fs.Runs xs fs') {cl : YfsClient} {c : FsCall} {o : Outcome FsReply} (hm : (cl, c, o) ∈ xs) :
    ∃ fs₁ fs₂, Does cl fs₁ c o fs₂ := by
  induction h with
  | nil => cases hm
  | cons h _ ih =>
    rcases List.mem_cons.1 hm with heq | hm
    · cases heq
      exact ⟨_, _, h⟩
    · exact ih hm

/-- The calls that may throw: when the directory string gets too long, at an offset beyond the end, and
when there are fewer bytes than are to be cut off. -/
def MayThrow : FsCall → Prop
  | .create .. | .read .. | .truncate .. => True
  | _ => False

theorem Does.outcome {cl : YfsClient} {fs fs' : FileSystem} {c : FsCall} {o : Outcome FsReply}
    (h : Does cl fs c o fs') : o ≠ .undef ∧ (o = .throw → MayThrow c) := by
  cases h <;> simp [MayThrow]

/-- **No operation runs into undefined behaviour.**  At every moment of a session of proper operations
without failing calls, whatever the interleaving: the operations that have ended have returned or thrown
an exception, and only `create`, `read` and `truncate` throw. -/
theorem never_undefined [Fintype τ] {time : UInt32} {uid : UserId} {gid : GroupId}
    {tr₀ tr : List (Act τ)} {s₀ : Cluster τ} {s : Session τ} {fs : FileSystem}
    (h₀ : Trace Step (Cluster.start time uid gid) tr₀ s₀) (hidle : ∀ t, s₀.prog t = none)
    (hfs : Represents fs s₀.extents) (h : Trace Session.Step ⟨s₀, []⟩ tr s)
    (hok : ∀ a ∈ tr, a.Within Answered) (hproper : ∀ x ∈ s.ops, x.call.Proper) :
    ∀ x ∈ s.ops, ∀ o m, x.ended = some (o, m) → o ≠ .undef ∧ (o = .throw → MayThrow x.call) := by
  intro x hx o m hended
  obtain ⟨s', hcom⟩ := exists_completion h₀ h
  obtain ⟨order, res, fs', hatom⟩ := atomically_of_completion h₀ hidle hfs h hok hproper hcom
  -- the operation is still there in the completion, with its outcome
  obtain ⟨k, hk⟩ := List.getElem?_of_mem hx
  obtain ⟨y, hy, hxy⟩ := hcom.grows k x hk
  obtain ⟨hlt, rfl⟩ := List.getElem?_eq_some_iff.1 hy
  obtain ⟨m', hres⟩ := hatom.outcomes ⟨k, hlt⟩
  rw [List.get_eq_getElem, hxy.ended _ hended, Option.some.injEq, Prod.mk.injEq] at hres
  obtain ⟨fs₁, fs₂, hdoes⟩ := hatom.runs.exists_does
    (List.mem_map_of_mem (hatom.all ⟨k, hlt⟩))
  rw [← hres.1, List.get_eq_getElem, hxy.call] at hdoes
  exact hdoes.outcome

/-- A `lookup` in the empty root. -/
theorem never_undefined_lookup :
    ∃ (tr : List (Act Unit)) (s : Session Unit) (x : Operation Unit) (o : Outcome FsReply),
      Trace Session.Step ⟨(Cluster.start 0 0 0 : Cluster Unit), []⟩ tr s ∧ x ∈ s.ops ∧
      x.ended = some (o, 1) ∧ o ≠ .undef := by
  let cl : YfsClient := ⟨3, [], 3, 3, default, 0⟩
  have hname : ProperName [97] := ⟨by decide, 97, by simp, by decide⟩
  have h₁ : Trace Session.Step ⟨(Cluster.start 0 0 0 : Cluster Unit), []⟩ _ _ :=
    Session.snoc .nil (.issue (t := ()) (c := .lookup Fuse.root [97]) cl rfl ⟨by decide, hname⟩)
  have h₂ := Session.snoc h₁ (.acquire (t := ()) rfl rfl)
  have h₃ := Session.snoc h₂ (.call (t := ()) rfl (.reply default))
  have h₄ := Session.snoc (a := Act.release () []) h₃ (.release (i := 1)
    (k := done .NOENT (.fnum 0)) rfl ⟨by simp, by rintro ⟨u, hu⟩; cases hu⟩)
  have h₅ := Session.snoc h₄ (.finish (t := ()) rfl)
  have h₀ : Trace Step (Cluster.start 0 0 0 : Cluster Unit) [] (Cluster.start 0 0 0) := .nil
  have hproper : ∀ x ∈ [(⟨(), cl, .lookup Fuse.root [97], some (.ret ⟨.NOENT, .fnum 0⟩, 1)⟩ :
      Operation Unit)], x.call.Proper := by
    intro x hx
    obtain rfl := List.mem_singleton.1 hx
    exact ⟨by decide, hname⟩
  have hund := never_undefined h₀ (fun _ => rfl) (represents_start 0 0 0) h₅
    (by simp [Act.Within, Answered, serve]) hproper
  exact ⟨_, _, _, _, h₅, List.mem_singleton_self _, rfl, (hund _ (List.mem_singleton_self _) _ _ rfl).1⟩

end FileSystem
