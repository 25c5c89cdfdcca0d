/-
# Serialisability of file system operations

Any number of clients run operations of `yfs_client` at the same time, interleaved at single lock and
extent calls.  The lock server grants a lock to one client at a time; every extent call reaches the
extent server once and comes back.

The extents are the objects of `Yfs.TwoPhase`, each guarded by the lock of the same number.  Two facts
about the code make the general result apply:

* calls on different extents commute (`serve_commutes`), although both insert keys and groups: a call
  sees only its own extent and the values of the keys and groups (`local_exec`);
* every operation is scoped, hence two-phase (`scoped_prog`).
-/
import Yfs.ExtentAccess
import Yfs.TwoPhase
import Yfs.YfsClient

namespace ExtentServer

/-! ## What a call sees and what it changes -/

/-- What a call on `id` by `userid` depends on. -/
structure View where
  attr : Option Attr
  content : Option Str
  key : Str
  members : GroupId → Finset UserId

def view (s : ExtentServer) (id : ExtentId) (userid : UserId) : View :=
  ⟨s.attrs id, s.contents id, s.userkeys.get userid, s.groupusers.get⟩

/-- What a call changes: the record and the contents of its extent, and the key and the group that it
inserts. -/
structure Delta where
  attr : Option Attr
  content : Option Str
  key : Option UserId
  group : Option GroupId

/-- The state after the change. -/
def amend (s : ExtentServer) (id : ExtentId) (δ : Delta) : ExtentServer where
  attrs := Function.update s.attrs id δ.attr
  contents := Function.update s.contents id δ.content
  userkeys := δ.key.elim s.userkeys s.userkeys.touch
  groupusers := δ.group.elim s.groupusers s.groupusers.touch

/-- A change of one extent is not seen by a call on another. -/
theorem view_amend (s : ExtentServer) {id id' : ExtentId} (userid : UserId) (δ : Delta)
    (h : id' ≠ id) : (s.amend id δ).view id' userid = s.view id' userid := by
  obtain ⟨a, c, key, group⟩ := δ
  have hkey : (key.elim s.userkeys s.userkeys.touch).get userid = s.userkeys.get userid := by
    cases key with
    | none => rfl
    | some u => exact StdMap.get_touch s.userkeys u userid
  have hgroup : (group.elim s.groupusers s.groupusers.touch).get = s.groupusers.get := by
    funext g'
    cases group with
    | none => rfl
    | some g => exact StdMap.get_touch s.groupusers g g'
  simp only [view, amend, Function.update_of_ne h, hkey, hgroup]

/-- Changes of different extents commute. -/
theorem amend_comm (s : ExtentServer) {id id' : ExtentId} (δ δ' : Delta) (h : id ≠ id') :
    (s.amend id δ).amend id' δ' = (s.amend id' δ').amend id δ := by
  have htouch : ∀ {K V : Type} [DecidableEq K] [Inhabited V] (m : StdMap K V) (o o' : Option K),
      o'.elim (o.elim m m.touch) (o.elim m m.touch).touch =
        o.elim (o'.elim m m.touch) (o'.elim m m.touch).touch := by
    intro K V _ _ m o o'
    cases o with
    | none => rfl
    | some k =>
      cases o' with
      | none => rfl
      | some k' => exact StdMap.touch_comm m k k'
  simp only [amend, Function.update_comm h, htouch]

/-- The state after a permission check for `userid` that has looked at the group `group`, if any. -/
def afterCheck (s : ExtentServer) (userid : UserId) (group : Option GroupId) : ExtentServer :=
  { s with
    userkeys := s.userkeys.touch userid
    groupusers := group.elim s.groupusers s.groupusers.touch }

/-- A permission check depends on the view of the caller. -/
theorem hasPerm_local (bits : PermBits) (id : ExtentId) (userid : UserId) (userkey : Str)
    (v : View) :
    ∃ b group, ∀ s : ExtentServer, s.view id userid = v →
      hasPerm bits s id userid userkey = (b, s.afterCheck userid group) := by
  obtain ⟨a, c, key, members⟩ := v
  -- the branches of `has_perm`: only the last one looks the group up
  by_cases hkey : key = userkey
  · subst hkey
    cases a with
    | none =>
      refine ⟨true, none, ?_⟩
      intro s hs
      simp only [view, View.mk.injEq] at hs
      simp [hasPerm, authenticate, touchKey, hs.1, hs.2.2.1, afterCheck]
    | some a =>
      by_cases h₁ : a.mode &&& bits.other ≠ 0
      · refine ⟨true, none, ?_⟩
        intro s hs
        simp only [view, View.mk.injEq] at hs
        simp [hasPerm, authenticate, touchKey, hs.1, hs.2.2.1, h₁, afterCheck]
      · by_cases h₂ : a.uid = userid ∧ a.mode &&& bits.owner ≠ 0
        · refine ⟨true, none, ?_⟩
          intro s hs
          simp only [view, View.mk.injEq] at hs
          simp [hasPerm, authenticate, touchKey, hs.1, hs.2.2.1, h₂, afterCheck]
        · refine ⟨decide (userid ∈ members a.gid) && decide (a.mode &&& bits.group ≠ 0),
            some a.gid, ?_⟩
          intro s hs
          simp only [view, View.mk.injEq] at hs
          simp only [hasPerm, authenticate, touchKey, hs.1, hs.2.2.1, beq_self_eq_true, if_neg h₁,
            if_neg h₂, ingroup, touchGroup, hs.2.2.2, afterCheck, Option.elim]
  · refine ⟨false, none, ?_⟩
    intro s hs
    simp only [view, View.mk.injEq] at hs
    have hbeq : (s.userkeys.get userid == userkey) = false := by
      rw [hs.2.2.1]
      simpa using hkey
    simp [hasPerm, authenticate, touchKey, hbeq, afterCheck]

/-- A permission check changes neither the record nor the contents. -/
theorem afterCheck_eq_amend (s : ExtentServer) (id : ExtentId) (userid : UserId)
    (group : Option GroupId) :
    s.afterCheck userid group = s.amend id ⟨s.attrs id, s.contents id, some userid, group⟩ := by
  simp [afterCheck, amend]

/-- The record `put` stores depends on the record that is there. -/
theorem putAttr_local (env : Env) (id : ExtentId) (buf : Str) (a : Option Attr) :
    ∃ a', ∀ s : ExtentServer, s.attrs id = a → putAttr env s id buf = a' := by
  cases a with
  | none => exact ⟨_, fun s hs => by rw [putAttr, hs]⟩
  | some a => exact ⟨_, fun s hs => by rw [putAttr, hs]⟩

/-- An operation on `id` by `userid` that depends on its view and changes its own extent only. -/
def Local (id : ExtentId) (userid : UserId) (f : ExtentServer → Reply × ExtentServer) : Prop :=
  ∀ v, ∃ r δ, ∀ s : ExtentServer, s.view id userid = v → f s = (r, s.amend id δ)

/-- A guarded operation is local when it is local after the check. -/
theorem local_guarded (bits : PermBits) {id : ExtentId} {userid : UserId} (userkey : Str)
    (body : ExtentServer → ExtentServer → Reply × ExtentServer)
    (h : ∀ v group, ∃ r a c, ∀ s : ExtentServer, s.view id userid = v →
      body s (s.afterCheck userid group) = (r, s.amend id ⟨a, c, some userid, group⟩)) :
    Local id userid (fun s => guarded bits id userid userkey (body s) s) := by
  intro v
  obtain ⟨b, group, hp⟩ := hasPerm_local bits id userid userkey v
  cases b with
  | false =>
    refine ⟨⟨.NOACCESS, [], default⟩, ⟨v.attr, v.content, some userid, group⟩, ?_⟩
    intro s hs
    subst hs
    simp only [guarded, hp s rfl, s.afterCheck_eq_amend id]
    rfl
  | true =>
    obtain ⟨r, a, c, hb⟩ := h v group
    refine ⟨r, ⟨a, c, some userid, group⟩, ?_⟩
    intro s hs
    simp only [guarded, hp s hs, hb s hs]

theorem local_ifContents (bits : PermBits) (id : ExtentId) (userid : UserId) (userkey : Str)
    (r : Str → Reply) (new : Option Attr → Str → Option Attr × Option Str) :
    Local id userid (guarded bits id userid userkey (ifContents id r new)) := by
  refine local_guarded bits userkey (fun _ => ifContents id r new) ?_
  rintro ⟨a, content, key, members⟩ group
  cases content with
  | none =>
    refine ⟨⟨.NOENT, [], default⟩, a, none, ?_⟩
    intro s hs
    simp only [view, View.mk.injEq] at hs
    have hc : (s.afterCheck userid group).contents id = none := hs.2.1
    rw [ifContents, hc, s.afterCheck_eq_amend id, hs.1, hs.2.1]
  | some buf =>
    refine ⟨r buf, (new a buf).1, (new a buf).2, ?_⟩
    intro s hs
    simp only [view, View.mk.injEq] at hs
    have ha : (s.afterCheck userid group).attrs id = a := hs.1
    have hc : (s.afterCheck userid group).contents id = some buf := hs.2.1
    rw [ifContents, hc, ha]
    rfl

theorem local_put (env : Env) (id : ExtentId) (buf : Str) (userid : UserId) (userkey : Str) :
    Local id userid (fun s => put env s id buf userid userkey) := by
  refine local_guarded writeBits userkey (fun s t =>
    (⟨.OK, [], default⟩,
      { t with
        attrs := t.attrs.set id (putAttr env s id buf), contents := t.contents.set id buf })) ?_
  intro v group
  obtain ⟨a, ha⟩ := putAttr_local env id buf v.attr
  refine ⟨⟨.OK, [], default⟩, some a, some buf, ?_⟩
  intro s hs
  subst hs
  rw [ha s rfl]
  rfl

theorem local_getattr (id : ExtentId) (userid : UserId) :
    Local id userid (fun s => getattr s id) := by
  rintro ⟨a, content, key, members⟩
  cases content with
  | none =>
    refine ⟨⟨.NOENT, [], ⟨0, 0, 0, 0, 0o777, 0, 0⟩⟩, ⟨a, none, none, none⟩, ?_⟩
    intro s hs
    simp only [view, View.mk.injEq] at hs
    simp only [getattr, hs.2.1, amend, Option.elim, ← hs.1]
    simp only [← hs.2.1, Function.update_eq_self]
  | some buf =>
    refine ⟨⟨.OK, [], a.getD default⟩, ⟨some (a.getD default), some buf, none, none⟩, ?_⟩
    intro s hs
    simp only [view, View.mk.injEq] at hs
    simp only [getattr, hs.2.1, StdMap.touch_eq_update, StdMap.get, hs.1, amend, Option.elim]
    simp only [← hs.2.1, Function.update_eq_self]

/-- **A call depends on its view and changes its own extent only.** -/
theorem local_exec (env : Env) (c : ExtentCall) :
    Local c.id c.userid (fun s => exec env s c.toCall) := by
  obtain ⟨op, id, userid, userkey⟩ := c
  cases op with
  | put buf => exact local_put env id buf userid userkey
  | get =>
    simp only [ExtentCall.toCall, exec, get_eq]
    exact local_ifContents readBits id userid userkey _ _
  | getattr => exact local_getattr id userid
  | setattr a =>
    simp only [ExtentCall.toCall, exec, setattr_eq]
    exact local_ifContents writeBits id userid userkey _ _
  | remove =>
    simp only [ExtentCall.toCall, exec, remove_eq]
    exact local_ifContents writeBits id userid userkey _ _

end ExtentServer

/-! ## The two conditions of serialisability -/

/-- **Calls on different extents commute.** -/
theorem serve_commutes : TwoPhase.Commutes ExtentCall.id serve := by
  intro env env' c c' s hne
  obtain ⟨r, δ, h⟩ := ExtentServer.local_exec env c (s.view c.id c.userid)
  obtain ⟨r', δ', h'⟩ := ExtentServer.local_exec env' c' (s.view c'.id c'.userid)
  have h₁ := h s rfl
  have h₁' := h' s rfl
  -- neither call sees what the other has changed
  have h₂ := h _ (s.view_amend c.userid δ' hne)
  have h₂' := h' _ (s.view_amend c'.userid δ hne.symm)
  dsimp only at h₁ h₁' h₂ h₂'
  simp only [serve, h₁, h₁', h₂, h₂', s.amend_comm δ δ' hne]
  exact ⟨trivial, trivial, trivial⟩

section Scoped

open TwoPhase

variable (cl : YfsClient)

theorem scoped_done {held : Finset ExtentId} (st : FsStatus) (out : Out) :
    Scoped ExtentCall.id held (YfsClient.done st out) :=
  .ret _

theorem scoped_ec {held : Finset ExtentId} {op : ExtentOp} {id : ExtentId} {k : Resp → FsProg}
    (hid : id ∈ held) (hk : ∀ r, Scoped ExtentCall.id held (k r)) :
    Scoped ExtentCall.id held (cl.ec op id k) :=
  .call hid hk

theorem scoped_modify (num : Inum) (edit : Str → Option Str) :
    Scoped ExtentCall.id ∅ (cl.modify num edit) := by
  refine .withLock (scoped_ec cl (by simp) ?_)
  intro r
  split_ifs
  · exact scoped_done _ _
  · exact scoped_done _ _
  · split
    · exact .ret _
    · refine scoped_ec cl (by simp) ?_
      intro r
      split_ifs <;> exact scoped_done _ _

theorem scoped_change (fnum : Inum) (edit : Attr → Attr) :
    Scoped ExtentCall.id ∅ (cl.change fnum edit) := by
  refine .withLock (scoped_ec cl (by simp) ?_)
  intro r
  split_ifs
  · exact scoped_done _ _
  · refine scoped_ec cl (by simp) ?_
    intro r
    split_ifs <;> exact scoped_done _ _

theorem scoped_createNew {held : Finset ExtentId} {pnum fnum : Inum} (hp : pnum ∈ held)
    (hf : fnum ∈ held) (buf : Str) (mode : UInt32) :
    Scoped ExtentCall.id held (cl.createNew pnum fnum buf mode) := by
  refine scoped_ec cl hp ?_
  intro r
  split_ifs
  · exact scoped_done _ _
  · refine scoped_ec cl hf ?_
    intro r
    split_ifs
    · exact scoped_done _ _
    · refine scoped_ec cl hf ?_
      intro r
      refine scoped_ec cl hf ?_
      intro r
      split_ifs <;> exact scoped_done _ _

theorem scoped_create (pnum fnum : Inum) (fname : Str) (mode : UInt32) :
    Scoped ExtentCall.id ∅ (cl.create pnum fnum fname mode) := by
  refine .withLock (.withLock (scoped_ec cl (by simp) ?_))
  intro r
  split_ifs
  · exact scoped_done _ _
  · exact scoped_done _ _
  · exact scoped_done _ _
  · split
    · exact .ret _
    · exact scoped_createNew cl (by simp) (by simp) _ _

theorem scoped_unlink (pnum : Inum) (fname : Str) :
    Scoped ExtentCall.id ∅ (cl.unlink pnum fname) := by
  refine .withLock (scoped_ec cl (by simp) ?_)
  intro r
  split_ifs
  · exact scoped_done _ _
  · exact scoped_done _ _
  · split
    · exact scoped_done _ _
    · exact .ret _
    · split
      · exact .ret _
      · refine scoped_ec cl (by simp) ?_
        intro r
        split_ifs
        · exact scoped_done _ _
        · refine .withLock (scoped_ec cl (by simp) ?_)
          intro r
          split_ifs <;> exact scoped_done _ _

/-- **Every operation is scoped**: it makes its extent calls under the locks of the extents. -/
theorem scoped_prog (op : FsCall) : Scoped ExtentCall.id ∅ (op.prog cl) := by
  cases op with
  | getfile inum | getdir inum =>
    refine .withLock (scoped_ec cl (by simp) ?_)
    intro r
    split_ifs <;> exact scoped_done _ _
  | lookup pnum fname =>
    refine .withLock (scoped_ec cl (by simp) ?_)
    intro r
    split_ifs
    · exact scoped_done _ _
    · exact scoped_done _ _
    · split
      · exact scoped_done _ _
      · exact .ret _
      · exact scoped_done _ _
  | create pnum fnum fname mode => exact scoped_create cl pnum fnum fname mode
  | unlink pnum fname => exact scoped_unlink cl pnum fname
  | readdir num | read num off size buf =>
    refine .withLock (scoped_ec cl (by simp) ?_)
    intro r
    split_ifs
    · exact scoped_done _ _
    · exact scoped_done _ _
    · split
      · exact .ret _
      · exact scoped_done _ _
  | write num off buf => exact scoped_modify cl num (YfsClient.writeContent · off buf)
  | truncate num size => exact scoped_modify cl num (YfsClient.truncateContent · size)
  | chmod fnum mode => exact scoped_change cl fnum (fun a => { a with mode := mode.toUInt32 })
  | chuid fnum uid => exact scoped_change cl fnum (fun a => { a with uid := uid.toUInt32 })
  | chgid fnum gid => exact scoped_change cl fnum (fun a => { a with gid := gid.toUInt32 })

end Scoped

/-! ## The result -/

section Main

variable {τ : Type} [DecidableEq τ] (client : τ → YfsClient) (op : τ → FsCall)

/-- The calls `op`, made by the clients `client`, before the first step: all locks are free. -/
def fsStart (s : ExtentServer) :
    TwoPhase.Sys τ ExtentId ExtentCall Resp (Outcome FsReply) ExtentServer where
  world := { store := s, locked := fun _ => false }
  prog := fun t => (op t).prog (client t)

/-- **File system operations are serialisable.**  Whatever the server state `s`, the calls and their
interleaving: when every call has returned, with the results `res` and the server in the state of
`sys`, then making the calls one after another in some order gives the same results and the same final
state of the server. -/
theorem fs_serialisable [Fintype τ] (s : ExtentServer) (ls : List (TwoPhase.Act τ ExtentId Env))
    (sys : TwoPhase.Sys τ ExtentId ExtentCall Resp (Outcome FsReply) ExtentServer)
    (res : τ → Outcome FsReply)
    (hrun : Trace (TwoPhase.Step ExtentCall.id serve) (fsStart client op s) ls sys)
    (hres : ∀ t, sys.prog t = .ret (res t)) :
    ∃ order : List τ, order.Nodup ∧ (∀ t, t ∈ order) ∧
      TwoPhase.Serial serve (fun t => (op t).prog (client t)) res s order sys.world.store :=
  TwoPhase.serialisable serve_commutes (fun _ => rfl)
    (fun t => (scoped_prog (client t) (op t)).growing) hrun hres

end Main

/-- A `write` of the root directory and a `chmod` of a missing file, interleaved call by call. -/
theorem fs_serialisable_write_chmod :
    ∃ (sys : TwoPhase.Sys Bool ExtentId ExtentCall Resp (Outcome FsReply) ExtentServer)
      (order : List Bool), order.Nodup ∧ (∀ t, t ∈ order) ∧
        TwoPhase.Serial serve
          (fun t => (if t then FsCall.chmod 8 0 else FsCall.write 1 0 [65]).prog ⟨3, [], 3, 3, default, 0⟩)
          (fun t => .ret ⟨if t then .NOENT else .OK, .untouched⟩)
          (ExtentServer.init 0 0 0) order sys.world.store := by
  let client : Bool → YfsClient := fun _ => ⟨3, [], 3, 3, default, 0⟩
  let op : Bool → FsCall := fun t => if t then .chmod 8 0 else .write 1 0 [65]
  let ls : List (TwoPhase.Act Bool ExtentId Env) :=
    [⟨false, 1, default⟩, ⟨true, 8, default⟩, ⟨false, 1, default⟩, ⟨true, 8, default⟩,
      ⟨false, 1, default⟩, ⟨true, 8, default⟩, ⟨false, 1, default⟩]
  let res : Bool → Outcome FsReply := fun t => .ret ⟨if t then .NOENT else .OK, .untouched⟩
  have hend : ∀ t, (TwoPhase.run ExtentCall.id serve (fsStart client op (ExtentServer.init 0 0 0))
      ls).bind (fun sys => (sys.prog t).result) = some (res t) := by decide
  obtain ⟨sys, hrun, -⟩ := Option.bind_eq_some_iff.1 (hend true)
  have hres : ∀ t, sys.prog t = .ret (res t) := by
    intro t
    have ht := hend t
    rw [hrun] at ht
    exact Prog.eq_ret_of_result ht
  obtain ⟨order, h⟩ := fs_serialisable client op (ExtentServer.init 0 0 0) ls sys res
    (TwoPhase.trace_of_run ExtentCall.id serve hrun) hres
  exact ⟨sys, order, h⟩
