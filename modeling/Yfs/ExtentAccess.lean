/-
# Access control of the extent server

What a call may do to the extents, and under which permissions.

* `Grants` reads the mode, owner and group of a record as the server does; `Permits` is the same with
  a missing record open to everybody.  `hasPerm_iff` says that the permission checks decide exactly
  "right key and `Permits`", and the frame lemmas after it that they change no extent.
* `step_effect` is the inversion lemma: the six things a call can do to the maps `attrs` and
  `contents`.  Everything about extents below is a case analysis on it.
* `run_representation`: over every run the two maps have the same ids and the recorded sizes are right.
* `run_access_sound`: only authorised callers change or read an extent, over every run.
* `noSelfGrant_iff`: a caller without write permission can obtain it by itself exactly when the group
  of the extent may write, because `isadmin` accepts every user.
-/
import Yfs.ExtentServer

namespace ExtentServer

/-! ## The permission checks -/

/-- The record `a` gives `userid` the access `bits`, given the stored group membership. -/
def Grants (bits : PermBits) (s : ExtentServer) (a : Attr) (userid : UserId) : Prop :=
  a.mode &&& bits.other ≠ 0 ∨ (a.uid = userid ∧ a.mode &&& bits.owner ≠ 0) ∨
    (userid ∈ s.groupusers.get a.gid ∧ a.mode &&& bits.group ≠ 0)

/-- Either there is no record of `id`, or the record grants the access. -/
def Permits (bits : PermBits) (s : ExtentServer) (id : ExtentId) (userid : UserId) : Prop :=
  ∀ a, s.attrs id = some a → Grants bits s a userid

/-- A mode that grants the access to everybody. -/
theorem permits_of_other {bits : PermBits} {s : ExtentServer} {id : ExtentId} {a : Attr}
    (ha : s.attrs id = some a) (hmode : a.mode &&& bits.other ≠ 0) (userid : UserId) :
    s.Permits bits id userid := by
  intro b hb
  obtain rfl := Option.some.inj (ha.symm.trans hb)
  exact .inl hmode

/-- **The permission checks decide key and mode bits.** -/
theorem hasPerm_iff (bits : PermBits) (s : ExtentServer) (id : ExtentId) (userid : UserId)
    (userkey : Str) :
    (hasPerm bits s id userid userkey).1 = true ↔
      s.userkeys.get userid = userkey ∧ s.Permits bits id userid := by
  by_cases hkey : s.userkeys.get userid = userkey
  · cases ha : s.attrs id with
    | none => simp [hasPerm, authenticate, touchKey, Permits, hkey, ha]
    | some a =>
      simp only [hasPerm, authenticate, touchKey, ingroup, Permits, Grants, hkey, ha,
        beq_self_eq_true, Option.some.injEq, forall_eq', true_and]
      split_ifs with h1 h2
      · simp [h1]
      · simp [h2]
      · simp [h1, h2]
  · have hbeq : (s.userkeys.get userid == userkey) = false := by simpa using hkey
    simp [hasPerm, authenticate, hbeq, hkey]

/-- The state a permission check leaves behind: at most a key and a group have been inserted. -/
theorem hasPerm_snd (bits : PermBits) (s : ExtentServer) (id : ExtentId) (userid : UserId)
    (userkey : Str) :
    (hasPerm bits s id userid userkey).2 = s.touchKey userid ∨
      ∃ gid, (hasPerm bits s id userid userkey).2 = (s.touchKey userid).touchGroup gid := by
  unfold hasPerm authenticate
  cases s.userkeys.get userid == userkey with
  | false => exact Or.inl rfl
  | true =>
    simp only
    cases (s.touchKey userid).attrs id with
    | none => exact Or.inl rfl
    | some a =>
      simp only
      split_ifs
      · exact Or.inl rfl
      · exact Or.inl rfl
      · exact Or.inr ⟨a.gid, rfl⟩

/-- `t` is `s` after a permission check for `userid`: the extents and the value of every key and
group are the same. -/
structure Checked (s : ExtentServer) (userid : UserId) (t : ExtentServer) : Prop where
  attrs : t.attrs = s.attrs
  contents : t.contents = s.contents
  userkeys : t.userkeys = s.userkeys.touch userid
  groupusers : ∀ gid, t.groupusers.get gid = s.groupusers.get gid

/-- **Specification of the permission checks**: what they decide and what they leave behind. -/
theorem hasPerm_spec (bits : PermBits) (s : ExtentServer) (id : ExtentId) (userid : UserId)
    (userkey : Str) :
    ∃ b t, hasPerm bits s id userid userkey = (b, t) ∧ s.Checked userid t ∧
      (b = true ↔ s.userkeys.get userid = userkey ∧ s.Permits bits id userid) := by
  refine ⟨(hasPerm bits s id userid userkey).1, (hasPerm bits s id userid userkey).2, rfl, ?_,
    hasPerm_iff bits s id userid userkey⟩
  rcases hasPerm_snd bits s id userid userkey with h | ⟨gid, h⟩ <;> rw [h]
  · exact ⟨rfl, rfl, rfl, fun _ => rfl⟩
  · exact ⟨rfl, rfl, rfl, fun g => StdMap.get_touch s.groupusers gid g⟩

@[simp] theorem adminOk_eq (s : ExtentServer) (admin : UserId) (adminkey : Str) :
    s.adminOk admin adminkey = (s.userkeys.get admin == adminkey, s.touchKey admin) := rfl

@[simp] theorem touchKey_attrs (s : ExtentServer) (u : UserId) : (s.touchKey u).attrs = s.attrs := rfl

@[simp] theorem touchKey_groupusers (s : ExtentServer) (u : UserId) :
    (s.touchKey u).groupusers = s.groupusers := rfl

@[simp] theorem touchKey_userkeys (s : ExtentServer) (u : UserId) :
    (s.touchKey u).userkeys = s.userkeys.touch u := rfl

/-! ## The common shape of the operations on an extent -/

/-- The common shape of `put`, `get`, `setattr` and `remove`: a rejected call answers `NOACCESS`, any
other goes on with `body`. -/
def guarded (bits : PermBits) (id : ExtentId) (userid : UserId) (userkey : Str)
    (body : ExtentServer → Reply × ExtentServer) (s : ExtentServer) : Reply × ExtentServer :=
  match hasPerm bits s id userid userkey with
  | (false, t) => (⟨.NOACCESS, [], default⟩, t)
  | (true, t) => body t

/-- The common shape of what `get`, `setattr` and `remove` do then: `NOENT` when there are no
contents, else the reply `r` and the new record and contents `new`. -/
def ifContents (id : ExtentId) (r : Str → Reply)
    (new : Option Attr → Str → Option Attr × Option Str) (t : ExtentServer) :
    Reply × ExtentServer :=
  match t.contents id with
  | none => (⟨.NOENT, [], default⟩, t)
  | some buf =>
    (r buf,
      { t with
        attrs := Function.update t.attrs id (new (t.attrs id) buf).1
        contents := Function.update t.contents id (new (t.attrs id) buf).2 })

theorem get_eq (env : Env) (s : ExtentServer) (id : ExtentId) (userid : UserId) (userkey : Str) :
    get env s id userid userkey =
      guarded readBits id userid userkey (ifContents id (fun buf => ⟨.OK, buf, default⟩)
        (fun a buf => (some { a.getD default with atime := env.time }, some buf))) s := by
  simp only [get, hasReadPerm, guarded]
  obtain ⟨b, t⟩ := hasPerm readBits s id userid userkey
  cases b with
  | false => rfl
  | true =>
    cases hc : t.contents id with
    | none => simp only [ifContents, hc]
    | some buf =>
      simp only [ifContents, hc, StdMap.set, StdMap.get]
      simp only [← hc, Function.update_eq_self]

theorem setattr_eq (s : ExtentServer) (id : ExtentId) (x : Attr) (userid : UserId)
    (userkey : Str) :
    setattr s id x userid userkey =
      guarded writeBits id userid userkey (ifContents id (fun _ => ⟨.OK, [], default⟩)
        (fun a buf =>
          (some { a.getD default with mode := x.mode, uid := x.uid, gid := x.gid }, some buf))) s := by
  simp only [setattr, hasWritePerm, guarded]
  obtain ⟨b, t⟩ := hasPerm writeBits s id userid userkey
  cases b with
  | false => rfl
  | true =>
    cases hc : t.contents id with
    | none => simp only [ifContents, hc]
    | some buf =>
      simp only [ifContents, hc, StdMap.set, StdMap.get]
      simp only [← hc, Function.update_eq_self]

theorem remove_eq (s : ExtentServer) (id : ExtentId) (userid : UserId) (userkey : Str) :
    remove s id userid userkey =
      guarded writeBits id userid userkey (ifContents id (fun _ => ⟨.OK, [], default⟩)
        (fun _ _ => (none, none))) s := by
  simp only [remove, hasWritePerm, guarded]
  obtain ⟨b, t⟩ := hasPerm writeBits s id userid userkey
  cases b with
  | false => rfl
  | true => cases hc : t.contents id <;> simp only [ifContents, hc, StdMap.erase]

theorem put_eq (env : Env) (s : ExtentServer) (id : ExtentId) (buf : Str) (userid : UserId)
    (userkey : Str) :
    put env s id buf userid userkey = guarded writeBits id userid userkey
      (fun t => (⟨.OK, [], default⟩,
        { t with
          attrs := t.attrs.set id (putAttr env s id buf), contents := t.contents.set id buf })) s :=
  rfl

section Guarded

variable (bits : PermBits) (id : ExtentId) (userid : UserId) (userkey : Str) (s : ExtentServer)

/-- A call is rejected, or its key is right and the extent permits the access. -/
theorem guarded_spec (body : ExtentServer → Reply × ExtentServer) :
    ∃ t, s.Checked userid t ∧
      (¬ (s.userkeys.get userid = userkey ∧ s.Permits bits id userid) ∧
          guarded bits id userid userkey body s = (⟨.NOACCESS, [], default⟩, t) ∨
        (s.userkeys.get userid = userkey ∧ s.Permits bits id userid) ∧
          guarded bits id userid userkey body s = body t) := by
  obtain ⟨b, t, hp, ht, hb⟩ := hasPerm_spec bits s id userid userkey
  refine ⟨t, ht, ?_⟩
  unfold guarded
  rw [hp]
  cases b with
  | false => exact .inl ⟨fun h => Bool.false_ne_true (hb.mpr h), rfl⟩
  | true => exact .inr ⟨hb.mp rfl, rfl⟩

variable (r : Str → Reply) (new : Option Attr → Str → Option Attr × Option Str)

/-- The three outcomes of `get`, `setattr` and `remove`. -/
theorem guarded_ifContents_spec :
    ∃ t, s.Checked userid t ∧
      (¬ (s.userkeys.get userid = userkey ∧ s.Permits bits id userid) ∧
          guarded bits id userid userkey (ifContents id r new) s = (⟨.NOACCESS, [], default⟩, t) ∨
        (s.userkeys.get userid = userkey ∧ s.Permits bits id userid) ∧
          (s.contents id = none ∧
              guarded bits id userid userkey (ifContents id r new) s = (⟨.NOENT, [], default⟩, t) ∨
            ∃ buf, s.contents id = some buf ∧
              guarded bits id userid userkey (ifContents id r new) s = (r buf,
                { t with
                  attrs := Function.update s.attrs id (new (s.attrs id) buf).1
                  contents := Function.update s.contents id (new (s.attrs id) buf).2 }))) := by
  obtain ⟨t, ht, ⟨hno, h⟩ | ⟨hyes, h⟩⟩ := guarded_spec bits id userid userkey s (ifContents id r new)
  · exact ⟨t, ht, .inl ⟨hno, h⟩⟩
  · refine ⟨t, ht, .inr ⟨hyes, ?_⟩⟩
    rw [h, ifContents, ht.contents, ht.attrs]
    cases hc : s.contents id with
    | none => exact .inl ⟨rfl, rfl⟩
    | some buf => exact .inr ⟨buf, rfl, rfl⟩

variable {bits id userid userkey s r new}

/-- A `get`, `setattr` or `remove` of an existing extent that is permitted succeeds. -/
theorem guarded_status_ok (hkey : s.userkeys.get userid = userkey) (hperm : s.Permits bits id userid)
    (hne : s.contents id ≠ none) (hr : ∀ buf, (r buf).status = .OK) :
    (guarded bits id userid userkey (ifContents id r new) s).1.status = .OK := by
  obtain ⟨t, -, ⟨hno, -⟩ | ⟨-, ⟨hnone, -⟩ | ⟨buf, -, heq⟩⟩⟩ :=
    guarded_ifContents_spec bits id userid userkey s r new
  · exact absurd ⟨hkey, hperm⟩ hno
  · exact absurd hnone hne
  · rw [heq]
    exact hr buf

/-- The contents after a successful `get`, `setattr` or `remove`. -/
theorem guarded_contents
    (h : (guarded bits id userid userkey (ifContents id r new) s).1.status = .OK) :
    ∃ buf, s.contents id = some buf ∧
      (guarded bits id userid userkey (ifContents id r new) s).2.contents =
        Function.update s.contents id (new (s.attrs id) buf).2 := by
  obtain ⟨t, -, ⟨-, heq⟩ | ⟨-, ⟨-, heq⟩ | ⟨buf, hbuf, heq⟩⟩⟩ :=
    guarded_ifContents_spec bits id userid userkey s r new
  · rw [heq] at h
    cases h
  · rw [heq] at h
    cases h
  · exact ⟨buf, hbuf, by rw [heq]⟩

end Guarded

/-! ## What a call can do to the extents -/

/-- `attrs` and `contents` have the same keys. -/
def SameKeys (s : ExtentServer) : Prop := ∀ id, s.attrs id = none ↔ s.contents id = none

/-- The effect of a call on the maps `attrs` and `contents`, with the checks it has passed. -/
inductive Effect (s : ExtentServer) : Event → ExtentServer → Prop
  | unchanged {e : Event} {s' : ExtentServer}
      (hattrs : s'.attrs = s.attrs) (hcontents : s'.contents = s.contents)
      (hget : ∀ id userid userkey, e.call = .get id userid userkey → e.reply.status ≠ .OK) :
      Effect s e s'
  | put {env : Env} {id : ExtentId} {buf : Str} {userid : UserId} {userkey : Str}
      {s' : ExtentServer}
      (hkey : s.userkeys.get userid = userkey) (hperm : s.Permits writeBits id userid)
      (hattrs : s'.attrs = s.attrs.set id (putAttr env s id buf))
      (hcontents : s'.contents = s.contents.set id buf) :
      Effect s ⟨env, .put id buf userid userkey, ⟨.OK, [], default⟩⟩ s'
  | get {env : Env} {id : ExtentId} {a : Attr} {buf : Str} {userid : UserId} {userkey : Str}
      {s' : ExtentServer}
      (hkey : s.userkeys.get userid = userkey) (hperm : s.Permits readBits id userid)
      (ha : s.attrs id = some a) (hbuf : s.contents id = some buf)
      (hattrs : s'.attrs = s.attrs.set id { a with atime := env.time })
      (hcontents : s'.contents = s.contents) :
      Effect s ⟨env, .get id userid userkey, ⟨.OK, buf, default⟩⟩ s'
  | setattr {env : Env} {id : ExtentId} {a b : Attr} {userid : UserId} {userkey : Str}
      {s' : ExtentServer}
      (hkey : s.userkeys.get userid = userkey) (hperm : s.Permits writeBits id userid)
      (ha : s.attrs id = some a)
      (hattrs : s'.attrs = s.attrs.set id { a with mode := b.mode, uid := b.uid, gid := b.gid })
      (hcontents : s'.contents = s.contents) :
      Effect s ⟨env, .setattr id b userid userkey, ⟨.OK, [], default⟩⟩ s'
  | remove {env : Env} {id : ExtentId} {userid : UserId} {userkey : Str} {s' : ExtentServer}
      (hkey : s.userkeys.get userid = userkey) (hperm : s.Permits writeBits id userid)
      (hattrs : s'.attrs = s.attrs.erase id) (hcontents : s'.contents = s.contents.erase id) :
      Effect s ⟨env, .remove id userid userkey, ⟨.OK, [], default⟩⟩ s'

/-- In a state with matching keys, an extent with contents has a record. -/
theorem SameKeys.attrs_of_contents {s : ExtentServer} (hs : s.SameKeys) {id : ExtentId} {buf : Str}
    (h : s.contents id = some buf) : ∃ a, s.attrs id = some a := by
  cases ha : s.attrs id with
  | none => rw [(hs id).mp ha] at h; cases h
  | some a => exact ⟨a, rfl⟩

/-- A call that is no `get` and leaves `attrs` and `contents` alone. -/
theorem Effect.of_frame {s s' : ExtentServer} {e : Event} (hattrs : s'.attrs = s.attrs)
    (hcontents : s'.contents = s.contents) (hget : ∀ id u k, e.call ≠ .get id u k) :
    Effect s e s' :=
  .unchanged hattrs hcontents (fun id u k h => absurd h (hget id u k))

theorem put_effect (env : Env) (s : ExtentServer) (id : ExtentId) (buf : Str) (userid : UserId)
    (userkey : Str) :
    Effect s ⟨env, .put id buf userid userkey, (put env s id buf userid userkey).1⟩
      (put env s id buf userid userkey).2 := by
  rw [put_eq]
  obtain ⟨t, ht, ⟨-, h⟩ | ⟨⟨hkey, hperm⟩, h⟩⟩ := guarded_spec writeBits id userid userkey s _
  · rw [h]
    exact .of_frame ht.attrs ht.contents (by simp)
  · rw [h]
    exact .put hkey hperm (by rw [ht.attrs]) (by rw [ht.contents])

theorem get_effect {s : ExtentServer} (hs : s.SameKeys) (env : Env) (id : ExtentId)
    (userid : UserId) (userkey : Str) :
    Effect s ⟨env, .get id userid userkey, (get env s id userid userkey).1⟩
      (get env s id userid userkey).2 := by
  rw [get_eq]
  obtain ⟨t, ht, ⟨-, h⟩ | ⟨⟨hkey, hperm⟩, ⟨-, h⟩ | ⟨buf, hc, h⟩⟩⟩ :=
    guarded_ifContents_spec readBits id userid userkey s (fun buf => ⟨.OK, buf, default⟩)
      (fun a buf => (some { a.getD default with atime := env.time }, some buf))
  · rw [h]
    exact .unchanged ht.attrs ht.contents (by simp)
  · rw [h]
    exact .unchanged ht.attrs ht.contents (by simp)
  · obtain ⟨a, ha⟩ := hs.attrs_of_contents hc
    rw [h]
    refine .get hkey hperm ha hc ?_ ?_
    · rw [ha]
      rfl
    · rw [← hc, Function.update_eq_self]

theorem getattr_effect {s : ExtentServer} (hs : s.SameKeys) (env : Env) (id : ExtentId)
    (userid : UserId) (userkey : Str) :
    Effect s ⟨env, .getattr id userid userkey, (getattr s id).1⟩ (getattr s id).2 := by
  simp only [getattr]
  cases hc : s.contents id with
  | none => exact .of_frame rfl rfl (by simp)
  | some buf =>
    obtain ⟨a, ha⟩ := hs.attrs_of_contents hc
    exact .of_frame (StdMap.touch_of_some ha) rfl (by simp)

theorem setattr_effect {s : ExtentServer} (hs : s.SameKeys) (env : Env) (id : ExtentId) (b : Attr)
    (userid : UserId) (userkey : Str) :
    Effect s ⟨env, .setattr id b userid userkey, (setattr s id b userid userkey).1⟩
      (setattr s id b userid userkey).2 := by
  rw [setattr_eq]
  obtain ⟨t, ht, ⟨-, h⟩ | ⟨⟨hkey, hperm⟩, ⟨-, h⟩ | ⟨buf, hc, h⟩⟩⟩ :=
    guarded_ifContents_spec writeBits id userid userkey s (fun _ => ⟨.OK, [], default⟩)
      (fun a buf =>
        (some { a.getD default with mode := b.mode, uid := b.uid, gid := b.gid }, some buf))
  · rw [h]
    exact .of_frame ht.attrs ht.contents (by simp)
  · rw [h]
    exact .of_frame ht.attrs ht.contents (by simp)
  · obtain ⟨a, ha⟩ := hs.attrs_of_contents hc
    rw [h]
    refine .setattr hkey hperm ha ?_ ?_
    · rw [ha]
      rfl
    · rw [← hc, Function.update_eq_self]

theorem remove_effect (env : Env) (s : ExtentServer) (id : ExtentId) (userid : UserId)
    (userkey : Str) :
    Effect s ⟨env, .remove id userid userkey, (remove s id userid userkey).1⟩
      (remove s id userid userkey).2 := by
  rw [remove_eq]
  obtain ⟨t, ht, ⟨-, h⟩ | ⟨⟨hkey, hperm⟩, ⟨-, h⟩ | ⟨buf, hc, h⟩⟩⟩ :=
    guarded_ifContents_spec writeBits id userid userkey s (fun _ => ⟨.OK, [], default⟩)
      (fun _ _ => (none, none))
  · rw [h]
    exact .of_frame ht.attrs ht.contents (by simp)
  · rw [h]
    exact .of_frame ht.attrs ht.contents (by simp)
  · rw [h]
    exact .remove hkey hperm rfl rfl

/-- `reg` touches no extent. -/
theorem reg_frame (s : ExtentServer) (userid : UserId) (userkey : Str) :
    (reg s userid userkey).2.attrs = s.attrs ∧ (reg s userid userkey).2.contents = s.contents := by
  unfold reg authenticate
  cases s.userkeys userid with
  | none => exact ⟨rfl, rfl⟩
  | some k => cases s.userkeys.get userid == userkey <;> exact ⟨rfl, rfl⟩

/-- From `s` to `t` only the groups have changed, and the key of `admin` has been looked up. -/
structure GroupFrame (s : ExtentServer) (admin : UserId) (t : ExtentServer) : Prop where
  attrs : t.attrs = s.attrs
  contents : t.contents = s.contents
  userkeys : t.userkeys = s.userkeys.touch admin

theorem groupadd_frame (s : ExtentServer) (gid : GroupId) (admin : UserId) (adminkey : Str) :
    s.GroupFrame admin (groupadd s gid admin adminkey).2 := by
  unfold groupadd
  rw [adminOk_eq]
  cases s.userkeys.get admin == adminkey <;> exact ⟨rfl, rfl, rfl⟩

theorem groupdel_frame (s : ExtentServer) (gid : GroupId) (admin : UserId) (adminkey : Str) :
    s.GroupFrame admin (groupdel s gid admin adminkey).2 := by
  unfold groupdel
  rw [adminOk_eq]
  cases s.userkeys.get admin == adminkey with
  | false => exact ⟨rfl, rfl, rfl⟩
  | true =>
    simp only [touchKey_groupusers]
    cases s.groupusers gid <;> exact ⟨rfl, rfl, rfl⟩

theorem useradd_frame (s : ExtentServer) (userid : UserId) (gid : GroupId) (admin : UserId)
    (adminkey : Str) : s.GroupFrame admin (useradd s userid gid admin adminkey).2 := by
  unfold useradd
  rw [adminOk_eq]
  cases s.userkeys.get admin == adminkey <;> exact ⟨rfl, rfl, rfl⟩

theorem userdel_frame (s : ExtentServer) (userid : UserId) (gid : GroupId) (admin : UserId)
    (adminkey : Str) : s.GroupFrame admin (userdel s userid gid admin adminkey).2 := by
  unfold userdel
  rw [adminOk_eq]
  cases s.userkeys.get admin == adminkey with
  | false => exact ⟨rfl, rfl, rfl⟩
  | true =>
    simp only [touchKey_groupusers]
    cases s.groupusers gid with
    | none => exact ⟨rfl, rfl, rfl⟩
    | some users =>
      simp only
      split_ifs <;> exact ⟨rfl, rfl, rfl⟩

/-- **The inversion lemma**: every call has one of the effects of `Effect`. -/
theorem step_effect {s s' : ExtentServer} {e : Event} (hs : s.SameKeys) (h : Step s e s') :
    Effect s e s' := by
  obtain ⟨env, call, reply⟩ := e
  obtain ⟨rfl, rfl⟩ : reply = (exec env s call).1 ∧ s' = (exec env s call).2 := by
    rw [Step] at h
    rw [h]
    exact ⟨rfl, rfl⟩
  cases call with
  | put id buf userid userkey => exact put_effect env s id buf userid userkey
  | get id userid userkey => exact get_effect hs env id userid userkey
  | getattr id userid userkey => exact getattr_effect hs env id userid userkey
  | setattr id a userid userkey => exact setattr_effect hs env id a userid userkey
  | remove id userid userkey => exact remove_effect env s id userid userkey
  | reg userid userkey =>
    obtain ⟨ha, hc⟩ := reg_frame s userid userkey
    exact .of_frame ha hc (by simp)
  | groupadd gid admin adminkey =>
    have hf := groupadd_frame s gid admin adminkey
    exact .of_frame hf.attrs hf.contents (by simp)
  | groupdel gid admin adminkey =>
    have hf := groupdel_frame s gid admin adminkey
    exact .of_frame hf.attrs hf.contents (by simp)
  | useradd userid gid admin adminkey =>
    have hf := useradd_frame s userid gid admin adminkey
    exact .of_frame hf.attrs hf.contents (by simp)
  | userdel userid gid admin adminkey =>
    have hf := userdel_frame s userid gid admin adminkey
    exact .of_frame hf.attrs hf.contents (by simp)

/-- The contents of the extents change by `put` and `remove` only. -/
theorem Effect.contents {s s' : ExtentServer} {e : Event} (h : Effect s e s') :
    s'.contents = s.contents ∨
      (∃ id buf userid userkey, e.call = .put id buf userid userkey ∧
        s'.contents = s.contents.set id buf) ∨
      ∃ id userid userkey, e.call = .remove id userid userkey ∧
        s'.contents = s.contents.erase id := by
  cases h with
  | unchanged _ hcontents _ => exact .inl hcontents
  | put _ _ _ hcontents => exact .inr (.inl ⟨_, _, _, _, rfl, hcontents⟩)
  | get _ _ _ _ _ hcontents => exact .inl hcontents
  | setattr _ _ _ _ hcontents => exact .inl hcontents
  | remove _ _ _ hcontents => exact .inr (.inr ⟨_, _, _, rfl, hcontents⟩)

/-! ## Whole runs -/

theorem sameKeys_init (time : UInt32) (uid : UserId) (gid : GroupId) :
    (init time uid gid).SameKeys := by
  intro id
  by_cases hid : id = 1
  · subst hid
    simp [init]
  · simp [init, StdMap.set_of_ne, hid]

/-- Every call keeps the keys of `attrs` and `contents` equal. -/
theorem step_sameKeys {s s' : ExtentServer} {e : Event} (hs : s.SameKeys) (h : Step s e s') :
    s'.SameKeys := by
  intro i
  cases step_effect hs h with
  | unchanged hattrs hcontents _ => rw [hattrs, hcontents]; exact hs i
  | @put _ id _ _ _ _ _ _ hattrs hcontents =>
    rw [hattrs, hcontents]
    by_cases hi : i = id
    · subst hi
      simp
    · rw [StdMap.set_of_ne _ _ hi, StdMap.set_of_ne _ _ hi]
      exact hs i
  | @get _ id _ buf _ _ _ _ _ ha hbuf hattrs hcontents =>
    rw [hattrs, hcontents]
    by_cases hi : i = id
    · subst hi
      simp [hbuf]
    · rw [StdMap.set_of_ne _ _ hi]
      exact hs i
  | @setattr _ id a _ _ _ _ _ _ ha hattrs hcontents =>
    rw [hattrs, hcontents]
    by_cases hi : i = id
    · subst hi
      rw [StdMap.set_self, ← hs i, ha]
      simp
    · rw [StdMap.set_of_ne _ _ hi]
      exact hs i
  | @remove _ id _ _ _ _ _ hattrs hcontents =>
    rw [hattrs, hcontents]
    by_cases hi : i = id
    · subst hi
      simp
    · rw [StdMap.erase_of_ne _ hi, StdMap.erase_of_ne _ hi]
      exact hs i

theorem Run.sameKeys {h : List Event} {s : ExtentServer} (hr : Run h s) : s.SameKeys := by
  obtain ⟨time, uid, gid, ht⟩ := hr
  exact ht.invariant (sameKeys_init time uid gid) (fun _ _ _ => step_sameKeys)

/-- Every record holds the length of the contents of its extent, as the `unsigned int` it is. -/
def SizeRecorded (s : ExtentServer) : Prop :=
  ∀ id a buf, s.attrs id = some a → s.contents id = some buf → a.size = UInt32.ofNat buf.length

theorem sizeRecorded_init (time : UInt32) (uid : UserId) (gid : GroupId) :
    (init time uid gid).SizeRecorded := by
  intro id a buf ha hbuf
  by_cases hid : id = 1
  · subst hid
    simp only [init, StdMap.set_self, Option.some.injEq] at ha hbuf
    subst ha hbuf
    rfl
  · simp [init, StdMap.set_of_ne, hid] at ha

/-- A new record of an extent whose contents stay keeps the sizes right when it has the old size. -/
theorem SizeRecorded.set_attr {s s' : ExtentServer} (hs : s.SizeRecorded) {id : ExtentId} {a b : Attr}
    (ha : s.attrs id = some a) (hattrs : s'.attrs = s.attrs.set id b)
    (hcontents : s'.contents = s.contents) (hsize : b.size = a.size) : s'.SizeRecorded := by
  intro i c buf hc hbuf
  rw [hattrs] at hc
  rw [hcontents] at hbuf
  by_cases hi : i = id
  · subst hi
    rw [StdMap.set_self, Option.some.injEq] at hc
    rw [← hc, hsize]
    exact hs i a buf ha hbuf
  · rw [StdMap.set_of_ne _ _ hi] at hc
    exact hs i c buf hc hbuf

/-- Every call keeps the recorded sizes right: `put` writes both maps, the other accepted calls keep
the size and the contents or drop both. -/
theorem step_sizeRecorded {s s' : ExtentServer} {e : Event} (hk : s.SameKeys) (hs : s.SizeRecorded)
    (h : Step s e s') : s'.SizeRecorded := by
  cases step_effect hk h with
  | unchanged hattrs hcontents _ =>
    intro i a buf ha hbuf
    rw [hattrs] at ha
    rw [hcontents] at hbuf
    exact hs i a buf ha hbuf
  | @put env id new _ _ _ _ _ hattrs hcontents =>
    intro i a buf ha hbuf
    rw [hattrs] at ha
    rw [hcontents] at hbuf
    by_cases hi : i = id
    · subst hi
      rw [StdMap.set_self, Option.some.injEq] at ha hbuf
      rw [← ha, ← hbuf]
      rfl
    · rw [StdMap.set_of_ne _ _ hi] at ha hbuf
      exact hs i a buf ha hbuf
  | get _ _ ha _ hattrs hcontents => exact hs.set_attr ha hattrs hcontents rfl
  | setattr _ _ ha hattrs hcontents => exact hs.set_attr ha hattrs hcontents rfl
  | @remove _ id _ _ _ _ _ hattrs hcontents =>
    intro i a buf ha hbuf
    rw [hattrs] at ha
    rw [hcontents] at hbuf
    by_cases hi : i = id
    · subst hi
      simp at ha
    · rw [StdMap.erase_of_ne _ hi] at ha hbuf
      exact hs i a buf ha hbuf

theorem Run.sizeRecorded {h : List Event} {s : ExtentServer} (hr : Run h s) : s.SizeRecorded := by
  obtain ⟨time, uid, gid, ht⟩ := hr
  have hboth : s.SameKeys ∧ s.SizeRecorded :=
    ht.invariant (I := fun s => s.SameKeys ∧ s.SizeRecorded)
      ⟨sameKeys_init time uid gid, sizeRecorded_init time uid gid⟩
      (fun _ _ _ hI hstep => ⟨step_sameKeys hI.1 hstep, step_sizeRecorded hI.1 hI.2 hstep⟩)
  exact hboth.2

/-- **The representation invariant of the store.**  In every state a server can reach from its
constructor, by any calls of its ten operations, accepted or rejected, `attrs` and `contents` have the
same ids, and the recorded size of every id is the length of its contents modulo `2^32`. -/
theorem run_representation {h : List Event} {s : ExtentServer} (hr : Run h s) (id : ExtentId) :
    ((s.attrs id).isSome ↔ (s.contents id).isSome) ∧
      ∀ a buf, s.attrs id = some a → s.contents id = some buf →
        a.size.toNat = buf.length % 2 ^ 32 := by
  constructor
  · rw [← Option.ne_none_iff_isSome, ← Option.ne_none_iff_isSome]
    exact not_congr (hr.sameKeys id)
  · intro a buf ha hbuf
    rw [hr.sizeRecorded id a buf ha hbuf]
    exact UInt32.toNat_ofNat

/-- A registration, a new file of three bytes, a rejected write, and a removal. -/
theorem run_representation_calls :
    let cs : List (Env × Call) := [(default, .reg 5 [107]), (default, .put 2 [1, 2, 3] 5 [107]),
      (default, .put 3 [1] 6 [1]), (default, .remove 1 5 [107])]
    let s := (replay (init 0 0 0) cs).2
    Run (replay (init 0 0 0) cs).1 s ∧ ∃ a, s.attrs 2 = some a ∧ s.contents 2 = some [1, 2, 3] ∧
      a.size.toNat = [1, 2, 3].length % 2 ^ 32 := by
  intro cs s
  have hr : Run (replay (init 0 0 0) cs).1 s := ⟨0, 0, 0, trace_replay _ _⟩
  have ha : s.attrs 2 = some ⟨0, 0, 0, 3, 0o777, 0, 0⟩ := by decide
  have hbuf : s.contents 2 = some [1, 2, 3] := by decide
  exact ⟨hr, _, ha, hbuf, (run_representation hr 2).2 _ _ ha hbuf⟩

/-! ## Soundness of the access control -/

/-- The attributes of a record, the access time left out. -/
def withoutAtime (a : Attr) : Attr := { a with atime := 0 }

/-- Between `s` and `s'` the contents of `id`, its existence or an attribute of it other than the
access time has changed. -/
def Changes (s s' : ExtentServer) (id : ExtentId) : Prop :=
  s'.contents id ≠ s.contents id ∨
    (s'.attrs id).map withoutAtime ≠ (s.attrs id).map withoutAtime

/-- A `put`, `setattr` or `remove` on `id`, made with these credentials. -/
def Writes (id : ExtentId) (userid : UserId) (userkey : Str) (c : Call) : Prop :=
  (∃ buf, c = .put id buf userid userkey) ∨ (∃ a, c = .setattr id a userid userkey) ∨
    c = .remove id userid userkey

/-- Maps that differ only at `id` do not change any other extent. -/
theorem eq_of_changes_set {s s' : ExtentServer} {i id : ExtentId}
    (hattrs : i ≠ id → s'.attrs i = s.attrs i) (hcontents : i ≠ id → s'.contents i = s.contents i)
    (hi : Changes s s' i) : i = id := by
  by_contra hne
  rcases hi with hi | hi
  · exact hi (hcontents hne)
  · exact hi (by rw [hattrs hne])

/-- **Access-control soundness.**  In every state the server can reach, a call that changes an extent
is an accepted `put`, `setattr` or `remove` on it by a user with the stored key and write permission;
a `get` that returns contents was made by a user with the stored key and read permission; and a call
with a status other than `OK` changes no extent. -/
theorem run_access_sound {h : List Event} {s s' : ExtentServer} {e : Event} (hr : Run h s)
    (hstep : Step s e s') :
    (∀ id, Changes s s' id → e.reply.status = .OK ∧ ∃ userid userkey,
        Writes id userid userkey e.call ∧ s.userkeys.get userid = userkey ∧
          s.Permits writeBits id userid) ∧
      (∀ id userid userkey, e.call = .get id userid userkey → e.reply.status = .OK →
        s.contents id = some e.reply.buf ∧ s.userkeys.get userid = userkey ∧
          s.Permits readBits id userid) ∧
      (e.reply.status ≠ .OK → s'.attrs = s.attrs ∧ s'.contents = s.contents) := by
  cases step_effect hr.sameKeys hstep with
  | unchanged hattrs hcontents hget =>
    refine ⟨fun id hid => ?_, fun id u k hc hok => absurd hok (hget id u k hc),
      fun _ => ⟨hattrs, hcontents⟩⟩
    exfalso
    rcases hid with hid | hid
    · exact hid (by rw [hcontents])
    · exact hid (by rw [hattrs])
  | @put env id buf userid userkey _ hkey hperm hattrs hcontents =>
    refine ⟨fun i hi => ?_, fun _ _ _ hc => (by cases hc), fun hne => absurd rfl hne⟩
    obtain rfl : i = id := eq_of_changes_set
      (fun hne => by rw [hattrs, StdMap.set_of_ne _ _ hne])
      (fun hne => by rw [hcontents, StdMap.set_of_ne _ _ hne]) hi
    exact ⟨rfl, userid, userkey, Or.inl ⟨buf, rfl⟩, hkey, hperm⟩
  | @get env id a buf userid userkey _ hkey hperm ha hbuf hattrs hcontents =>
    refine ⟨fun i hi => ?_, ?_, fun hne => absurd rfl hne⟩
    · -- only the access time of `id` differs
      exfalso
      rcases hi with hi | hi
      · exact hi (by rw [hcontents])
      · apply hi
        by_cases hne : i = id
        · subst hne
          rw [hattrs, StdMap.set_self, ha]
          rfl
        · rw [hattrs, StdMap.set_of_ne _ _ hne]
    · rintro i u k hc -
      cases hc
      exact ⟨hbuf, hkey, hperm⟩
  | @setattr env id a b userid userkey _ hkey hperm ha hattrs hcontents =>
    refine ⟨fun i hi => ?_, fun _ _ _ hc => (by cases hc), fun hne => absurd rfl hne⟩
    obtain rfl : i = id := eq_of_changes_set
      (fun hne => by rw [hattrs, StdMap.set_of_ne _ _ hne])
      (fun _ => by rw [hcontents]) hi
    exact ⟨rfl, userid, userkey, Or.inr (Or.inl ⟨b, rfl⟩), hkey, hperm⟩
  | @remove env id userid userkey _ hkey hperm hattrs hcontents =>
    refine ⟨fun i hi => ?_, fun _ _ _ hc => (by cases hc), fun hne => absurd rfl hne⟩
    obtain rfl : i = id := eq_of_changes_set
      (fun hne => by rw [hattrs, StdMap.erase_of_ne _ hne])
      (fun hne => by rw [hcontents, StdMap.erase_of_ne _ hne]) hi
    exact ⟨rfl, userid, userkey, Or.inr (Or.inr rfl), hkey, hperm⟩

/-- A registered user who creates a file: the change is authorised. -/
theorem run_access_sound_create :
    let s := (replay (init 0 0 0) [(default, .reg 5 [107])]).2
    let e : Event := ⟨default, .put 2 [1] 5 [107], ⟨.OK, [], default⟩⟩
    Run (replay (init 0 0 0) [(default, .reg 5 [107])]).1 s ∧ Changes s (exec e.env s e.call).2 2 ∧
      ∃ userid userkey, Writes 2 userid userkey e.call ∧ s.userkeys.get userid = userkey ∧
        s.Permits writeBits 2 userid := by
  intro s e
  have hr : Run (replay (init 0 0 0) [(default, .reg 5 [107])]).1 s :=
    ⟨0, 0, 0, trace_replay _ _⟩
  have hstep : Step s e (exec e.env s e.call).2 := Prod.ext (by decide) rfl
  have hch : Changes s (exec e.env s e.call).2 2 := Or.inl (by decide)
  exact ⟨hr, hch, ((run_access_sound hr hstep).1 2 hch).2⟩

/-! ## No self-granted access -/

/-- The user (or admin) id and the key a call is made with. -/
def creds : Call → UserId × Str
  | .put _ _ userid userkey => (userid, userkey)
  | .get _ userid userkey => (userid, userkey)
  | .getattr _ userid userkey => (userid, userkey)
  | .setattr _ _ userid userkey => (userid, userkey)
  | .remove _ userid userkey => (userid, userkey)
  | .reg userid userkey => (userid, userkey)
  | .groupadd _ admin adminkey => (admin, adminkey)
  | .groupdel _ admin adminkey => (admin, adminkey)
  | .useradd _ _ admin adminkey => (admin, adminkey)
  | .userdel _ _ admin adminkey => (admin, adminkey)

/-- The mode, owner and group of a record. -/
def ownership (a : Attr) : UInt32 × UserId × GroupId := (a.mode, a.uid, a.gid)

/-- No sequence of calls by `userid` with `userkey` changes the contents of `id`, deletes it or
changes its mode, owner or group. -/
def NoSelfGrant (s : ExtentServer) (userid : UserId) (userkey : Str) (id : ExtentId) : Prop :=
  ∀ h s', Trace Step s h s' → (∀ e ∈ h, creds e.call = (userid, userkey)) →
    s'.contents id = s.contents id ∧
      (s'.attrs id).map ownership = (s.attrs id).map ownership

/-- Without the group bit a record that does not grant an access grants it under no membership. -/
theorem not_grants_of_group_bit {bits : PermBits} {s t : ExtentServer} {a b : Attr}
    {userid : UserId} (hno : ¬ Grants bits s a userid) (hbit : a.mode &&& bits.group = 0)
    (hab : ownership b = ownership a) : ¬ Grants bits t b userid := by
  obtain ⟨hmode, huid, -⟩ : b.mode = a.mode ∧ b.uid = a.uid ∧ b.gid = a.gid := by
    simpa [ownership] using hab
  rintro (h | h | h)
  · exact hno (Or.inl (hmode ▸ h))
  · exact hno (Or.inr (Or.inl (by rwa [hmode, huid] at h)))
  · exact h.2 (hmode ▸ hbit)

/-- One call of a user whom the record of `id` does not let write leaves `id` as it is, up to its
times. -/
theorem step_keeps_extent {s s' : ExtentServer} {e : Event} {userid : UserId} {userkey : Str}
    {id : ExtentId} {a : Attr} (hs : s.SameKeys) (h : Step s e s')
    (hc : creds e.call = (userid, userkey)) (ha : s.attrs id = some a)
    (hno : ¬ Grants writeBits s a userid) :
    s'.contents id = s.contents id ∧ (s'.attrs id).map ownership = (s.attrs id).map ownership := by
  cases step_effect hs h with
  | unchanged hattrs hcontents _ => rw [hattrs, hcontents]; exact ⟨rfl, rfl⟩
  | @put _ i _ _ _ _ _ hperm hattrs hcontents =>
    cases hc
    have hne : id ≠ i := by rintro rfl; exact hno (hperm a ha)
    rw [hattrs, hcontents, StdMap.set_of_ne _ _ hne, StdMap.set_of_ne _ _ hne]
    exact ⟨rfl, rfl⟩
  | @get _ i b _ _ _ _ _ _ hb _ hattrs hcontents =>
    -- a read of `id` sets the access time, which is no part of `ownership`
    rw [hattrs, hcontents]
    refine ⟨rfl, ?_⟩
    by_cases hi : id = i
    · subst hi
      rw [StdMap.set_self, hb]
      rfl
    · rw [StdMap.set_of_ne _ _ hi]
  | @setattr _ i _ _ _ _ _ _ hperm _ hattrs hcontents =>
    cases hc
    have hne : id ≠ i := by rintro rfl; exact hno (hperm a ha)
    rw [hattrs, hcontents, StdMap.set_of_ne _ _ hne]
    exact ⟨rfl, rfl⟩
  | @remove _ i _ _ _ _ hperm hattrs hcontents =>
    cases hc
    have hne : id ≠ i := by rintro rfl; exact hno (hperm a ha)
    rw [hattrs, hcontents, StdMap.erase_of_ne _ hne, StdMap.erase_of_ne _ hne]
    exact ⟨rfl, rfl⟩

/-- Without the group write bit the user is kept out over every sequence of its calls. -/
theorem noSelfGrant_of_group_bit {s : ExtentServer} {userid : UserId} {userkey : Str}
    {id : ExtentId} {a : Attr} (hs : s.SameKeys) (ha : s.attrs id = some a)
    (hno : ¬ Grants writeBits s a userid) (hbit : a.mode &&& writeBits.group = 0) :
    NoSelfGrant s userid userkey id := by
  intro h s' ht
  -- the invariant of the run: `id` still looks as in `s`, so it still grants nothing
  suffices hinv : (∀ e ∈ h, creds e.call = (userid, userkey)) → s'.SameKeys ∧
      s'.contents id = s.contents id ∧ (s'.attrs id).map ownership = (s.attrs id).map ownership from
    fun hc => (hinv hc).2
  refine ht.history (I := fun h s' => (∀ e ∈ h, creds e.call = (userid, userkey)) → s'.SameKeys ∧
    s'.contents id = s.contents id ∧ (s'.attrs id).map ownership = (s.attrs id).map ownership)
    (fun _ => ⟨hs, rfl, rfl⟩) ?_
  intro h t e t' ih hstep hc
  obtain ⟨hk, hcont, hown⟩ := ih (fun e' he' => hc e' (List.mem_append_left _ he'))
  obtain ⟨b, hb, hab⟩ : ∃ b, t.attrs id = some b ∧ ownership b = ownership a := by
    rw [ha] at hown
    simpa [Option.map_eq_some_iff] using hown
  obtain ⟨h1, h2⟩ := step_keeps_extent hk hstep (hc e (by simp)) hb
    (not_grants_of_group_bit hno hbit hab)
  exact ⟨step_sameKeys hk hstep, h1.trans hcont, h2.trans hown⟩

/-- With the group write bit, the user joins the group and then removes the extent. -/
theorem not_noSelfGrant_of_group_bit {s : ExtentServer} {userid : UserId} {userkey : Str}
    {id : ExtentId} {a : Attr} (hs : s.SameKeys) (hkey : s.userkeys.get userid = userkey)
    (ha : s.attrs id = some a) (hbit : a.mode &&& writeBits.group ≠ 0) :
    ¬ NoSelfGrant s userid userkey id := by
  intro hns
  obtain ⟨buf, hbuf⟩ : ∃ buf, s.contents id = some buf := by
    cases hc : s.contents id with
    | none => rw [(hs id).mpr hc] at ha; cases ha
    | some buf => exact ⟨buf, rfl⟩
  have ht := trace_replay s [(default, .useradd userid a.gid userid userkey),
    (default, .remove id userid userkey)]
  have hgone := (hns _ _ ht (by simp [replay, creds])).1
  -- after the first call the user is a member, so the second passes its check
  obtain ⟨b, t, hp, htc, hb⟩ := hasPerm_spec writeBits
    (useradd s userid a.gid userid userkey).2 id userid userkey
  have hadd : (useradd s userid a.gid userid userkey).2 =
      { s.touchKey userid with
        groupusers := s.groupusers.set a.gid (insert userid (s.groupusers.get a.gid)) } := by
    simp [useradd, hkey]
  have hbt : b = true := by
    rw [hb, hadd]
    refine ⟨by simpa using hkey, fun c hc => Or.inr (Or.inr ?_)⟩
    obtain rfl : a = c := by simpa [ha] using hc
    exact ⟨by rw [StdMap.get_of_some (StdMap.set_self ..)]; exact Finset.mem_insert_self _ _, hbit⟩
  subst hbt
  have htcont : t.contents id = some buf := by rw [htc.contents, hadd]; exact hbuf
  simp only [replay, exec, remove, hasWritePerm, hp, htcont, StdMap.erase_self, hbuf] at hgone
  cases hgone

/-- **Self-granted access, exactly.**  A user with a registered key and without write permission on an
existing extent is kept from it by the server, whatever calls the user makes, if and only if the mode
of the extent has no group write bit. -/
theorem noSelfGrant_iff {h : List Event} {s : ExtentServer} {userid : UserId} {userkey : Str}
    {id : ExtentId} {a : Attr} (hr : Run h s) (hkey : s.userkeys userid = some userkey)
    (ha : s.attrs id = some a) (hno : ¬ Grants writeBits s a userid) :
    NoSelfGrant s userid userkey id ↔ a.mode &&& 0o020 = 0 := by
  constructor
  · intro hns
    by_contra hbit
    exact not_noSelfGrant_of_group_bit hr.sameKeys (StdMap.get_of_some hkey) ha hbit hns
  · exact noSelfGrant_of_group_bit hr.sameKeys ha hno

/-- Two registered users, and a file of the first one, of group `5` and with the given mode. -/
def twoUsers (mode : UInt32) : List (Env × Call) :=
  [(default, .reg 1 [97]), (default, .reg 2 [98]), (default, .put 7 [] 1 [97]),
    (default, .setattr 7 ⟨0, 0, 0, 0, mode, 1, 5⟩ 1 [97])]

/-- With mode `0600` the second user never gets at the file. -/
theorem noSelfGrant_owner_only :
    NoSelfGrant (replay (init 0 0 0) (twoUsers 0o600)).2 2 [98] 7 := by
  have hr : Run (replay (init 0 0 0) (twoUsers 0o600)).1 (replay (init 0 0 0) (twoUsers 0o600)).2 :=
    ⟨0, 0, 0, trace_replay _ _⟩
  refine (noSelfGrant_iff (a := ⟨0, 0, 0, 0, 0o600, 1, 5⟩) hr (by decide) (by decide) ?_).mpr
    (by decide)
  unfold Grants
  decide

/-- With mode `0660` it does: `useradd` lets the user into the group of the file. -/
theorem self_grant_by_useradd :
    ¬ ∀ h s userid userkey id a, Run h s → s.userkeys userid = some userkey →
      s.attrs id = some a → ¬ Grants writeBits s a userid → NoSelfGrant s userid userkey id := by
  intro hall
  have hr : Run (replay (init 0 0 0) (twoUsers 0o660)).1 (replay (init 0 0 0) (twoUsers 0o660)).2 :=
    ⟨0, 0, 0, trace_replay _ _⟩
  have hns := hall _ _ 2 [98] 7 ⟨0, 0, 0, 0, 0o660, 1, 5⟩ hr (by decide) (by decide)
    (by unfold Grants; decide)
  exact not_noSelfGrant_of_group_bit (a := ⟨0, 0, 0, 0, 0o660, 1, 5⟩) hr.sameKeys (by decide)
    (by decide) (by decide) hns

end ExtentServer
