/-
# The extent calls of a client

What each call of `extent_client` that reaches the server returns and does, as a program sees it that
goes on with the response.  Every call either is refused and leaves the extents alone, or finds no
extent, or does its work; `MayRead` and `MayWrite` say which, in terms of the state before the call.

* No call changes the value of a key or of a group (`SameGrants`), so what a client may do to an extent
  changes only with the mode, owner and group of that extent (`MayWrite.congr`).
* `AloneIn f` runs a program alone in the environments `f`; with a constant `f` the clock is fixed.
* `alone_get`, `alone_put`, `alone_setattr`, `alone_remove`: one lemma for each call, with the state it
  leaves and the part of the program that follows.
-/
import Yfs.DirectoryRuns

open YfsClient

/-! ## What a client may do -/

namespace YfsClient

/-- The client has the stored key, and the extent lets its user read. -/
def MayRead (cl : YfsClient) (s : ExtentServer) (id : ExtentId) : Prop :=
  s.userkeys.get cl.userid = cl.userkey ∧ s.Permits ExtentServer.readBits id cl.userid

/-- The client has the stored key, and the extent lets its user write. -/
def MayWrite (cl : YfsClient) (s : ExtentServer) (id : ExtentId) : Prop :=
  s.userkeys.get cl.userid = cl.userkey ∧ s.Permits ExtentServer.writeBits id cl.userid

end YfsClient

namespace ExtentServer

/-- The value of every key and of every group is the same. -/
structure SameGrants (s t : ExtentServer) : Prop where
  keys : ∀ u, t.userkeys.get u = s.userkeys.get u
  groups : ∀ g, t.groupusers.get g = s.groupusers.get g

theorem SameGrants.trans {s t u : ExtentServer} (h : s.SameGrants t) (h' : t.SameGrants u) :
    s.SameGrants u :=
  ⟨fun x => (h'.keys x).trans (h.keys x), fun x => (h'.groups x).trans (h.groups x)⟩

theorem Checked.sameGrants {s t : ExtentServer} {userid : UserId} (h : s.Checked userid t) :
    s.SameGrants t :=
  ⟨fun u => by rw [h.userkeys, StdMap.get_touch], h.groupusers⟩

/-- A record grants the same under the same groups. -/
theorem SameGrants.grants_iff {s t : ExtentServer} (h : s.SameGrants t) (bits : PermBits) {a b : Attr}
    (hab : ownership b = ownership a) (userid : UserId) :
    Grants bits t b userid ↔ Grants bits s a userid := by
  obtain ⟨hmode, huid, hgid⟩ : b.mode = a.mode ∧ b.uid = a.uid ∧ b.gid = a.gid := by
    simpa [ownership] using hab
  rw [Grants, Grants, hmode, huid, hgid, h.groups]

/-- An extent permits the same when its mode, owner and group are the same. -/
theorem SameGrants.permits_iff {s t : ExtentServer} (h : s.SameGrants t) (bits : PermBits)
    {id : ExtentId} (hid : (t.attrs id).map ownership = (s.attrs id).map ownership)
    (userid : UserId) : t.Permits bits id userid ↔ s.Permits bits id userid := by
  unfold Permits
  cases hs : s.attrs id with
  | none =>
    have ht : t.attrs id = none := by simpa [hs] using hid
    simp [ht]
  | some a =>
    obtain ⟨b, hb, hab⟩ : ∃ b, t.attrs id = some b ∧ ownership b = ownership a := by
      simpa [hs, Option.map_eq_some_iff] using hid
    simp only [hb, Option.some.injEq, forall_eq']
    exact h.grants_iff bits hab userid

end ExtentServer

theorem YfsClient.MayWrite.congr {cl : YfsClient} {s t : ExtentServer} (h : s.SameGrants t)
    {id : ExtentId} (hid : (t.attrs id).map ExtentServer.ownership =
      (s.attrs id).map ExtentServer.ownership) : cl.MayWrite t id ↔ cl.MayWrite s id := by
  rw [MayWrite, MayWrite, h.keys, h.permits_iff _ hid]

/-- A `get` changes only the access time of its extent, and so nobody's permissions. -/
theorem YfsClient.mayWrite_of_get {cl : YfsClient} {s t : ExtentServer} (h : s.SameGrants t)
    {id : ExtentId} {a : Attr} {time : UInt32} (ha : s.attrs id = some a)
    (hattrs : t.attrs = s.attrs.set id { a with atime := time }) (id' : ExtentId) :
    cl.MayWrite t id' ↔ cl.MayWrite s id' := by
  apply MayWrite.congr h
  by_cases hid : id' = id
  · subst hid
    rw [hattrs, StdMap.set_self, ha]
    rfl
  · rw [hattrs, StdMap.set_of_ne _ _ hid]

theorem YfsClient.MayRead.congr {cl : YfsClient} {s t : ExtentServer} (h : s.SameGrants t)
    {id : ExtentId} (hid : (t.attrs id).map ExtentServer.ownership =
      (s.attrs id).map ExtentServer.ownership) : cl.MayRead t id ↔ cl.MayRead s id := by
  rw [MayRead, MayRead, h.keys, h.permits_iff _ hid]

/-! ## The calls of a program -/

section Calls

variable {ε : Type} {f : ε → Env} {cl : YfsClient} {held : Finset ExtentId} {s s' : ExtentServer}
  {tr : List (ExtentCall × Resp)} {o : Outcome FsReply} {id : ExtentId}

/-- Run alone, with the extent calls reading the environments `f`. -/
abbrev AloneIn (f : ε → Env) (held : Finset ExtentId) (s : ExtentServer) (p : FsProg)
    (tr : List (ExtentCall × Resp)) (o : Outcome FsReply) (s' : ExtentServer) : Prop :=
  Prog.Alone (fun e => serve (f e)) held s p tr o s'

/-- A `get`: refused, without an extent, or with its contents. -/
theorem alone_get {p q : FsProg} (rest : Str → FsProg) (hs : s.SameKeys)
    (h : AloneIn f held s (cl.ec .get id (fun r =>
      if r.Is .NOENT then p else if r.Is .NOACCESS then q else rest (r.bufOr []))) tr o s') :
    ∃ t tr', s.SameGrants t ∧ t.contents = s.contents ∧
      ((¬ cl.MayRead s id ∧ t.attrs = s.attrs ∧ AloneIn f held t q tr' o s') ∨
        (cl.MayRead s id ∧ s.contents id = none ∧ t.attrs = s.attrs ∧
          AloneIn f held t p tr' o s') ∨
        (cl.MayRead s id ∧ ∃ e a buf, s.attrs id = some a ∧ s.contents id = some buf ∧
          t.attrs = s.attrs.set id { a with atime := (f e).time } ∧
          AloneIn f held t (rest buf) tr' o s')) := by
  obtain ⟨e, tr', -, h⟩ := Prog.alone_call.1 h
  have hserve : serve (f e) ⟨.get, id, cl.userid, cl.userkey⟩ s =
      (.reply (s.get (f e) id cl.userid cl.userkey).1, (s.get (f e) id cl.userid cl.userkey).2) := rfl
  rw [hserve, ExtentServer.get_eq] at h
  obtain ⟨t, ht, ⟨hno, heq⟩ | ⟨hyes, ⟨hnone, heq⟩ | ⟨buf, hbuf, heq⟩⟩⟩ :=
    ExtentServer.guarded_ifContents_spec ExtentServer.readBits id cl.userid cl.userkey s
      (fun buf => ⟨.OK, buf, default⟩)
      (fun a buf => (some { a.getD default with atime := (f e).time }, some buf))
  · rw [heq] at h
    exact ⟨t, tr', ht.sameGrants, ht.contents, .inl ⟨hno, ht.attrs, h⟩⟩
  · rw [heq] at h
    exact ⟨t, tr', ht.sameGrants, ht.contents, .inr (.inl ⟨hyes, hnone, ht.attrs, h⟩)⟩
  · rw [heq] at h
    obtain ⟨a, ha⟩ := hs.attrs_of_contents hbuf
    refine ⟨_, tr', ?_, ?_, .inr (.inr ⟨hyes, e, a, buf, ha, hbuf, ?_, h⟩)⟩
    · exact ⟨ht.sameGrants.keys, ht.sameGrants.groups⟩
    · show Function.update s.contents id (some buf) = s.contents
      rw [← hbuf, Function.update_eq_self]
    · rw [ha]
      rfl

/-- A `put` whose status is compared with `NOACCESS`. -/
theorem alone_put {buf : Str} {q k : FsProg}
    (h : AloneIn f held s (cl.ec (.put buf) id (fun r => if r.Is .NOACCESS then q else k)) tr o s') :
    ∃ t tr', s.SameGrants t ∧
      ((¬ cl.MayWrite s id ∧ t.attrs = s.attrs ∧ t.contents = s.contents ∧
          AloneIn f held t q tr' o s') ∨
        (cl.MayWrite s id ∧ ∃ e, t.attrs = s.attrs.set id (ExtentServer.putAttr (f e) s id buf) ∧
          t.contents = s.contents.set id buf ∧ AloneIn f held t k tr' o s')) := by
  obtain ⟨e, tr', -, h⟩ := Prog.alone_call.1 h
  have hserve : serve (f e) ⟨.put buf, id, cl.userid, cl.userkey⟩ s =
      (.reply (s.put (f e) id buf cl.userid cl.userkey).1,
        (s.put (f e) id buf cl.userid cl.userkey).2) := rfl
  rw [hserve, ExtentServer.put_eq] at h
  obtain ⟨t, ht, ⟨hno, heq⟩ | ⟨hyes, heq⟩⟩ :=
    ExtentServer.guarded_spec ExtentServer.writeBits id cl.userid cl.userkey s
      (fun t => (⟨.OK, [], default⟩,
        { t with
          attrs := t.attrs.set id (ExtentServer.putAttr (f e) s id buf)
          contents := t.contents.set id buf }))
  · rw [heq] at h
    exact ⟨t, tr', ht.sameGrants, .inl ⟨hno, ht.attrs, ht.contents, h⟩⟩
  · rw [heq] at h
    refine ⟨_, tr', ?_, .inr ⟨hyes, e, ?_, ?_, h⟩⟩
    · exact ⟨ht.sameGrants.keys, ht.sameGrants.groups⟩
    · rw [ht.attrs]
    · rw [ht.contents]

/-- The common shape of `setattr` and `remove`: refused, without an extent, or done. -/
theorem alone_guarded {op : ExtentOp} {q k : FsProg}
    (new : Option Attr → Str → Option Attr × Option Str)
    (hserve : ∀ env, serve env ⟨op, id, cl.userid, cl.userkey⟩ s =
      ((fun x => (Resp.reply x.1, x.2)) (ExtentServer.guarded ExtentServer.writeBits id cl.userid
        cl.userkey (ExtentServer.ifContents id (fun _ => ⟨.OK, [], default⟩) new) s)))
    (h : AloneIn f held s (cl.ec op id (fun r => if r.Is .NOACCESS then q else k)) tr o s') :
    ∃ t tr', s.SameGrants t ∧
      ((¬ cl.MayWrite s id ∧ t.attrs = s.attrs ∧ t.contents = s.contents ∧
          AloneIn f held t q tr' o s') ∨
        (cl.MayWrite s id ∧ s.contents id = none ∧ t.attrs = s.attrs ∧ t.contents = s.contents ∧
          AloneIn f held t k tr' o s') ∨
        (cl.MayWrite s id ∧ ∃ buf, s.contents id = some buf ∧
          t.attrs = Function.update s.attrs id (new (s.attrs id) buf).1 ∧
          t.contents = Function.update s.contents id (new (s.attrs id) buf).2 ∧
          AloneIn f held t k tr' o s')) := by
  obtain ⟨e, tr', -, h⟩ := Prog.alone_call.1 h
  rw [hserve] at h
  obtain ⟨t, ht, ⟨hno, heq⟩ | ⟨hyes, ⟨hnone, heq⟩ | ⟨buf, hbuf, heq⟩⟩⟩ :=
    ExtentServer.guarded_ifContents_spec ExtentServer.writeBits id cl.userid cl.userkey s
      (fun _ => ⟨.OK, [], default⟩) new
  · rw [heq] at h
    exact ⟨t, tr', ht.sameGrants, .inl ⟨hno, ht.attrs, ht.contents, h⟩⟩
  · rw [heq] at h
    exact ⟨t, tr', ht.sameGrants, .inr (.inl ⟨hyes, hnone, ht.attrs, ht.contents, h⟩)⟩
  · rw [heq] at h
    refine ⟨_, tr', ?_, .inr (.inr ⟨hyes, buf, hbuf, ?_, ?_, h⟩)⟩
    · exact ⟨ht.sameGrants.keys, ht.sameGrants.groups⟩
    · rfl
    · rfl

/-- A `setattr` whose status is compared with `NOACCESS`. -/
theorem alone_setattr {x : Attr} {q k : FsProg}
    (h : AloneIn f held s (cl.ec (.setattr x) id (fun r => if r.Is .NOACCESS then q else k)) tr o s') :
    ∃ t tr', s.SameGrants t ∧ t.contents = s.contents ∧
      ((¬ cl.MayWrite s id ∧ t.attrs = s.attrs ∧ AloneIn f held t q tr' o s') ∨
        (cl.MayWrite s id ∧ s.contents id = none ∧ t.attrs = s.attrs ∧
          AloneIn f held t k tr' o s') ∨
        (cl.MayWrite s id ∧ s.contents id ≠ none ∧
          t.attrs = s.attrs.set id
            { s.attrs.get id with mode := x.mode, uid := x.uid, gid := x.gid } ∧
          AloneIn f held t k tr' o s')) := by
  obtain ⟨t, tr', hg, ⟨hno, ha, hc, h⟩ | ⟨hyes, hnone, ha, hc, h⟩ | ⟨hyes, buf, hbuf, ha, hc, h⟩⟩ :=
    alone_guarded (fun a buf =>
      (some { a.getD default with mode := x.mode, uid := x.uid, gid := x.gid }, some buf))
      (fun env => by rw [← ExtentServer.setattr_eq]; rfl) h
  · exact ⟨t, tr', hg, hc, .inl ⟨hno, ha, h⟩⟩
  · exact ⟨t, tr', hg, hc, .inr (.inl ⟨hyes, hnone, ha, h⟩)⟩
  · refine ⟨t, tr', hg, ?_, .inr (.inr ⟨hyes, by simp [hbuf], ha, h⟩)⟩
    rw [hc, ← hbuf, Function.update_eq_self]

/-- A `remove` whose status is compared with `NOACCESS`. -/
theorem alone_remove {q k : FsProg}
    (h : AloneIn f held s (cl.ec .remove id (fun r => if r.Is .NOACCESS then q else k)) tr o s') :
    ∃ t tr', s.SameGrants t ∧
      ((¬ cl.MayWrite s id ∧ t.attrs = s.attrs ∧ t.contents = s.contents ∧
          AloneIn f held t q tr' o s') ∨
        (cl.MayWrite s id ∧ t.contents = s.contents.erase id ∧ AloneIn f held t k tr' o s')) := by
  obtain ⟨t, tr', hg, ⟨hno, ha, hc, h⟩ | ⟨hyes, hnone, ha, hc, h⟩ | ⟨hyes, buf, hbuf, ha, hc, h⟩⟩ :=
    alone_guarded (fun _ _ => (none, none)) (fun env => by rw [← ExtentServer.remove_eq]; rfl) h
  · exact ⟨t, tr', hg, .inl ⟨hno, ha, hc, h⟩⟩
  · refine ⟨t, tr', hg, .inr ⟨hyes, ?_, h⟩⟩
    rw [hc, StdMap.erase, ← hnone, Function.update_eq_self]
  · exact ⟨t, tr', hg, .inr ⟨hyes, hc, h⟩⟩

/-- A `getattr` of an existing extent. -/
theorem alone_getattr {a : Attr} {buf : Str} {k : Resp → FsProg} (ha : s.attrs id = some a)
    (hbuf : s.contents id = some buf) (h : AloneIn f held s (cl.ec .getattr id k) tr o s') :
    ∃ tr', AloneIn f held s (k (.reply ⟨.OK, [], a⟩)) tr' o s' := by
  obtain ⟨e, tr', -, h⟩ := Prog.alone_call.1 h
  rw [serve_getattr (f e) ha hbuf] at h
  exact ⟨tr', h⟩

end Calls
