/-
# The extents are the nodes of the file system

`Represents fs s`: the extent server in the state `s` stores the nodes of `fs`, each as a record and a
string, and knows the same keys and groups.  The calls of a client on the server are steps on the
nodes (`get`, `put`, `setattr`, `remove`, `getattr`): one lemma for each call, with the file system
that the server represents afterwards.
-/
import Yfs.ExtentCalls
import Yfs.FileSystem

open YfsClient

/-- The record of a node. -/
def Node.attr (n : Node) : Attr :=
  ⟨n.atime, n.mtime, n.ctime, UInt32.ofNat n.body.text.length, n.mode, n.uid, n.gid⟩

/-- The two nodes have the same mode, owner and group. -/
def Node.SameOwner (n m : Node) : Prop := n.mode = m.mode ∧ n.uid = m.uid ∧ n.gid = m.gid

namespace FileSystem

/-- The extent server in the state `s` stores the file system `fs`. -/
structure Represents (fs : FileSystem) (s : ExtentServer) : Prop where
  attrs : s.attrs = fun i => (fs.nodes i).map Node.attr
  contents : s.contents = fun i => (fs.nodes i).map (fun n => n.body.text)
  keys : ∀ u, s.userkeys.get u = fs.keys u
  groups : ∀ g, s.groupusers.get g = fs.groups g
  fits : ∀ i n, fs.nodes i = some n → n.body.Fits i

/-! ## Changing one node -/

section Set

variable {fs : FileSystem} {i j : Inum} {n m : Node} {cl : YfsClient}

@[simp] theorem set_set (x y : Option Node) : (fs.set i x).set i y = fs.set i y := by
  simp [set]

@[simp] theorem nodes_set_self (x : Option Node) : (fs.set i x).nodes i = x := by
  simp [set]

theorem nodes_set_of_ne (x : Option Node) (h : j ≠ i) : (fs.set i x).nodes j = fs.nodes j := by
  simp [set, h]

/-- A change that keeps mode, owner and group changes nobody's permissions. -/
theorem permits_set (hm : fs.nodes i = some m) (hnm : n.SameOwner m)
    (bits : ExtentServer.PermBits) (u : UserId) :
    (∀ x, (fs.set i n).nodes j = some x → x.Permits bits fs.groups u) ↔
      ∀ x, fs.nodes j = some x → x.Permits bits fs.groups u := by
  by_cases hj : j = i
  · subst hj
    rw [nodes_set_self, hm]
    simp only [Option.some.injEq, forall_eq', Node.Permits]
    rw [hnm.1, hnm.2.1, hnm.2.2]
  · rw [nodes_set_of_ne _ hj]

theorem mayWrite_set (hm : fs.nodes i = some m) (hnm : n.SameOwner m) :
    (fs.set i n).MayWrite cl j ↔ fs.MayWrite cl j :=
  and_congr Iff.rfl (permits_set hm hnm _ _)

theorem mayWrite_of_ne (x : Option Node) (h : j ≠ i) :
    (fs.set i x).MayWrite cl j ↔ fs.MayWrite cl j := by
  unfold MayWrite
  rw [nodes_set_of_ne _ h]
  exact Iff.rfl

end Set

namespace Represents

variable {fs fs' : FileSystem} {s t : ExtentServer} {cl : YfsClient} {i : Inum}

/-- Only the nodes have changed. -/
theorem of_grants (h : Represents fs s) (hg : s.SameGrants t) (hkeys : fs'.keys = fs.keys)
    (hgroups : fs'.groups = fs.groups) (hattrs : t.attrs = fun i => (fs'.nodes i).map Node.attr)
    (hcontents : t.contents = fun i => (fs'.nodes i).map (fun n => n.body.text))
    (hfits : ∀ i n, fs'.nodes i = some n → n.body.Fits i) : Represents fs' t where
  attrs := hattrs
  contents := hcontents
  keys u := by rw [hg.keys, h.keys, hkeys]
  groups g := by rw [hg.groups, h.groups, hgroups]
  fits := hfits

/-- A call that changes nothing. -/
theorem same (h : Represents fs s) (hg : s.SameGrants t) (ha : t.attrs = s.attrs)
    (hc : t.contents = s.contents) : Represents fs t :=
  h.of_grants hg rfl rfl (ha.trans h.attrs) (hc.trans h.contents) h.fits

/-- One extent has been changed with its node. -/
theorem update (h : Represents fs s) (hg : s.SameGrants t) (x : Option Node)
    (ha : t.attrs = Function.update s.attrs i (x.map Node.attr))
    (hc : t.contents = Function.update s.contents i (x.map (fun n => n.body.text)))
    (hfits : ∀ n, x = some n → n.body.Fits i) : Represents (fs.set i x) t := by
  refine h.of_grants hg rfl rfl ?_ ?_ ?_
  · rw [ha, h.attrs]
    funext j
    by_cases hj : j = i
    · subst hj
      simp
    · simp [nodes_set_of_ne _ hj, hj]
  · rw [hc, h.contents]
    funext j
    by_cases hj : j = i
    · subst hj
      simp
    · simp [nodes_set_of_ne _ hj, hj]
  · intro j n hn
    by_cases hj : j = i
    · subst hj
      exact hfits n (by simpa using hn)
    · rw [nodes_set_of_ne _ hj] at hn
      exact h.fits j n hn

theorem sameKeys (h : Represents fs s) : s.SameKeys := by
  intro j
  rw [h.attrs, h.contents]
  simp

theorem permits_iff (h : Represents fs s) (bits : ExtentServer.PermBits) (u : UserId) :
    s.Permits bits i u ↔ ∀ n, fs.nodes i = some n → n.Permits bits fs.groups u := by
  unfold ExtentServer.Permits
  rw [h.attrs]
  constructor
  · intro hp n hn
    have hgr := hp n.attr (by simp [hn])
    rwa [ExtentServer.Grants, h.groups] at hgr
  · intro hp a ha
    obtain ⟨n, hn, rfl⟩ := Option.map_eq_some_iff.1 ha
    have hgr := hp n hn
    rwa [ExtentServer.Grants, h.groups]

/-- Who may read is read off the nodes. -/
theorem mayRead_iff (h : Represents fs s) : cl.MayRead s i ↔ fs.MayRead cl i := by
  rw [YfsClient.MayRead, FileSystem.MayRead, h.keys, h.permits_iff]

/-- Who may write is read off the nodes. -/
theorem mayWrite_iff (h : Represents fs s) : cl.MayWrite s i ↔ fs.MayWrite cl i := by
  rw [YfsClient.MayWrite, FileSystem.MayWrite, h.keys, h.permits_iff]

/-! ## The calls -/

variable {held : Finset ExtentId} {tr : List (ExtentCall × Resp)} {o : Outcome FsReply}
  {s' : ExtentServer}

/-- `get`: refused, without a node, or with its string. -/
theorem get {p q : FsProg} (rest : Str → FsProg) (hr : Represents fs s)
    (h : Prog.Alone serve held s (cl.ec .get i (fun r =>
      if r.Is .NOENT then p else if r.Is .NOACCESS then q else rest (r.bufOr []))) tr o s') :
    ∃ t tr',
      (¬ fs.MayRead cl i ∧ Represents fs t ∧ Prog.Alone serve held t q tr' o s') ∨
        (fs.MayRead cl i ∧ fs.nodes i = none ∧ Represents fs t ∧ Prog.Alone serve held t p tr' o s') ∨
        ∃ b n, fs.Opens cl i b n ∧ b.Fits i ∧ Represents (fs.set i n) t ∧
          Prog.Alone serve held t (rest b.text) tr' o s' := by
  obtain ⟨t, tr', hg, hc, ⟨hno, ha, h⟩ | ⟨hyes, hnone, ha, h⟩ | ⟨hyes, e, a, buf, ha, hbuf, hat, h⟩⟩ :=
    alone_get (f := fun e => e) rest hr.sameKeys h
  · exact ⟨t, tr', .inl ⟨fun hm => hno (hr.mayRead_iff.2 hm), hr.same hg ha hc, h⟩⟩
  · refine ⟨t, tr', .inr (.inl ⟨hr.mayRead_iff.1 hyes, ?_, hr.same hg ha hc, h⟩)⟩
    rw [hr.contents] at hnone
    simpa using hnone
  · rw [hr.contents] at hbuf
    obtain ⟨n, hn, rfl⟩ := Option.map_eq_some_iff.1 hbuf
    rw [hr.attrs] at ha
    obtain rfl : n.attr = a := by simpa [hn] using ha
    refine ⟨t, tr', .inr (.inr ⟨n.body, n.accessed e.time, ⟨hr.mayRead_iff.1 hyes, ⟨n, e.time, hn, rfl⟩,
      rfl⟩, hr.fits i n hn, hr.update hg (some (n.accessed e.time)) hat ?_ ?_, h⟩)⟩
    · rw [hc]
      refine (Function.update_eq_self_iff.2 ?_).symm
      rw [hr.contents]
      simp [hn, Node.accessed]
    · rintro _ ⟨⟩
      exact hr.fits i n hn

/-- `put` of the string of a body. -/
theorem put {b : Body} {q k : FsProg} (hb : b.Fits i) (hr : Represents fs s)
    (h : Prog.Alone serve held s (cl.ec (.put b.text) i (fun r =>
      if r.Is .NOACCESS then q else k)) tr o s') :
    ∃ t tr',
      (¬ fs.MayWrite cl i ∧ Represents fs t ∧ Prog.Alone serve held t q tr' o s') ∨
        (fs.MayWrite cl i ∧ ∃ n, n.body = b ∧ (fs.nodes i = none → n.mode = 0o777) ∧
          (∀ m, fs.nodes i = some m → ∃ time, n = m.stored b time) ∧ Represents (fs.set i n) t ∧
          Prog.Alone serve held t k tr' o s') := by
  obtain ⟨t, tr', hg, ⟨hno, ha, hc, h⟩ | ⟨hyes, e, ha, hc, h⟩⟩ := alone_put (f := fun e => e) h
  · exact ⟨t, tr', .inl ⟨fun hm => hno (hr.mayWrite_iff.2 hm), hr.same hg ha hc, h⟩⟩
  · refine ⟨t, tr', .inr ⟨hr.mayWrite_iff.1 hyes, ?_⟩⟩
    cases hn : fs.nodes i with
    | none =>
      have hnone : s.attrs i = none := by rw [hr.attrs]; simp [hn]
      refine ⟨⟨e.time, e.time, e.time, 0o777, e.stack.uid, e.stack.gid, b⟩, rfl, fun _ => rfl, ?_,
        hr.update hg (some ⟨e.time, e.time, e.time, 0o777, e.stack.uid, e.stack.gid, b⟩) ?_ hc ?_, h⟩
      · rintro _ ⟨⟩
      · rw [ha, ExtentServer.putAttr, hnone]
        rfl
      · rintro _ ⟨⟩
        exact hb
    | some m =>
      have hsome : s.attrs i = some m.attr := by rw [hr.attrs]; simp [hn]
      refine ⟨m.stored b e.time, rfl, ?_, ?_, hr.update hg (some (m.stored b e.time)) ?_ hc ?_, h⟩
      · rintro ⟨⟩
      · rintro _ ⟨⟩
        exact ⟨e.time, rfl⟩
      · rw [ha, ExtentServer.putAttr, hsome]
        rfl
      · rintro _ ⟨⟩
        exact hb

/-- `getattr`. -/
theorem getattr {k : Resp → FsProg} (hr : Represents fs s)
    (h : Prog.Alone serve held s (cl.ec .getattr i k) tr o s') :
    ∃ tr', (fs.nodes i = none ∧ ∃ a, Prog.Alone serve held s (k (.reply ⟨.NOENT, [], a⟩)) tr' o s') ∨
      ∃ n, fs.nodes i = some n ∧ Prog.Alone serve held s (k (.reply ⟨.OK, [], n.attr⟩)) tr' o s' := by
  cases hn : fs.nodes i with
  | some n =>
    have hattr : s.attrs i = some n.attr := by rw [hr.attrs]; simp [hn]
    have hbuf : s.contents i = some n.body.text := by rw [hr.contents]; simp [hn]
    obtain ⟨tr', h⟩ := alone_getattr (f := fun e => e) hattr hbuf h
    exact ⟨tr', .inr ⟨n, rfl, h⟩⟩
  | none =>
    have hnone : s.contents i = none := by rw [hr.contents]; simp [hn]
    obtain ⟨e, tr', -, h⟩ := Prog.alone_call.1 h
    have hserve : serve e ⟨.getattr, i, cl.userid, cl.userkey⟩ s =
        (.reply ⟨.NOENT, [], ⟨0, 0, 0, 0, 0o777, 0, 0⟩⟩, s) := by
      simp [serve, ExtentCall.toCall, ExtentServer.exec, ExtentServer.getattr, hnone]
    rw [hserve] at h
    exact ⟨tr', .inl ⟨rfl, _, h⟩⟩

/-- `setattr` of a node that is there. -/
theorem setattr {a : Attr} {q k : FsProg} {n : Node} (hr : Represents fs s) (hn : fs.nodes i = some n)
    (h : Prog.Alone serve held s (cl.ec (.setattr a) i (fun r =>
      if r.Is .NOACCESS then q else k)) tr o s') :
    ∃ t tr',
      (¬ fs.MayWrite cl i ∧ Represents fs t ∧ Prog.Alone serve held t q tr' o s') ∨
        (fs.MayWrite cl i ∧
          Represents (fs.set i (some { n with mode := a.mode, uid := a.uid, gid := a.gid })) t ∧
          Prog.Alone serve held t k tr' o s') := by
  have hattr : s.attrs i = some n.attr := by rw [hr.attrs]; simp [hn]
  have hbuf : s.contents i = some n.body.text := by rw [hr.contents]; simp [hn]
  obtain ⟨t, tr', hg, hc, ⟨hno, ha, h⟩ | ⟨-, hnone, -⟩ | ⟨hyes, -, ha, h⟩⟩ :=
    alone_setattr (f := fun e => e) h
  · exact ⟨t, tr', .inl ⟨fun hm => hno (hr.mayWrite_iff.2 hm), hr.same hg ha hc, h⟩⟩
  · rw [hbuf] at hnone
    cases hnone
  · refine ⟨t, tr', .inr ⟨hr.mayWrite_iff.1 hyes, hr.update hg (some _) ?_ ?_ ?_, h⟩⟩
    · rw [ha, StdMap.get_of_some hattr]
      rfl
    · rw [hc]
      exact (Function.update_eq_self_iff.2 hbuf.symm).symm
    · rintro _ ⟨⟩
      exact hr.fits i n hn

/-- `remove`, whether or not there is a node. -/
theorem remove {q k : FsProg} (hr : Represents fs s)
    (h : Prog.Alone serve held s (cl.ec .remove i (fun r =>
      if r.Is .NOACCESS then q else k)) tr o s') :
    ∃ t tr',
      (¬ fs.MayWrite cl i ∧ Represents fs t ∧ Prog.Alone serve held t q tr' o s') ∨
        (fs.MayWrite cl i ∧ Represents (fs.set i none) t ∧ Prog.Alone serve held t k tr' o s') := by
  obtain ⟨t, tr', hg, ⟨hno, ha, hc, h⟩ | ⟨hyes, hnone, ha, hc, h⟩ | ⟨hyes, buf, hbuf, ha, hc, h⟩⟩ :=
    alone_guarded (f := fun e => e) (fun _ _ => (none, none))
      (fun env => by rw [← ExtentServer.remove_eq]; rfl) h
  · exact ⟨t, tr', .inl ⟨fun hm => hno (hr.mayWrite_iff.2 hm), hr.same hg ha hc, h⟩⟩
  · refine ⟨t, tr', .inr ⟨hr.mayWrite_iff.1 hyes, ?_, h⟩⟩
    have hattr : s.attrs i = none := (hr.sameKeys i).2 hnone
    refine hr.update hg none ?_ ?_ (by rintro _ ⟨⟩)
    · rw [ha]
      exact (Function.update_eq_self_iff.2 hattr.symm).symm
    · rw [hc]
      exact (Function.update_eq_self_iff.2 hnone.symm).symm
  · exact ⟨t, tr', .inr ⟨hr.mayWrite_iff.1 hyes, hr.update hg none ha hc (by rintro _ ⟨⟩), h⟩⟩

end Represents

end FileSystem
