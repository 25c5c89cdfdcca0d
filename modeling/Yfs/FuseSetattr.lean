/-
# What a successful `setattr` has done

`fuseserver_setattr` makes up to four changes one after another (size, mode, owner, group) and keeps one
status, which each of them overwrites.  Only the last status decides between an error and the reply with
the new attributes.

* A change of mode, owner or group needs write permission under what the changes before it have left
  (`Granted`).  A refused one changes nothing, so that all later ones are refused too: when the last
  one succeeds, they all have (`settingAll_ends`).
* The size is another matter: it also needs read permission.  Refused for lack of it, the change is
  forgotten as soon as a later one succeeds.
* `setattr_made_iff`: a reply with attributes means that everything has been done if and only if the
  size is not asked for, or `SizeHonest` holds.
-/
import Yfs.ExtentCalls
import Yfs.FuseAccess
import Yfs.FuseResize

open YfsClient

namespace Fuse

/-! ## The changes of mode, owner and group -/

/-- A change of the mode, the owner or the group of a record. -/
inductive OwnEdit
  | mode (m : UInt32)
  | uid (u : UserId)
  | gid (g : GroupId)
  deriving DecidableEq, Repr

namespace OwnEdit

/-- The record after the change. -/
def apply : OwnEdit → Attr → Attr
  | mode m, a => { a with mode := m }
  | uid u, a => { a with uid := u }
  | gid g, a => { a with gid := g }

/-- The call that makes the change. -/
def call (inum : Inum) : OwnEdit → FsCall
  | mode m => .chmod inum m.toUInt64
  | uid u => .chuid inum u.toUInt64
  | gid g => .chgid inum g.toUInt64

/-- The bit of `to_set` that asks for the change. -/
def flag : OwnEdit → UInt32
  | mode _ => setAttrMode
  | uid _ => setAttrUid
  | gid _ => setAttrGid

theorem call_prog (e : OwnEdit) (inum : Inum) (cl : YfsClient) :
    (e.call inum).prog cl = cl.change inum e.apply := by
  cases e with
  | mode m =>
    simp only [call, FsCall.prog, chmod, UInt32.toUInt32_toUInt64]
    rfl
  | uid u =>
    simp only [call, FsCall.prog, chuid, UInt32.toUInt32_toUInt64]
    rfl
  | gid g =>
    simp only [call, FsCall.prog, chgid, UInt32.toUInt32_toUInt64]
    rfl

/-- The server takes over everything that the change has changed. -/
theorem set_apply (e : OwnEdit) (a : Attr) :
    { a with mode := (e.apply a).mode, uid := (e.apply a).uid, gid := (e.apply a).gid } = e.apply a := by
  cases e <;> rfl

theorem ownership_apply (e : OwnEdit) {a b : Attr}
    (h : ExtentServer.ownership b = ExtentServer.ownership a) :
    ExtentServer.ownership (e.apply b) = ExtentServer.ownership (e.apply a) := by
  cases e <;> simp_all [ExtentServer.ownership, apply]

end OwnEdit

/-- The record after all the changes. -/
def applyAll (es : List OwnEdit) (a : Attr) : Attr := es.foldl (fun a e => e.apply a) a

/-- The client has the stored key, and every change is granted under the record that the changes before
it have left. -/
def Granted (cl : YfsClient) (s : ExtentServer) : Attr → List OwnEdit → Prop
  | _, [] => True
  | a, e :: es =>
    (s.userkeys.get cl.userid = cl.userkey ∧ ExtentServer.Grants ExtentServer.writeBits s a cl.userid) ∧
      Granted cl s (e.apply a) es

theorem granted_congr {cl : YfsClient} {s t : ExtentServer} (h : s.SameGrants t) {a b : Attr}
    (hab : ExtentServer.ownership b = ExtentServer.ownership a) (es : List OwnEdit) :
    Granted cl t b es ↔ Granted cl s a es := by
  induction es generalizing a b with
  | nil => exact Iff.rfl
  | cons e es ih =>
    rw [Granted, Granted, h.keys, h.grants_iff _ hab, ih (e.ownership_apply hab)]

/-- What `fuseserver_setattr` does after the size: the changes of a list that `to_set` asks for. -/
def settingAll (inum : Inum) (toSet : UInt32) : List OwnEdit → FsStatus → Handler
  | [], ret => setattrReply inum ret
  | e :: es, ret => setting e.flag toSet (e.call inum) ret (settingAll inum toSet es)

/-- The changes of mode, owner and group that `attr` holds. -/
def ownEdits (attr : Stat) : List OwnEdit := [.mode attr.mode, .uid attr.uid, .gid attr.gid]

/-- The changes that are asked for. -/
def requested (toSet : UInt32) (es : List OwnEdit) : List OwnEdit :=
  es.filter (fun e => decide (e.flag &&& toSet ≠ 0))

theorem setattrRest_eq (inum : Inum) (attr : Stat) (toSet : UInt32) (ret : FsStatus) :
    setattrRest inum attr toSet ret = settingAll inum toSet (ownEdits attr) ret := rfl

/-! ## How the calls end -/

section Calls

variable {ε : Type} {f : ε → Env} {cl : YfsClient} {s s' : ExtentServer} {inum : Inum} {a : Attr}
  {content : Str} {tr : List (ExtentCall × Resp)} {o : Outcome FsReply}

theorem mayWrite_iff (ha : s.attrs inum = some a) :
    cl.MayWrite s inum ↔ s.userkeys.get cl.userid = cl.userkey ∧
      ExtentServer.Grants ExtentServer.writeBits s a cl.userid := by
  simp [MayWrite, ExtentServer.Permits, ha]

/-- What is granted first needs write permission. -/
theorem mayWrite_of_granted (ha : s.attrs inum = some a) {es : List OwnEdit}
    (hgr : Granted cl s a es) (hne : es ≠ []) : cl.MayWrite s inum := by
  cases es with
  | nil => exact absurd rfl hne
  | cons e es => exact (mayWrite_iff ha).mpr hgr.1

/-- **How `chmod`, `chuid` and `chgid` end**: refused, or done. -/
theorem change_ends (e : OwnEdit) (ha : s.attrs inum = some a) (hb : s.contents inum = some content)
    (h : AloneIn f ∅ s ((e.call inum).prog cl) tr o s') :
    s.SameGrants s' ∧ s'.contents = s.contents ∧
      ((¬ cl.MayWrite s inum ∧ o = .ret ⟨.NOACCESS, .untouched⟩ ∧ s'.attrs inum = some a) ∨
        (cl.MayWrite s inum ∧ o = .ret ⟨.OK, .untouched⟩ ∧ s'.attrs inum = some (e.apply a))) := by
  rw [e.call_prog] at h
  obtain ⟨-, h⟩ := Prog.alone_withLock.1 h
  obtain ⟨tr₁, h⟩ := alone_getattr ha hb h
  rw [if_neg (by simp [Resp.Is])] at h
  obtain ⟨t, tr₂, hg, hc, ⟨hno, hat, h⟩ | ⟨-, hnone, -⟩ | ⟨hyes, -, hat, h⟩⟩ := alone_setattr h
  · obtain ⟨-, rfl, rfl⟩ := Prog.alone_ret.1 h
    exact ⟨hg, hc, .inl ⟨hno, rfl, by rw [hat, ha]⟩⟩
  · rw [hb] at hnone
    cases hnone
  · obtain ⟨-, rfl, rfl⟩ := Prog.alone_ret.1 h
    refine ⟨hg, hc, .inr ⟨hyes, rfl, ?_⟩⟩
    rw [hat, StdMap.set_self, StdMap.get_of_some ha, Resp.attrOr, e.set_apply]

/-- **How `write` and `truncate` end**: refused, without a result of the edit, or done. -/
theorem modify_ends {edit : Str → Option Str} (hs : s.SameKeys) (ha : s.attrs inum = some a)
    (hb : s.contents inum = some content) (h : AloneIn f ∅ s (cl.modify inum edit) tr o s') :
    (o = .throw ∧ cl.MayRead s inum ∧ edit content = none) ∨
      (s.SameGrants s' ∧
        ∃ b, s'.attrs inum = some b ∧ ExtentServer.ownership b = ExtentServer.ownership a ∧
          ((¬ cl.MayRead s inum ∧ o = .ret ⟨.NOACCESS, .untouched⟩ ∧ s'.contents = s.contents) ∨
            (cl.MayRead s inum ∧ ∃ c, edit content = some c ∧
              ((¬ cl.MayWrite s inum ∧ o = .ret ⟨.NOACCESS, .untouched⟩ ∧
                  s'.contents = s.contents) ∨
                (cl.MayWrite s inum ∧ o = .ret ⟨.OK, .untouched⟩ ∧
                  s'.contents = s.contents.set inum c))))) := by
  obtain ⟨-, h⟩ := Prog.alone_withLock.1 h
  obtain ⟨t, tr₁, hg, hc, ⟨hno, hat, h⟩ | ⟨-, hnone, -⟩ | ⟨hyes, e, a', buf, ha', hbuf, hat, h⟩⟩ :=
    alone_get (cl.modifyIn inum edit) hs h
  · obtain ⟨-, rfl, rfl⟩ := Prog.alone_ret.1 h
    exact .inr ⟨hg, a, by rw [hat, ha], rfl, .inl ⟨hno, rfl, hc⟩⟩
  · rw [hb] at hnone
    cases hnone
  · obtain rfl := Option.some.inj (ha.symm.trans ha')
    obtain rfl := Option.some.inj (hb.symm.trans hbuf)
    unfold modifyIn at h
    cases hedit : edit content with
    | none =>
      rw [hedit] at h
      obtain ⟨-, rfl, rfl⟩ := Prog.alone_ret.1 h
      exact .inl ⟨rfl, hyes, rfl⟩
    | some c =>
      rw [hedit] at h
      have hattr : t.attrs inum = some { a with atime := (f e).time } := by rw [hat, StdMap.set_self]
      right
      obtain ⟨u, tr₂, hg', ⟨hnw, hau, hcu, h⟩ | ⟨hw, e', hau, hcu, h⟩⟩ := alone_put h
      · obtain ⟨-, rfl, rfl⟩ := Prog.alone_ret.1 h
        refine ⟨hg.trans hg', { a with atime := (f e).time }, by rw [hau, hattr], rfl,
          .inr ⟨hyes, c, rfl, .inl ⟨?_, rfl, ?_⟩⟩⟩
        · exact fun hmay => hnw ((mayWrite_of_get hg ha hat _).mpr hmay)
        · rw [hcu, hc]
      · obtain ⟨-, rfl, rfl⟩ := Prog.alone_ret.1 h
        refine ⟨hg.trans hg', ExtentServer.putAttr (f e') t inum c, by rw [hau, StdMap.set_self], ?_,
          .inr ⟨hyes, c, rfl, .inr ⟨?_, rfl, ?_⟩⟩⟩
        · simp [ExtentServer.putAttr, hattr, ExtentServer.ownership]
        · exact (mayWrite_of_get hg ha hat _).mp hw
        · rw [hcu, hc]

end Calls

/-! ## The handler after the size -/

section Handler

variable {cl : YfsClient} {s s' : ExtentServer} {inum : Inum} {a : Attr} {content : Str}
  {toSet : UInt32} {tr : List (ExtentCall × Resp)} {o : Outcome FuseReply}

theorem requested_cons_of_pos {e : OwnEdit} (es : List OwnEdit) (h : e.flag &&& toSet ≠ 0) :
    requested toSet (e :: es) = e :: requested toSet es :=
  List.filter_cons_of_pos (by simpa using h)

theorem requested_cons_of_neg {e : OwnEdit} (es : List OwnEdit) (h : ¬ e.flag &&& toSet ≠ 0) :
    requested toSet (e :: es) = requested toSet es :=
  List.filter_cons_of_neg (by simpa using h)

/-- The end of the handler: the reply depends on the last status. -/
theorem setattrReply_ends {ret : FsStatus} (ha : s.attrs inum = some a)
    (hb : s.contents inum = some content) (h : Handles cl s (setattrReply inum ret) tr o s') :
    s' = s ∧ ((∃ st, o = .ret (.attr st)) ↔ ret ≠ .NOACCESS ∧ ret ≠ .IOERR) := by
  unfold setattrReply at h
  split_ifs at h with hna hio
  · obtain ⟨-, rfl, rfl⟩ := handles_ret.1 h
    exact ⟨rfl, iff_of_false (by simp) (by simp [hna])⟩
  · obtain ⟨-, rfl, rfl⟩ := handles_ret.1 h
    exact ⟨rfl, iff_of_false (by simp) (by simp [hio])⟩
  · obtain ⟨tr', h⟩ := handles_getattr ha hb h
    obtain ⟨-, rfl, rfl⟩ := handles_ret.1 h
    exact ⟨rfl, iff_of_true ⟨_, rfl⟩ ⟨hna, hio⟩⟩

/-- **The changes of mode, owner and group.**  The handler replies with attributes exactly when all
requested changes are granted and, where there is none, the status before them was no error; and then
all of them have been made. -/
theorem settingAll_ends (es : List OwnEdit) {ret : FsStatus} (ha : s.attrs inum = some a)
    (hb : s.contents inum = some content) (h : Handles cl s (settingAll inum toSet es ret) tr o s') :
    s'.contents = s.contents ∧
      ((∃ st, o = .ret (.attr st)) ↔ Granted cl s a (requested toSet es) ∧
        (requested toSet es = [] → ret ≠ .NOACCESS ∧ ret ≠ .IOERR)) ∧
      ((∃ st, o = .ret (.attr st)) → s'.attrs inum = some (applyAll (requested toSet es) a)) := by
  induction es generalizing s a ret tr with
  | nil =>
    obtain ⟨rfl, hiff⟩ := setattrReply_ends ha hb h
    refine ⟨rfl, hiff.trans ?_, fun _ => ha⟩
    simp [requested, Granted]
  | cons e es ih =>
    rw [settingAll, setting] at h
    split_ifs at h with hflag
    · rw [requested_cons_of_pos es hflag]
      obtain ⟨stack, finum, tr₁, x, t, halone, hrest⟩ := handles_call h
      obtain ⟨hg, hc, hend⟩ := change_ends (f := fun e => e) e ha hb halone
      have hb' : t.contents inum = some content := by rw [hc, hb]
      rcases hend with ⟨hno, rfl, hat⟩ | ⟨hmay, rfl, hat⟩
      · -- a refused change leaves the record that refuses the next one too
        obtain ⟨r, tr₂, hr, -, hk⟩ := hrest.resolve_right (fun hx => hx.1 _ rfl)
        cases hr
        obtain ⟨hc', hiff, -⟩ := ih hat hb' hk
        rw [granted_congr hg rfl] at hiff
        have hnot : ¬ ∃ st, o = .ret (.attr st) := by
          rw [hiff]
          rintro ⟨hgr, hnil⟩
          have hmay : cl.MayWrite s inum := mayWrite_of_granted ha hgr (fun hreq => (hnil hreq).1 rfl)
          exact hno hmay
        refine ⟨hc'.trans hc, iff_of_false hnot ?_, fun hattr => absurd hattr hnot⟩
        rintro ⟨hgr, -⟩
        exact hno ((mayWrite_iff ha).mpr hgr.1)
      · obtain ⟨r, tr₂, hr, -, hk⟩ := hrest.resolve_right (fun hx => hx.1 _ rfl)
        cases hr
        obtain ⟨hc', hiff, hattrs⟩ := ih hat hb' hk
        rw [granted_congr hg rfl] at hiff
        refine ⟨hc'.trans hc, hiff.trans ?_, hattrs⟩
        rw [Granted]
        simp [(mayWrite_iff ha).mp hmay]
    · rw [requested_cons_of_neg es hflag]
      exact ih ha hb h

/-! ## The whole handler -/

/-- The size `getattr` reports is a 32-bit number. -/
theorem attrStat_size_bounds (inum : Inum) (a : Attr) :
    0 ≤ (attrStat inum a).size.toInt ∧ (attrStat inum a).size.toInt < 2 ^ 32 := by
  unfold attrStat
  split_ifs
  · exact toInt_size_bounds a.size
  · exact ⟨le_refl 0, show (0 : ℤ) < 2 ^ 32 by decide⟩

/-- Everything that `to_set` asks for has been done to the file, whose content was `content`: it has
the size (a prefix of the old content, or all of it and zeros), the mode, the owner and the group. -/
structure Made (inum : Inum) (attr : Stat) (toSet : UInt32) (content : Str) (s' : ExtentServer) :
    Prop where
  size : setAttrSize &&& toSet ≠ 0 → 0 ≤ attr.size.toInt ∧
    s'.contents inum = some (resized attr.size.toInt.toNat content)
  mode : setAttrMode &&& toSet ≠ 0 → (s'.attrs inum).map Attr.mode = some attr.mode
  uid : setAttrUid &&& toSet ≠ 0 → (s'.attrs inum).map Attr.uid = some attr.uid
  gid : setAttrGid &&& toSet ≠ 0 → (s'.attrs inum).map Attr.gid = some attr.gid

/-- When all changes of mode, owner and group have been made, only the size is left to check. -/
theorem made_iff_size {attr : Stat} {b : Attr}
    (hattrs : s'.attrs inum = some (applyAll (requested toSet (ownEdits attr)) b)) :
    Made inum attr toSet content s' ↔ (setAttrSize &&& toSet ≠ 0 → 0 ≤ attr.size.toInt ∧
      s'.contents inum = some (resized attr.size.toInt.toNat content)) := by
  constructor
  · intro h
    exact h.size
  · intro hsize
    refine ⟨hsize, ?_, ?_, ?_⟩
    all_goals
      intro hflag
      rw [hattrs]
      by_cases hm : setAttrMode &&& toSet = 0 <;> by_cases hu : setAttrUid &&& toSet = 0 <;>
        by_cases hg : setAttrGid &&& toSet = 0 <;>
        simp_all [applyAll, requested, ownEdits, OwnEdit.flag, OwnEdit.apply]

/-- The second call of the handler edits the file as `resize` says. -/
theorem sizeCall_prog {new old : Int64} {c : FsCall} (hc : sizeCall inum new old = some c) :
    ∃ edit, (∀ cl : YfsClient, c.prog cl = cl.modify inum edit) ∧
      ∀ content, edit content = resize new old content := by
  unfold sizeCall at hc
  split_ifs at hc with hlt
  · obtain ⟨nullStr, hfill, rfl⟩ := Option.map_eq_some_iff.1 hc
    refine ⟨fun content => writeContent content old nullStr, fun cl => rfl, fun content => ?_⟩
    rw [resize, if_pos hlt, hfill, Option.bind_some]
  · obtain rfl := Option.some.inj hc
    refine ⟨fun content => truncateContent content (old - new).toUInt64, fun cl => rfl,
      fun content => ?_⟩
    rw [resize, if_neg hlt]

/-- **How a `setattr` with a size ends.** -/
theorem setattr_sized_ends {attr : Stat} (hs : s.SameKeys) (ha : s.attrs inum = some a)
    (hb : s.contents inum = some content) (hsize : setAttrSize &&& toSet ≠ 0)
    (h : Handles cl s (fuseserverSetattr inum attr toSet) tr o s') :
    ((∃ st, o = .ret (.attr st)) ↔ Granted cl s a (requested toSet (ownEdits attr)) ∧
        ((¬ cl.MayRead s inum ∧ sizeCall inum attr.size (attrStat inum a).size ≠ none ∧
            requested toSet (ownEdits attr) ≠ []) ∨
          (cl.MayRead s inum ∧ cl.MayWrite s inum ∧
            resize attr.size (attrStat inum a).size content ≠ none))) ∧
      ((∃ st, o = .ret (.attr st)) →
        (∃ b, s'.attrs inum = some (applyAll (requested toSet (ownEdits attr)) b)) ∧
          ((¬ cl.MayRead s inum ∧ s'.contents = s.contents) ∨
            (cl.MayRead s inum ∧ ∃ c, resize attr.size (attrStat inum a).size content = some c ∧
              s'.contents = s.contents.set inum c))) := by
  obtain ⟨tr₀, h⟩ := handles_getattr ha hb h
  rw [if_neg (by simp), if_pos hsize] at h
  cases hcall : sizeCall inum attr.size (attrStat inum a).size with
  | none =>
    rw [hcall] at h
    obtain ⟨-, rfl, -⟩ := handles_ret.1 h
    refine ⟨iff_of_false (by simp) ?_, by simp⟩
    rintro ⟨-, ⟨-, hne, -⟩ | ⟨-, -, hne⟩⟩
    · exact hne rfl
    · exact hne (resize_of_sizeCall_none hcall content)
  | some c =>
    rw [hcall] at h
    obtain ⟨edit, hprog, hedit⟩ := sizeCall_prog hcall
    obtain ⟨stack, finum, tr₁, x, t, halone, hrest⟩ := handles_call h
    rw [hprog] at halone
    rcases modify_ends (f := fun e => e) hs ha hb halone with
      ⟨rfl, hread, hnone⟩ | ⟨hg, b, hat, hown, hend⟩
    · -- the edit throws, and so does the handler
      rw [hedit] at hnone
      rcases hrest with ⟨r, tr₂, hr, -⟩ | ⟨-, -, -, hno⟩
      · cases hr
      · have hnot : ¬ ∃ st, o = .ret (.attr st) := by
          rintro ⟨st, ho⟩
          exact hno _ ho
        refine ⟨iff_of_false hnot ?_, fun ho => absurd ho hnot⟩
        rintro ⟨-, ⟨hnr, -⟩ | ⟨-, -, hne⟩⟩
        · exact hnr hread
        · exact hne hnone
    · rw [hedit] at hend
      have hgranted : Granted cl t b (requested toSet (ownEdits attr)) ↔
          Granted cl s a (requested toSet (ownEdits attr)) := granted_congr hg hown _
      rcases hend with ⟨(hno : ¬ cl.MayRead s inum), rfl, hc⟩ |
        ⟨(hread : cl.MayRead s inum), c', hc', ⟨(hno : ¬ cl.MayWrite s inum), rfl, hc⟩ |
          ⟨(hw : cl.MayWrite s inum), rfl, hc⟩⟩
      · obtain ⟨r, tr₂, hr, -, hk⟩ := hrest.resolve_right (fun hx => hx.1 _ rfl)
        cases hr
        obtain ⟨hcont, hiff, hattrs⟩ := settingAll_ends (ownEdits attr) hat (by rw [hc, hb]) hk
        rw [hgranted] at hiff
        refine ⟨hiff.trans ?_, fun ho => ⟨⟨b, hattrs ho⟩, .inl ⟨hno, hcont.trans hc⟩⟩⟩
        refine and_congr_right (fun _ => ?_)
        simp [hno]
      · obtain ⟨r, tr₂, hr, -, hk⟩ := hrest.resolve_right (fun hx => hx.1 _ rfl)
        cases hr
        obtain ⟨hcont, hiff, -⟩ := settingAll_ends (ownEdits attr) hat (by rw [hc, hb]) hk
        rw [hgranted] at hiff
        have hnot : ¬ ∃ st, o = .ret (.attr st) := by
          rw [hiff]
          rintro ⟨hgr, hnil⟩
          exact hno (mayWrite_of_granted ha hgr (fun hreq => (hnil hreq).1 rfl))
        refine ⟨iff_of_false hnot ?_, fun ho => absurd ho hnot⟩
        rintro ⟨-, ⟨hnr, -⟩ | ⟨-, hw, -⟩⟩
        · exact hnr hread
        · exact hno hw
      · obtain ⟨r, tr₂, hr, -, hk⟩ := hrest.resolve_right (fun hx => hx.1 _ rfl)
        cases hr
        obtain ⟨hcont, hiff, hattrs⟩ :=
          settingAll_ends (ownEdits attr) hat (by rw [hc, StdMap.set_self]) hk
        rw [hgranted] at hiff
        refine ⟨hiff.trans ?_, fun ho => ⟨⟨b, hattrs ho⟩, .inr ⟨hread, c', hc', hcont.trans hc⟩⟩⟩
        refine and_congr_right (fun _ => ?_)
        simp [hread, hw, hc']

end Handler

/-! ## The handler comes to its end -/

section Unblocked

theorem unblocked_attrCall (inum : Inum) (cl : YfsClient) :
    ((attrCall inum).prog cl).Unblocked ∅ := by
  unfold attrCall
  split_ifs
  all_goals
    refine Prog.unblocked_withLock.2 ⟨by simp, fun r => ?_⟩
    dsimp only
    split_ifs <;> trivial

theorem unblocked_modify (inum : Inum) (edit : Str → Option Str) (cl : YfsClient) :
    (cl.modify inum edit).Unblocked ∅ := by
  refine Prog.unblocked_withLock.2 ⟨by simp, fun r => ?_⟩
  dsimp only
  split_ifs
  · trivial
  · trivial
  · split
    · trivial
    · intro r
      dsimp only
      split_ifs <;> trivial

theorem unblocked_change (inum : Inum) (edit : Attr → Attr) (cl : YfsClient) :
    (cl.change inum edit).Unblocked ∅ := by
  refine Prog.unblocked_withLock.2 ⟨by simp, fun r => ?_⟩
  dsimp only
  split_ifs
  · trivial
  · intro r
    dsimp only
    split_ifs <;> trivial

theorem unblocked_getattr {inum : Inum} {k : FsStatus → Stat → Handler}
    (hk : ∀ ret st, Unblocked (k ret st)) : Unblocked (getattr inum k) := by
  refine ⟨unblocked_attrCall inum, fun r => ?_⟩
  dsimp only
  split_ifs <;> exact hk _ _

theorem unblocked_settingAll (inum : Inum) (toSet : UInt32) (es : List OwnEdit) (ret : FsStatus) :
    Unblocked (settingAll inum toSet es ret) := by
  induction es generalizing ret with
  | nil =>
    rw [settingAll, setattrReply]
    split_ifs
    · trivial
    · trivial
    · exact unblocked_getattr (fun _ _ => trivial)
  | cons e es ih =>
    rw [settingAll, setting]
    split_ifs
    · refine ⟨fun cl => ?_, fun r => ih _⟩
      rw [e.call_prog]
      exact unblocked_change inum _ cl
    · exact ih ret

theorem unblocked_setattr (inum : Inum) (attr : Stat) (toSet : UInt32) :
    Unblocked (fuseserverSetattr inum attr toSet) := by
  refine unblocked_getattr (fun ret st => ?_)
  split_ifs
  · trivial
  · split
    · trivial
    · next c hc =>
      obtain ⟨edit, hprog, -⟩ := sizeCall_prog hc
      refine ⟨fun cl => ?_, fun r => unblocked_settingAll inum toSet (ownEdits attr) _⟩
      rw [hprog]
      exact unblocked_modify inum edit cl
  · exact unblocked_settingAll inum toSet (ownEdits attr) ret

end Unblocked

/-! ## When success means that everything has been done -/

/-- The condition on a `setattr` with a size.  A client that may read the file: the size that `getattr`
reports makes the edit right (`Meets`), or there is no reply with attributes, because the edit throws or
a change is refused.  A client that may not: nothing else is asked for, or it is refused too, or the
string of zeros is too long, or the file has the size already. -/
structure SizeHonest (cl : YfsClient) (s : ExtentServer) (inum : Inum) (a : Attr) (content : Str)
    (attr : Stat) (toSet : UInt32) : Prop where
  readable : cl.MayRead s inum → ¬ cl.MayWrite s inum ∨
    ¬ Granted cl s a (requested toSet (ownEdits attr)) ∨
    resize attr.size (attrStat inum a).size content = none ∨
    (0 ≤ attr.size.toInt ∧ Meets attr.size (attrStat inum a).size content)
  unreadable : ¬ cl.MayRead s inum → requested toSet (ownEdits attr) = [] ∨
    ¬ Granted cl s a (requested toSet (ownEdits attr)) ∨
    sizeCall inum attr.size (attrStat inum a).size = none ∨
    (content.length : ℤ) = attr.size.toInt

theorem length_resized (n : ℕ) (content : Str) : (resized n content).length = n := by
  simp only [resized, List.length_append, List.length_take, List.length_replicate]
  omega

theorem resized_length (content : Str) : resized content.length content = content := by
  simp [resized]

section Exact

variable {s : ExtentServer} {inum : Inum} {a : Attr} {content : Str}

/-- A request whose size is not honest has a run that replies with attributes all the same. -/
theorem sizeHonest_of_made {cl : YfsClient} {attr : Stat} {toSet : UInt32} (hs : s.SameKeys)
    (ha : s.attrs inum = some a) (hb : s.contents inum = some content)
    (hlen : content.length ≤ StdString.maxSize) (hsize : setAttrSize &&& toSet ≠ 0)
    (hall : ∀ tr st s', Handles cl s (fuseserverSetattr inum attr toSet) tr (.ret (.attr st)) s' →
      Made inum attr toSet content s') : SizeHonest cl s inum a content attr toSet := by
  obtain ⟨hold, hold'⟩ := attrStat_size_bounds inum a
  obtain ⟨tr, o, s', h⟩ := exists_handles (unblocked_setattr inum attr toSet) cl s
  obtain ⟨hiff, hdone⟩ := setattr_sized_ends hs ha hb hsize h
  -- in a run that replies with attributes the size has been set
  have hmade : (∃ st, o = .ret (.attr st)) → 0 ≤ attr.size.toInt ∧
      s'.contents inum = some (resized attr.size.toInt.toNat content) := by
    rintro ⟨st, rfl⟩
    exact (hall tr st s' h).size hsize
  constructor
  · intro hread
    by_contra hcon
    simp only [not_or, not_not] at hcon
    obtain ⟨hwrite, hgranted, hresize, hnot⟩ := hcon
    have hattr := hiff.mpr ⟨hgranted, .inr ⟨hread, hwrite, hresize⟩⟩
    obtain ⟨hnew, hcontents⟩ := hmade hattr
    obtain ⟨-, ⟨hno, -⟩ | ⟨-, c, hc, hset⟩⟩ := hdone hattr
    · exact hno hread
    · rw [hset, StdMap.set_self, Option.some.injEq] at hcontents
      rw [hcontents] at hc
      exact hnot ⟨hnew, (resize_eq_iff hlen hnew hold hold').mp hc⟩
  · intro hread
    by_contra hcon
    simp only [not_or, not_not] at hcon
    obtain ⟨hreq, hgranted, hcall, hnot⟩ := hcon
    have hattr := hiff.mpr ⟨hgranted, .inl ⟨hread, hcall, hreq⟩⟩
    obtain ⟨hnew, hcontents⟩ := hmade hattr
    obtain ⟨-, ⟨-, hsame⟩ | ⟨hyes, -⟩⟩ := hdone hattr
    · rw [hsame, hb, Option.some.injEq] at hcontents
      have hlength := congrArg List.length hcontents
      rw [length_resized] at hlength
      exact hnot (by omega)
    · exact hread hyes

/-- An honest size has been set whenever the handler replies with attributes. -/
theorem size_of_sizeHonest {cl : YfsClient} {attr : Stat} {toSet : UInt32} (hs : s.SameKeys)
    (ha : s.attrs inum = some a) (hb : s.contents inum = some content)
    (hlen : content.length ≤ StdString.maxSize) (hsize : setAttrSize &&& toSet ≠ 0)
    (hcond : SizeHonest cl s inum a content attr toSet) {tr : List (ExtentCall × Resp)} {st : Stat}
    {s' : ExtentServer}
    (h : Handles cl s (fuseserverSetattr inum attr toSet) tr (.ret (.attr st)) s') :
    0 ≤ attr.size.toInt ∧ s'.contents inum = some (resized attr.size.toInt.toNat content) := by
  obtain ⟨hold, hold'⟩ := attrStat_size_bounds inum a
  obtain ⟨hiff, hdone⟩ := setattr_sized_ends hs ha hb hsize h
  obtain ⟨hgranted, hhow⟩ := hiff.mp ⟨st, rfl⟩
  obtain ⟨-, hcontents⟩ := hdone ⟨st, rfl⟩
  rcases hcontents with ⟨hread, hsame⟩ | ⟨hread, c, hc, hset⟩
  · obtain ⟨-, hcall, hreq⟩ | ⟨hyes, -⟩ := hhow
    · rcases hcond.unreadable hread with h' | h' | h' | h'
      · exact absurd h' hreq
      · exact absurd hgranted h'
      · exact absurd h' hcall
      · -- the file has the size already
        refine ⟨by omega, ?_⟩
        rw [hsame, hb, show attr.size.toInt.toNat = content.length by omega, resized_length]
    · exact absurd hyes hread
  · obtain ⟨hno, -⟩ | ⟨-, hwrite, -⟩ := hhow
    · exact absurd hread hno
    · rcases hcond.readable hread with h' | h' | h' | ⟨hnew, hmeets⟩
      · exact absurd hwrite h'
      · exact absurd hgranted h'
      · rw [h'] at hc
        cases hc
      · rw [(resize_eq_iff hlen hnew hold hold').mpr hmeets, Option.some.injEq] at hc
        exact ⟨hnew, by rw [hset, StdMap.set_self, hc]⟩

/-- **When a successful `setattr` has done everything, exactly.**  For every state, file, client,
attributes and `to_set`: whenever `fuseserver_setattr` replies with attributes, the file has the
requested size, mode, owner and group, if and only if the size is not asked for or `SizeHonest`
holds. -/
theorem setattr_made_iff (hs : s.SameKeys) (ha : s.attrs inum = some a)
    (hb : s.contents inum = some content) (hlen : content.length ≤ StdString.maxSize)
    (cl : YfsClient) (attr : Stat) (toSet : UInt32) :
    (∀ tr st s', Handles cl s (fuseserverSetattr inum attr toSet) tr (.ret (.attr st)) s' →
        Made inum attr toSet content s') ↔
      (setAttrSize &&& toSet ≠ 0 → SizeHonest cl s inum a content attr toSet) := by
  constructor
  · intro hall hsize
    exact sizeHonest_of_made hs ha hb hlen hsize hall
  · intro hcond tr st s' h
    by_cases hsize : setAttrSize &&& toSet = 0
    · -- without the size the rest of the handler is all there is
      obtain ⟨tr', h⟩ := handles_getattr ha hb h
      rw [if_neg (by simp), if_neg (by simpa using hsize), setattrRest_eq] at h
      obtain ⟨-, -, hattrs⟩ := settingAll_ends (ownEdits attr) ha hb h
      exact (made_iff_size (hattrs ⟨st, rfl⟩)).mpr (fun hne => absurd hsize hne)
    · obtain ⟨⟨b, hattrs⟩, -⟩ := (setattr_sized_ends hs ha hb hsize h).2 ⟨st, rfl⟩
      exact (made_iff_size hattrs).mpr
        (fun _ => size_of_sizeHonest hs ha hb hlen hsize (hcond hsize) h)

end Exact

/-- The attributes of a request for the size `n` and the mode `m`. -/
def sizeAndMode (n : Int64) (m : UInt32) : Stat := ⟨0x80000005, m, 0, 0, 0, 0, n, 0, 0⟩

/-- A file of three bytes that everybody may use gets the size five and the mode `0644`. -/
theorem setattr_made_grow :
    threeBytes.contents 0x80000005 = some [1, 2, 3] ∧
      ∀ tr st s', Handles someClient threeBytes
          (fuseserverSetattr 0x80000005 (sizeAndMode 5 0o644) 9) tr (.ret (.attr st)) s' →
        Made 0x80000005 (sizeAndMode 5 0o644) 9 [1, 2, 3] s' := by
  have hs : threeBytes.SameKeys := ExtentServer.Run.sameKeys ⟨0, 0, 0, ExtentServer.trace_replay _ _⟩
  have ha : threeBytes.attrs 0x80000005 = some ⟨0, 0, 0, 3, 0o777, 0, 0⟩ := by decide
  have hread : someClient.MayRead threeBytes 0x80000005 :=
    ⟨by decide, ExtentServer.permits_of_other ha (by decide) _⟩
  have hb : threeBytes.contents 0x80000005 = some [1, 2, 3] := by decide
  refine ⟨hb, (setattr_made_iff hs ha hb (by decide) someClient
    (sizeAndMode 5 0o644) 9).mpr (fun _ => ⟨fun _ => ?_, fun hno => absurd hread hno⟩)⟩
  refine .inr (.inr (.inr ⟨by decide, by decide, fun _ => ⟨by decide, .inl (by decide)⟩⟩))

/-- A file of three bytes that everybody may write and nobody may read. -/
def writeOnly : ExtentServer :=
  (ExtentServer.replay (ExtentServer.init 0 0 0) [(default, .put 0x80000005 [1, 2, 3] 3 []),
    (default, .setattr 0x80000005 ⟨0, 0, 0, 0, 0o222, 7, 7⟩ 3 [])]).2

/-- A request for the size one and the mode `0644` of that file: the size is refused, the mode is set,
and the reply is a success. -/
theorem setattr_size_forgotten :
    ¬ ∀ (s : ExtentServer) (inum : Inum) (a : Attr) (content : Str) (cl : YfsClient) (attr : Stat)
        (toSet : UInt32), s.SameKeys → s.attrs inum = some a → s.contents inum = some content →
      content.length ≤ StdString.maxSize →
      ∀ tr st s', Handles cl s (fuseserverSetattr inum attr toSet) tr (.ret (.attr st)) s' →
        Made inum attr toSet content s' := by
  intro hall
  have hs : writeOnly.SameKeys := ExtentServer.Run.sameKeys ⟨0, 0, 0, ExtentServer.trace_replay _ _⟩
  have ha : writeOnly.attrs 0x80000005 = some ⟨0, 0, 0, 3, 0o222, 7, 7⟩ := by decide
  have hb : writeOnly.contents 0x80000005 = some [1, 2, 3] := by decide
  have hsize : setAttrSize &&& (9 : UInt32) ≠ 0 := by decide
  have hnoread : ¬ someClient.MayRead writeOnly 0x80000005 := by
    rintro ⟨-, hperm⟩
    have hgr := hperm _ ha
    revert hgr
    unfold ExtentServer.Grants
    decide
  have hgranted : Granted someClient writeOnly ⟨0, 0, 0, 3, 0o222, 7, 7⟩
      (requested 9 (ownEdits (sizeAndMode 1 0o644))) :=
    ⟨⟨by decide, .inl (by decide)⟩, trivial⟩
  obtain ⟨tr, o, s', h⟩ := exists_handles
    (unblocked_setattr 0x80000005 (sizeAndMode 1 0o644) 9) someClient writeOnly
  obtain ⟨hiff, hdone⟩ := setattr_sized_ends hs ha hb hsize h
  have hattr := hiff.mpr ⟨hgranted, .inl ⟨hnoread, by decide, by decide⟩⟩
  obtain ⟨-, ⟨-, hsame⟩ | ⟨hyes, -⟩⟩ := hdone hattr
  · obtain ⟨st, rfl⟩ := hattr
    have hmade := (hall writeOnly 0x80000005 _ _ someClient (sizeAndMode 1 0o644) 9 hs ha hb (by decide)
      tr st s' h).size hsize
    rw [hsame, hb] at hmade
    exact absurd hmade.2 (by decide)
  · exact hnoread hyes

end Fuse
