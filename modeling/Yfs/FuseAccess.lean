/-
# The access check of the mount against the access check of the server

`fuseserver_access` decides from the attributes of the file and the credentials of the calling
process; `has_read_perm` and `has_write_perm` decide from the same attributes and the server's own
table of groups.  Both go through the classes of the mode in the same way (`ClassGrants`); they differ
in what makes a user a member of the group.

`access_agrees_iff` says exactly when the two agree: unless the group class decides, always; and when
it does, if and only if the gid of the process and the table of the server say the same.
-/
import Yfs.Fuse
import Yfs.ExtentAccess

open YfsClient

namespace Fuse

/-! ## What both sides decide -/

/-- The mode `a.mode` grants the access `bits` to `uid`, who is in the group of the record when
`member` holds. -/
def ClassGrants (bits : ExtentServer.PermBits) (a : Attr) (uid : UserId) (member : Prop) : Prop :=
  a.mode &&& bits.other ≠ 0 ∨ (a.uid = uid ∧ a.mode &&& bits.owner ≠ 0) ∨
    (member ∧ a.mode &&& bits.group ≠ 0)

/-- The mask that asks for read access, write access, both or neither. -/
def rwMask (r w : Bool) : UInt32 := (if r then rOk else 0) ||| (if w then wOk else 0)

/-- Everything that is asked for is granted. -/
def AllGranted (r w : Bool) (a : Attr) (uid : UserId) (member : Prop) : Prop :=
  (r = true → ClassGrants ExtentServer.readBits a uid member) ∧
    (w = true → ClassGrants ExtentServer.writeBits a uid member)

/-- The group class decides about what is asked for: a member is granted it, others are not. -/
def GroupDecides (r w : Bool) (a : Attr) (uid : UserId) : Prop :=
  AllGranted r w a uid True ∧ ¬ AllGranted r w a uid False

theorem AllGranted.imp {r w : Bool} {a : Attr} {uid : UserId} {member member' : Prop}
    (himp : member → member') (h : AllGranted r w a uid member) : AllGranted r w a uid member' :=
  ⟨fun hr => (h.1 hr).imp_right (Or.imp_right (And.imp_left himp)),
    fun hw => (h.2 hw).imp_right (Or.imp_right (And.imp_left himp))⟩

/-- Two memberships lead to the same decision exactly when they are the same or the group class does
not decide. -/
theorem allGranted_congr_iff (r w : Bool) (a : Attr) (uid : UserId) (member member' : Prop) :
    (AllGranted r w a uid member ↔ AllGranted r w a uid member') ↔
      (GroupDecides r w a uid → (member ↔ member')) := by
  have hmono : AllGranted r w a uid False → AllGranted r w a uid True := AllGranted.imp False.elim
  unfold GroupDecides
  by_cases h : member
  · by_cases h' : member'
    · simp [h, h']
    · simp only [h, h']
      tauto
  · by_cases h' : member'
    · simp only [h, h']
      tauto
    · simp [h, h']

/-! ## The handler -/

/-- Whatever the environment, the handler ends with the reply `r`. -/
def Replies (cl : YfsClient) (s : ExtentServer) (h : Handler) (r : FuseReply) : Prop :=
  (∃ tr o s', Handles cl s h tr o s') ∧ ∀ tr o s', Handles cl s h tr o s' → o = .ret r

variable {cl : YfsClient} {s s' : ExtentServer} {id : Inum} {a : Attr} {b : Str}

/-- The attributes of an extent, as `getattr` puts them into a `struct stat`. -/
def attrStat (id : Inum) (a : Attr) : Stat :=
  if isfile id then fileStat id (fileInfo a) else dirStat id (dirInfo a)

/-- `getattr` on an existing extent goes on with its attributes. -/
theorem handles_getattr (ha : s.attrs id = some a) (hb : s.contents id = some b)
    {k : FsStatus → Stat → Handler} {tr : List (ExtentCall × Resp)} {o : Outcome FuseReply}
    (h : Handles cl s (getattr id k) tr o s') :
    ∃ tr', Handles cl s (k .OK (attrStat id a)) tr' o s' := by
  obtain ⟨stack, finum, tr₁, x, s₁, halone, hrest⟩ := handles_call h
  have hx : x = .ret ⟨.OK, if isfile id then .fin (fileInfo a) else .din (dirInfo a)⟩ ∧ s₁ = s := by
    cases hf : isfile id
    all_goals
      simp only [attrCall, hf, if_true, Bool.false_eq_true, if_false, FsCall.prog, getfile, getdir, ec,
        Prog.alone_withLock, Prog.alone_call] at halone
      obtain ⟨-, env, tr', -, halone⟩ := halone
      rw [serve_getattr env ha hb] at halone
      exact (Prog.alone_ret.1 halone).2
  obtain ⟨rfl, rfl⟩ := hx
  rcases hrest with ⟨r, tr₂, hr, -, hk⟩ | ⟨hno, -⟩
  · cases hr
    refine ⟨tr₂, ?_⟩
    unfold attrStat
    cases hf : isfile id <;> simpa [hf, statOf] using hk
  · exact absurd rfl (hno _)

/-- And it can go on so. -/
theorem handles_getattr_of (ha : s.attrs id = some a) (hb : s.contents id = some b)
    {k : FsStatus → Stat → Handler} {tr : List (ExtentCall × Resp)} {o : Outcome FuseReply}
    (h : Handles cl s (k .OK (attrStat id a)) tr o s') :
    ∃ tr', Handles cl s (getattr id k) tr' o s' := by
  have halone : Prog.Alone serve ∅ s
      ((attrCall id).prog { cl with stack := default, finum := 0 })
      [(⟨.getattr, id, cl.userid, cl.userkey⟩, .reply ⟨.OK, [], a⟩)]
      (.ret ⟨.OK, if isfile id then .fin (fileInfo a) else .din (dirInfo a)⟩) s := by
    unfold attrCall
    cases hf : isfile id
    all_goals
      simp only [if_true, Bool.false_eq_true, if_false, FsCall.prog, getfile, getdir, ec,
        Prog.alone_withLock, Prog.alone_call]
      refine ⟨by simp, default, [], ?_⟩
      rw [serve_getattr default ha hb]
      exact ⟨rfl, .ret _⟩
  refine ⟨_ ++ tr, .call default 0 halone ?_⟩
  unfold attrStat at h
  cases hf : isfile id <;> simpa [hf, statOf] using h

theorem or_and_of_disjoint {t x m : UInt32} (h : t &&& m = 0) : (t ||| x) &&& m = x &&& m := by
  apply UInt32.toBitVec_inj.1
  rw [UInt32.toBitVec_and, UInt32.toBitVec_or, BitVec.and_or_distrib_right, ← UInt32.toBitVec_and, h,
    UInt32.toBitVec_and]
  exact BitVec.zero_or

/-- The file type that `getattr` adds to the mode is above the permission bits. -/
theorem attrStat_mode (id : Inum) (a : Attr) {m : UInt32} (hm : m &&& 0o777 = m) :
    (attrStat id a).mode &&& m = a.mode &&& m := by
  have hdisj : ∀ t : UInt32, t &&& 0o777 = 0 → t &&& m = 0 := by
    intro t ht
    rw [← hm, UInt32.and_comm m, ← UInt32.and_assoc, ht]
    exact UInt32.zero_and
  unfold attrStat
  cases isfile id with
  | false =>
    show (0o040000 ||| a.mode.toUInt64).toUInt32 &&& m = _
    rw [UInt64.toUInt32_or, UInt32.toUInt32_toUInt64]
    exact or_and_of_disjoint (hdisj _ (by decide))
  | true =>
    show (0o100000 ||| a.mode.toUInt64).toUInt32 &&& m = _
    rw [UInt64.toUInt32_or, UInt32.toUInt32_toUInt64]
    exact or_and_of_disjoint (hdisj _ (by decide))

theorem accessOk_iff (bits : ExtentServer.PermBits) (flag mask : UInt32) (fc : FuseContext)
    (hother : bits.other &&& 0o777 = bits.other) (howner : bits.owner &&& 0o777 = bits.owner)
    (hgroup : bits.group &&& 0o777 = bits.group) :
    accessOk bits flag mask fc (attrStat id a) = true ↔
      (mask &&& flag ≠ 0 → ClassGrants bits a fc.uid (a.gid = fc.gid)) := by
  have huid : (attrStat id a).uid = a.uid := by
    unfold attrStat
    cases isfile id <;> simp [fileStat, dirStat, fileInfo, dirInfo]
  have hgid : (attrStat id a).gid = a.gid := by
    unfold attrStat
    cases isfile id <;> simp [fileStat, dirStat, fileInfo, dirInfo]
  simp only [accessOk, attrStat_mode id a hother, attrStat_mode id a howner,
    attrStat_mode id a hgroup, huid, hgid, ClassGrants]
  by_cases hm : mask &&& flag = 0
  · simp [hm]
  · simp [hm, or_assoc]

/-- On an existing extent `fuseserver_access` has one reply. -/
theorem access_replies_iff (fc : FuseContext) (mask : UInt32) (ha : s.attrs id = some a)
    (hb : s.contents id = some b) (x : FuseReply) :
    Replies cl s (fuseserverAccess fc id mask) x ↔ accessReply fc mask (attrStat id a) = x := by
  have hret : Handles cl s (reply (accessReply fc mask (attrStat id a))) []
      (.ret (accessReply fc mask (attrStat id a))) s := .ret _
  obtain ⟨tr, hrun⟩ := handles_getattr_of (k := fun ret st =>
    if ret ≠ .OK then reply (.err .ENOENT) else reply (accessReply fc mask st)) ha hb hret
  have honly : ∀ tr o s', Handles cl s (fuseserverAccess fc id mask) tr o s' →
      o = .ret (accessReply fc mask (attrStat id a)) := by
    intro tr o s' h
    obtain ⟨tr', h⟩ := handles_getattr ha hb h
    exact (handles_ret.1 h).2.1
  constructor
  · rintro ⟨-, hall⟩
    simpa using hall _ _ _ hrun
  · rintro rfl
    exact ⟨⟨_, _, _, hrun⟩, honly⟩

/-- **What `fuseserver_access` decides** for a mask of read and write access: the classes of the mode,
the group being the one of the calling process. -/
theorem accessReply_eq_ok_iff (fc : FuseContext) (r w : Bool) :
    accessReply fc (rwMask r w) (attrStat id a) = .ok ↔
      AllGranted r w a fc.uid (a.gid = fc.gid) := by
  have hread : accessOk ExtentServer.readBits rOk (rwMask r w) fc (attrStat id a) = true ↔ _ :=
    accessOk_iff ExtentServer.readBits rOk (rwMask r w) fc (by decide) (by decide) (by decide)
  have hwrite : accessOk ExtentServer.writeBits wOk (rwMask r w) fc (attrStat id a) = true ↔ _ :=
    accessOk_iff ExtentServer.writeBits wOk (rwMask r w) fc (by decide) (by decide) (by decide)
  have hexec : accessOk ExtentServer.executeBits xOk (rwMask r w) fc (attrStat id a) = true := by
    cases r <;> cases w <;> rfl
  have hf : rwMask r w &&& fOk = 0 := by cases r <;> cases w <;> rfl
  have hr : rwMask r w &&& rOk ≠ 0 ↔ r = true := by cases r <;> cases w <;> decide
  have hw : rwMask r w &&& wOk ≠ 0 ↔ w = true := by cases r <;> cases w <;> decide
  rw [hr] at hread
  rw [hw] at hwrite
  unfold accessReply AllGranted
  rw [if_neg (by simp [hf]), hexec, ← hread, ← hwrite]
  simp

/-! ## Against the server -/

/-- The server grants what is asked for, with the right key. -/
theorem server_granted_iff {u : UserId} {key : Str} (hkey : s.userkeys u = some key)
    (ha : s.attrs id = some a) (r w : Bool) :
    ((r = true → (s.hasReadPerm id u key).1 = true) ∧
        (w = true → (s.hasWritePerm id u key).1 = true)) ↔
      AllGranted r w a u (u ∈ s.groupusers.get a.gid) := by
  have hperm : ∀ bits, (ExtentServer.hasPerm bits s id u key).1 = true ↔
      ClassGrants bits a u (u ∈ s.groupusers.get a.gid) := by
    intro bits
    rw [ExtentServer.hasPerm_iff, StdMap.get_of_some hkey]
    simp [ExtentServer.Permits, ha, ExtentServer.Grants, ClassGrants]
  unfold ExtentServer.hasReadPerm ExtentServer.hasWritePerm AllGranted
  rw [hperm, hperm]

/-- **The two access checks, exactly.**  For a process that runs under the registered uid of the
mounted client, `fuseserver_access` replies 0 for a mask of `R_OK` and `W_OK` precisely when the
server would allow these accesses, if and only if the group class does not decide or the gid of the
process and the group table of the server agree about the group of the extent. -/
theorem access_agrees_iff (fc : FuseContext) (hkey : s.userkeys cl.userid = some cl.userkey)
    (hfc : fc.uid = cl.userid) (ha : s.attrs id = some a) (hb : s.contents id = some b)
    (r w : Bool) :
    (Replies cl s (fuseserverAccess fc id (rwMask r w)) .ok ↔
        ((r = true → (s.hasReadPerm id cl.userid cl.userkey).1 = true) ∧
          (w = true → (s.hasWritePerm id cl.userid cl.userkey).1 = true))) ↔
      (GroupDecides r w a cl.userid →
        (a.gid = fc.gid ↔ cl.userid ∈ s.groupusers.get a.gid)) := by
  rw [access_replies_iff fc _ ha hb, accessReply_eq_ok_iff, server_granted_iff hkey ha, hfc,
    allGranted_congr_iff]

/-- The client of user `2`, who runs a process of the group `5`. -/
def secondUser : YfsClient := ⟨2, [98], 2, 5, default, 0⟩

/-- User `2` has been added to the group `5` on the server too: the checks of a file with mode `0640`
and this group agree. -/
theorem access_agrees_member :
    let s := (ExtentServer.replay (ExtentServer.init 0 0 0)
      (ExtentServer.twoUsers 0o640 ++ [(default, .useradd 2 5 1 [97])])).2
    GroupDecides true false ⟨0, 0, 0, 0, 0o640, 1, 5⟩ 2 ∧
      (Replies secondUser s (fuseserverAccess ⟨2, 5⟩ 7 (rwMask true false)) .ok ↔
        ((true = true → (s.hasReadPerm 7 2 [98]).1 = true) ∧
          (false = true → (s.hasWritePerm 7 2 [98]).1 = true))) := by
  intro s
  have hkey : s.userkeys secondUser.userid = some secondUser.userkey := by decide
  have ha : s.attrs 7 = some ⟨0, 0, 0, 0, 0o640, 1, 5⟩ := by decide
  have hb : s.contents 7 = some [] := by decide
  refine ⟨?_, (access_agrees_iff ⟨2, 5⟩ hkey rfl ha hb true false).mpr (fun _ => by decide)⟩
  unfold GroupDecides AllGranted ClassGrants
  decide

/-- Without this the process is told that it may read the file, and the server refuses it. -/
theorem access_disagrees_on_group :
    ¬ ∀ (cl : YfsClient) (s : ExtentServer) (fc : FuseContext) (id : Inum) (a : Attr) (b : Str)
      (r w : Bool), s.userkeys cl.userid = some cl.userkey → fc.uid = cl.userid →
      s.attrs id = some a → s.contents id = some b →
      (Replies cl s (fuseserverAccess fc id (rwMask r w)) .ok ↔
        ((r = true → (s.hasReadPerm id cl.userid cl.userkey).1 = true) ∧
          (w = true → (s.hasWritePerm id cl.userid cl.userkey).1 = true))) := by
  intro hall
  have ha : (ExtentServer.replay (ExtentServer.init 0 0 0)
      (ExtentServer.twoUsers 0o640)).2.attrs 7 = some ⟨0, 0, 0, 0, 0o640, 1, 5⟩ := by decide
  have hb : (ExtentServer.replay (ExtentServer.init 0 0 0)
      (ExtentServer.twoUsers 0o640)).2.contents 7 = some [] := by decide
  have hagree := hall secondUser _ ⟨2, 5⟩ 7 _ _ true false (by decide) rfl ha hb
  rw [access_replies_iff _ _ ha hb] at hagree
  have hgranted := (hagree.mp (by decide)).1 rfl
  revert hgranted
  decide

end Fuse
