/-
# Reading and writing the bytes of a file

`write` and `read` of `yfs_client` as operations on an array of bytes.

* `writeContent_eq`: the two string edits of `write` compute the array `ArrayFile.written`.
* `write_posix`: what `write` stores, and that writes inside the file to disjoint ranges commute.
* `Amid` runs a handler among other clients: each of its calls finds the server in whatever state the
  others have left it.
* `read_slice_iff`: `read` returns the bytes it is asked for if and only if the offset is not beyond the
  end of the file.  Beyond the end it throws, also when the file was longer at the time of the
  `getattr` of `fuseserver_read`.
-/
import Yfs.ArrayFile
import Yfs.FuseResize

open YfsClient ArrayFile

namespace Fuse

/-! ## The edit of `write` -/

section Edit

variable {content : Str} {off : Int64} {buf : Str}

/-- A length that fits into an `int` is converted to itself. -/
theorem cint_eq {size : ℕ} (h : size < 2 ^ 31) : cint size = size := by
  rw [cint_cond]
  omega

/-- **The edit of `write` is a write into an array**: inside the content, across its end, at its end
and beyond it. -/
theorem writeContent_eq (hlen : content.length < 2 ^ 31) (hoff : 0 ≤ off.toInt)
    (hsum : off.toInt + buf.length ≤ StdString.maxSize) :
    writeContent content off buf = some (written off.toInt.toNat buf content) := by
  have hmax : 2 ^ 31 ≤ StdString.maxSize := by decide
  have hpos : off.toUInt64.toNat = off.toInt.toNat := by
    have := toNat_toUInt64 hoff
    omega
  have hcint : (UInt64.ofNat content.length).toUInt32.toInt32.toInt = content.length := cint_eq hlen
  unfold writeContent
  dsimp only
  rw [hcint]
  split_ifs with hlt
  · -- the replaced part is clipped at the end of the content
    rw [hpos, StdString.replace, if_pos (by omega), written,
      show off.toInt.toNat - content.length = 0 by omega, List.replicate_zero, List.append_nil]
  · have hsize : (UInt64.ofNat content.length).toNat = content.length := toNat_length (by omega)
    have hdist : (off.toUInt64 - UInt64.ofNat content.length).toNat =
        off.toInt.toNat - content.length := by
      rw [UInt64.toNat_sub_of_le _ _ (by rw [UInt64.le_iff_toNat_le, hsize, hpos]; omega), hsize, hpos]
    rw [hdist, StdString.fill, if_pos (by omega), Option.bind_some, StdString.append,
      if_pos (by rw [List.length_replicate]; omega), Option.bind_some, StdString.append,
      if_pos (by rw [List.length_append, List.length_replicate]; omega), written,
      List.take_of_length_le (by omega), List.drop_of_length_le (by omega), List.append_nil]

end Edit

/-! ## `write` -/

theorem returns_modify {cl : YfsClient} {s : ExtentServer} {num : Inum} {edit : Str → Option Str} :
    Returns ∅ s (cl.modify num edit) := by
  refine returns_withLock (by simp) (returns_ec ?_)
  intro env
  split_ifs
  · exact returns_ret _
  · exact returns_ret _
  · split
    · exact returns_ret _
    · refine returns_ec ?_
      intro env
      split_ifs <;> exact returns_ret _

/-- A `write` whose extent calls succeed stores the array after the write. -/
theorem write_performs {cl : YfsClient} {s s' : ExtentServer} {num : Inum} {content buf : Str}
    {off : Int64} {tr : List (ExtentCall × Resp)} {o : Outcome FsReply}
    (hcontent : s.contents num = some content) (hlen : content.length < 2 ^ 31)
    (hoff : 0 ≤ off.toInt) (hsum : off.toInt + buf.length ≤ StdString.maxSize)
    (h : Prog.Alone serve ∅ s (cl.write num off buf) tr o s') (hok : Succeeds tr) :
    o = .ret ⟨.OK, .untouched⟩ ∧
      s'.contents = s.contents.set num (written off.toInt.toNat buf content) := by
  rw [YfsClient.write] at h
  have hedit := writeContent_eq hlen hoff hsum
  rcases modify_ok hcontent h hok with ⟨hnone, -, -⟩ | ⟨c, hc, ho, hs⟩
  · rw [hedit] at hnone
    cases hnone
  · rw [hedit] at hc
    obtain rfl := Option.some.inj hc
    exact ⟨ho, hs⟩

/-- **`write` has the effect POSIX asks for.**  With its extent calls succeeding it returns `OK` and
stores the array after the write; and two writes of any clients inside the file to disjoint ranges
leave the same contents in either order. -/
theorem write_posix {s : ExtentServer} {num : Inum} {content buf : Str} {off : Int64}
    (hcontent : s.contents num = some content) (hlen : content.length < 2 ^ 31)
    (hoff : 0 ≤ off.toInt) (hsum : off.toInt + buf.length ≤ StdString.maxSize) (cl : YfsClient) :
    Yields s (cl.write num off buf) (fun _ o s' => o = .ret ⟨.OK, .untouched⟩ ∧
        ∃ new, s'.contents = s.contents.set num new ∧ Posix content off.toInt.toNat buf new) ∧
      ∀ (cl₂ : YfsClient) (off₂ : Int64) (buf₂ : Str), 0 ≤ off₂.toInt →
        off.toInt + buf.length ≤ content.length → off₂.toInt + buf₂.length ≤ content.length →
        (off.toInt + buf.length ≤ off₂.toInt ∨ off₂.toInt + buf₂.length ≤ off.toInt) →
        ∀ o₁ s₁ o₂ s₂ p₁ t₁ p₂ t₂,
          Performs cl (.write num off buf) s o₁ s₁ → Performs cl₂ (.write num off₂ buf₂) s₁ o₂ s₂ →
          Performs cl₂ (.write num off₂ buf₂) s p₁ t₁ → Performs cl (.write num off buf) t₁ p₂ t₂ →
          s₂.contents = t₂.contents := by
  constructor
  · refine ⟨returns_modify, fun tr o s' h hok => ?_⟩
    obtain ⟨ho, hs⟩ := write_performs hcontent hlen hoff hsum h hok
    exact ⟨ho, _, hs, posix_written _ _ _⟩
  · intro cl₂ off₂ buf₂ hoff₂ hin₁ hin₂ hdisj o₁ s₁ o₂ s₂ p₁ t₁ p₂ t₂ h₁ h₂ g₁ g₂
    have hmax : 2 ^ 31 ≤ StdString.maxSize := by decide
    have hsum₂ : off₂.toInt + buf₂.length ≤ StdString.maxSize := by omega
    obtain ⟨tr₁, h₁, hok₁⟩ := h₁
    obtain ⟨tr₂, h₂, hok₂⟩ := h₂
    obtain ⟨tr₃, g₁, hok₃⟩ := g₁
    obtain ⟨tr₄, g₂, hok₄⟩ := g₂
    obtain ⟨-, hs₁⟩ := write_performs hcontent hlen hoff hsum h₁ hok₁
    obtain ⟨-, ht₁⟩ := write_performs hcontent hlen hoff₂ hsum₂ g₁ hok₃
    -- neither write moves the end of the file
    have hlen₁ : (written off.toInt.toNat buf content).length < 2 ^ 31 := by
      rw [length_written]
      omega
    have hlen₂ : (written off₂.toInt.toNat buf₂ content).length < 2 ^ 31 := by
      rw [length_written]
      omega
    obtain ⟨-, hs₂⟩ := write_performs (by rw [hs₁, StdMap.set_self]) hlen₁ hoff₂ hsum₂ h₂ hok₂
    obtain ⟨-, ht₂⟩ := write_performs (by rw [ht₁, StdMap.set_self]) hlen₂ hoff hsum g₂ hok₄
    rw [hs₂, ht₂, hs₁, ht₁, StdMap.set_set, StdMap.set_set,
      written_comm (by omega) (by omega) (by omega)]

/-- A server with a file of four bytes, which everybody may use. -/
def fourBytes : ExtentServer :=
  (ExtentServer.replay (ExtentServer.init 0 0 0) [(default, .put 0x80000005 [1, 2, 3, 4] 3 [])]).2

/-- Two bytes across the end of the file, and two writes inside it. -/
theorem write_posix_across :
    Yields fourBytes (someClient.write 0x80000005 3 [8, 9]) (fun _ o s' =>
        o = .ret ⟨.OK, .untouched⟩ ∧ ∃ new, s'.contents = fourBytes.contents.set 0x80000005 new ∧
          Posix [1, 2, 3, 4] 3 [8, 9] new) ∧
      (afterCall (afterCall fourBytes (.write 0x80000005 0 [7])) (.write 0x80000005 2 [8, 9])).contents =
        (afterCall (afterCall fourBytes (.write 0x80000005 2 [8, 9])) (.write 0x80000005 0 [7])).contents
      := by
  have hcontent : fourBytes.contents 0x80000005 = some [1, 2, 3, 4] := by decide
  constructor
  · exact (@write_posix _ _ _ [8, 9] 3 hcontent (by decide) (by decide) (by decide) someClient).1
  · exact (@write_posix _ _ _ [7] 0 hcontent (by decide) (by decide) (by decide) someClient).2
      someClient 2 [8, 9] (by decide) (by decide) (by decide) (by decide) _ _ _ _ _ _ _ _
      (performs_afterCall (o := .ret ⟨.OK, .untouched⟩) (by decide))
      (performs_afterCall (o := .ret ⟨.OK, .untouched⟩) (by decide))
      (performs_afterCall (o := .ret ⟨.OK, .untouched⟩) (by decide))
      (performs_afterCall (o := .ret ⟨.OK, .untouched⟩) (by decide))

/-! ## `read` -/

section Read

variable {content : Str} {off : Int64}

/-- The slice is taken out of the content, unless the offset is beyond its end. -/
theorem readContent_eq (hlen : content.length ≤ StdString.maxSize) (hoff : 0 ≤ off.toInt)
    (size : UInt64) :
    readContent content off size [] =
      if off.toInt ≤ content.length then
        some (slice content off.toInt.toNat
          (min (off.toInt.toNat + size.toNat) content.length))
      else none := by
  have hpos : off.toUInt64.toNat = off.toInt.toNat := by
    have := toNat_toUInt64 hoff
    omega
  rw [readContent, hpos, StdString.substr, slice_min]
  split_ifs with h₁ h₂ h₂
  · rw [Option.bind_some, StdString.replace, if_pos]
    · simp
    · rw [List.length_take, List.length_drop, List.length_nil]
      omega
  · omega
  · omega
  · rfl

end Read

/-- The answer of the server to a `get` that it grants. -/
theorem serve_get_granted {s : ExtentServer} {id : ExtentId} {userid : UserId} {userkey buf : Str}
    (env : Env) (hkey : s.userkeys.get userid = userkey)
    (hperm : s.Permits ExtentServer.readBits id userid) (hbuf : s.contents id = some buf) :
    (serve env ⟨.get, id, userid, userkey⟩ s).1 = .reply ⟨.OK, buf, default⟩ := by
  show Resp.reply (s.get env id userid userkey).1 = _
  rw [ExtentServer.get_eq]
  obtain ⟨t, -, ⟨hno, -⟩ | ⟨-, ⟨hnone, -⟩ | ⟨b, hb, heq⟩⟩⟩ :=
    ExtentServer.guarded_ifContents_spec ExtentServer.readBits id userid userkey s
      (fun buf => ⟨.OK, buf, default⟩)
      (fun a buf => (some { a.getD default with atime := env.time }, some buf))
  · exact absurd ⟨hkey, hperm⟩ hno
  · rw [hnone] at hbuf
    cases hbuf
  · obtain rfl := Option.some.inj (hb.symm.trans hbuf)
    rw [heq]

/-- How `read` ends when the `get` it makes returns `content`. -/
def readOutcome (content : Str) (off : Int64) (size : UInt64) : Outcome FsReply :=
  match readContent content off size [] with
  | none => .throw
  | some s => .ret ⟨.OK, .buf s⟩

/-- `read` makes one call, and what this returns decides. -/
theorem alone_read_ok {cl : YfsClient} {s s' : ExtentServer} {num : Inum} {off : Int64} {size : UInt64}
    {tr : List (ExtentCall × Resp)} {o : Outcome FsReply}
    (h : Prog.Alone serve ∅ s (cl.read num off size []) tr o s') (hok : Succeeds tr) :
    ∃ r, tr = [(⟨.get, num, cl.userid, cl.userkey⟩, r)] ∧ s.contents num = some (r.bufOr []) ∧
      o = readOutcome (r.bufOr []) off size := by
  rw [YfsClient.read, Prog.alone_withLock] at h
  obtain ⟨r, s₁, tr', hr, hbuf, -, rfl, h, -⟩ := alone_ec_ok h.2 hok
  rw [if_neg (fun hne => by simpa using hr.eq hne), if_neg (fun hna => by simpa using hr.eq hna)] at h
  unfold readOutcome
  cases hread : readContent (r.bufOr []) off size [] with
  | none =>
    rw [hread] at h
    obtain ⟨rfl, rfl, -⟩ := Prog.alone_ret.1 h
    exact ⟨r, rfl, hbuf rfl, by rw [hread]⟩
  | some b =>
    rw [hread] at h
    obtain ⟨rfl, rfl, -⟩ := Prog.alone_ret.1 h
    exact ⟨r, rfl, hbuf rfl, by rw [hread]⟩

/-- A `read` that is granted can only end so. -/
theorem read_runs {cl : YfsClient} {s : ExtentServer} {num : Inum} {content : Str}
    (hcontent : s.contents num = some content) (hkey : s.userkeys.get cl.userid = cl.userkey)
    (hperm : s.Permits ExtentServer.readBits num cl.userid) (off : Int64) (size : UInt64) :
    ∃ tr s', Prog.Alone serve ∅ s (cl.read num off size []) tr (readOutcome content off size) s' ∧
      Succeeds tr := by
  have hr := serve_get_granted default hkey hperm hcontent
  refine ⟨[(⟨.get, num, cl.userid, cl.userkey⟩, .reply ⟨.OK, content, default⟩)],
    (serve default ⟨.get, num, cl.userid, cl.userkey⟩ s).2, ?_, ?_⟩
  · rw [YfsClient.read, Prog.alone_withLock]
    refine ⟨by simp, Prog.alone_call.2 ⟨default, [], by rw [hr], ?_⟩⟩
    rw [hr, if_neg (by simp [Resp.Is]), if_neg (by simp [Resp.Is])]
    show Prog.Alone serve _ _ (match readContent content off size [] with
      | none => .ret .throw
      | some s => done .OK (.buf s)) [] (readOutcome content off size) _
    unfold readOutcome
    cases readContent content off size [] with
    | none => exact .ret _
    | some s => exact .ret _
  · intro x hx
    obtain rfl := List.mem_singleton.1 hx
    rfl

/-- The outcome of `read` is the slice exactly when the offset is not beyond the end. -/
theorem readOutcome_eq_iff {content : Str} {off : Int64} (hlen : content.length ≤ StdString.maxSize)
    (hoff : 0 ≤ off.toInt) (size : UInt64) :
    readOutcome content off size = .ret ⟨.OK, .buf (slice content off.toInt.toNat
        (min (off.toInt.toNat + size.toNat) content.length))⟩ ↔ off.toInt ≤ content.length := by
  rw [readOutcome, readContent_eq hlen hoff]
  split_ifs with h <;> simp [h]

/-! ## Among other clients -/

/-- `Amid cl h tr o`: run by the client `cl` among other clients, the handler `h` makes the extent calls
recorded in `tr` and ends with `o`.  Each call of `yfs_client` finds the server in a state of its own:
nothing is said about what the others do in between. -/
inductive Amid (cl : YfsClient) : Handler → List (ExtentCall × Resp) → Outcome FuseReply → Prop
  | ret (o : Outcome FuseReply) : Amid cl (.ret o) [] o
  | call {s s' : ExtentServer} {c : FsCall} {k : FsReply → Handler} {r : FsReply}
      {tr tr' : List (ExtentCall × Resp)} {o : Outcome FuseReply} (stack : Attr) (finum : Inum) :
      Prog.Alone serve ∅ s (c.prog { cl with stack := stack, finum := finum }) tr (.ret r) s' →
      Amid cl (k r) tr' o → Amid cl (.call c k) (tr ++ tr') o
  | undef {s s' : ExtentServer} {c : FsCall} {k : FsReply → Handler}
      {tr : List (ExtentCall × Resp)} (stack : Attr) (finum : Inum) :
      Prog.Alone serve ∅ s (c.prog { cl with stack := stack, finum := finum }) tr .undef s' →
      Amid cl (.call c k) tr .undef
  | throw {s s' : ExtentServer} {c : FsCall} {k : FsReply → Handler}
      {tr : List (ExtentCall × Resp)} (stack : Attr) (finum : Inum) :
      Prog.Alone serve ∅ s (c.prog { cl with stack := stack, finum := finum }) tr .throw s' →
      Amid cl (.call c k) tr .throw

/-- The first call of a handler among other clients. -/
theorem amid_call {cl : YfsClient} {c : FsCall} {k : FsReply → Handler}
    {tr : List (ExtentCall × Resp)} {o : Outcome FuseReply} (h : Amid cl (.call c k) tr o) :
    ∃ stack finum s tr₁ a s',
      Prog.Alone serve ∅ s (c.prog { cl with stack := stack, finum := finum }) tr₁ a s' ∧
      ((∃ r tr₂, a = .ret r ∧ tr = tr₁ ++ tr₂ ∧ Amid cl (k r) tr₂ o) ∨
        ((∀ r, a ≠ .ret r) ∧ tr = tr₁ ∧ ∀ r, o ≠ .ret r)) := by
  cases h with
  | call stack finum h h' => exact ⟨stack, finum, _, _, _, _, h, .inl ⟨_, _, rfl, rfl, h'⟩⟩
  | throw stack finum h => exact ⟨stack, finum, _, _, _, _, h, .inr ⟨by simp, rfl, by simp⟩⟩
  | undef stack finum h => exact ⟨stack, finum, _, _, _, _, h, .inr ⟨by simp, rfl, by simp⟩⟩

/-- The call of `getattr` is one extent call and returns. -/
theorem alone_attrCall_ok {cl : YfsClient} {s s' : ExtentServer} {inum : Inum}
    {tr : List (ExtentCall × Resp)} {o : Outcome FsReply}
    (h : Prog.Alone serve ∅ s ((attrCall inum).prog cl) tr o s') (hok : Succeeds tr) :
    ∃ r out, tr = [(⟨.getattr, inum, cl.userid, cl.userkey⟩, r)] ∧ o = .ret ⟨.OK, out⟩ := by
  unfold attrCall at h
  cases hf : isfile inum
  all_goals
    simp only [hf, if_true, Bool.false_eq_true, if_false, FsCall.prog, getfile, getdir,
      Prog.alone_withLock] at h
    obtain ⟨r, s₁, tr', hr, -, -, rfl, h, -⟩ := alone_ec_ok h.2 hok
    rw [if_neg (fun hne => by simpa using hr.eq hne)] at h
    obtain ⟨rfl, rfl, -⟩ := Prog.alone_ret.1 h
    exact ⟨r, _, rfl, rfl⟩

/-- `fuseserver_read` among other clients: it makes two calls, and what the second one finds decides. -/
theorem amid_fuseserverRead {cl : YfsClient} {ino : Inum} {size : UInt64} {off : Int64}
    {tr : List (ExtentCall × Resp)} {o : Outcome FuseReply}
    (h : Amid cl (fuseserverRead ino size off) tr o) (hok : Succeeds tr) :
    ∃ r₁ r₂, tr = [(⟨.getattr, ino, cl.userid, cl.userkey⟩, r₁),
        (⟨.get, ino, cl.userid, cl.userkey⟩, r₂)] ∧
      ∀ b, o = .ret (.buf b) ↔ readOutcome (r₂.bufOr []) off size = .ret ⟨.OK, .buf b⟩ := by
  obtain ⟨stack, finum, s, tr₁, a, s', halone, hrest⟩ := amid_call h
  have hsub : Succeeds tr₁ := by
    rcases hrest with ⟨r, tr₂, -, rfl, -⟩ | ⟨-, rfl, -⟩
    · exact fun x hx => hok x (List.mem_append_left _ hx)
    · exact hok
  obtain ⟨r₁, out, rfl, rfl⟩ := alone_attrCall_ok halone hsub
  rcases hrest with ⟨r, tr₂, hr, rfl, h⟩ | ⟨hno, -⟩
  · cases hr
    replace h : Amid cl (.call (.read ino off size []) (fun r => reply (readReply r))) tr₂ o := h
    obtain ⟨stack', finum', t, tr₃, b, t', halone', hrest⟩ := amid_call h
    have hsub' : Succeeds tr₃ := by
      intro x hx
      apply hok x (List.mem_append_right _ _)
      rcases hrest with ⟨r, tr₄, -, rfl, -⟩ | ⟨-, rfl, -⟩
      · exact List.mem_append_left _ hx
      · exact hx
    obtain ⟨r₂, rfl, -, ho⟩ := alone_read_ok halone' hsub'
    rw [readOutcome] at ho
    rcases hrest with ⟨r, tr₄, rfl, rfl, hreply⟩ | ⟨hno, rfl, hno'⟩
    · -- `read` has returned, so it has returned the slice
      cases hreply
      refine ⟨r₁, r₂, rfl, fun b' => ?_⟩
      rw [readOutcome]
      split at ho
      · cases ho
      · cases ho
        simp [readReply]
    · refine ⟨r₁, r₂, rfl, fun b' => iff_of_false (hno' _) ?_⟩
      rw [readOutcome, ← ho]
      exact hno _
  · exact absurd rfl (hno _)

/-- **When `read` returns the slice it is asked for, exactly.**  For every content, offset `≥ 0` and
size, a `read` whose `get` is granted returns `OK` with the bytes from `off` up to `off + size` or the
end of the content if and only if `off` is not beyond the end; and in every run of `fuseserver_read`
among other clients whose extent calls succeed, the reply is this slice of the content which the second
call has found, if and only if `off` is not beyond the end of that content. -/
theorem read_slice_iff (cl : YfsClient) (ino : Inum) {off : Int64} (hoff : 0 ≤ off.toInt)
    (size : UInt64) :
    (∀ (s : ExtentServer) (content : Str), s.contents ino = some content →
        content.length ≤ StdString.maxSize → s.userkeys.get cl.userid = cl.userkey →
        s.Permits ExtentServer.readBits ino cl.userid →
        (Yields s (cl.read ino off size []) (fun _ o _ => o = .ret ⟨.OK, .buf (slice content
            off.toInt.toNat (min (off.toInt.toNat + size.toNat) content.length))⟩) ↔
          off.toInt ≤ content.length)) ∧
      ∀ tr o, Amid cl (fuseserverRead ino size off) tr o → Succeeds tr →
        ∃ r₁ r₂, tr = [(⟨.getattr, ino, cl.userid, cl.userkey⟩, r₁),
            (⟨.get, ino, cl.userid, cl.userkey⟩, r₂)] ∧
          ((r₂.bufOr []).length ≤ StdString.maxSize →
            (o = .ret (.buf (slice (r₂.bufOr []) off.toInt.toNat
                (min (off.toInt.toNat + size.toNat) (r₂.bufOr []).length))) ↔
              off.toInt ≤ (r₂.bufOr []).length)) := by
  constructor
  · intro s content hcontent hlen hkey hperm
    rw [← readOutcome_eq_iff hlen hoff size]
    obtain ⟨tr, s', hrun, hok⟩ := read_runs hcontent hkey hperm off size
    constructor
    · rintro ⟨-, hyields⟩
      exact hyields tr _ s' hrun hok
    · intro hout
      refine ⟨⟨tr, _, s', hrun⟩, fun tr' o t h hok' => ?_⟩
      obtain ⟨r, -, hbuf, rfl⟩ := alone_read_ok h hok'
      rw [← Option.some.inj (hcontent.symm.trans hbuf), hout]
  · intro tr o h hok
    obtain ⟨r₁, r₂, htr, ho⟩ := amid_fuseserverRead h hok
    refine ⟨r₁, r₂, htr, fun hlen => ?_⟩
    rw [ho, readOutcome_eq_iff hlen hoff size]

/-- Everybody may read the file. -/
theorem fourBytes_permits (userid : UserId) :
    fourBytes.Permits ExtentServer.readBits 0x80000005 userid := by
  have hattrs : fourBytes.attrs 0x80000005 = some ⟨0, 0, 0, 4, 0o777, 0, 0⟩ := by decide
  exact ExtentServer.permits_of_other hattrs (by decide) userid

/-- A read of three bytes at offset two of four gets two; and a handler that reads at offset zero of a
file which is emptied after its `getattr` replies with no bytes. -/
theorem read_slice_short :
    Yields fourBytes (someClient.read 0x80000005 2 3 []) (fun _ o _ => o = .ret ⟨.OK, .buf [3, 4]⟩) ∧
      ∃ tr o, Amid someClient (fuseserverRead 0x80000005 3 0) tr o ∧ Succeeds tr ∧
        ∃ r₁ r₂, tr = [(⟨.getattr, 0x80000005, 3, []⟩, r₁), (⟨.get, 0x80000005, 3, []⟩, r₂)] ∧
          ((r₂.bufOr []).length ≤ StdString.maxSize →
            o = .ret (.buf (slice (r₂.bufOr []) 0 (min (0 + 3) (r₂.bufOr []).length)))) := by
  constructor
  · exact ((@read_slice_iff someClient 0x80000005 2 (by decide) 3).1 fourBytes [1, 2, 3, 4]
      (by decide) (by decide) (by decide) (fourBytes_permits 3)).mpr (by decide)
  · obtain ⟨tr₁, h₁, hok₁⟩ := performs_afterCall (s := fourBytes) (c := attrCall 0x80000005)
      (o := .ret ⟨.OK, .fin ⟨4, 0, 0, 0, 0o777, 0, 0⟩⟩) (by decide)
    obtain ⟨tr₂, h₂, hok₂⟩ := performs_afterCall
      (s := afterCall fourBytes (.truncate 0x80000005 4)) (c := .read 0x80000005 0 3 [])
      (o := .ret ⟨.OK, .buf []⟩) (by decide)
    have hamid : Amid someClient (fuseserverRead 0x80000005 3 0) (tr₁ ++ (tr₂ ++ [])) (.ret (.buf [])) :=
      .call default 0 h₁ (.call default 0 h₂ (.ret _))
    have hok : Succeeds (tr₁ ++ (tr₂ ++ [])) := by
      intro x hx
      rcases List.mem_append.1 hx with hx | hx
      · exact hok₁ x hx
      · exact hok₂ x (by simpa using hx)
    obtain ⟨r₁, r₂, htr, hiff⟩ :=
      (@read_slice_iff someClient 0x80000005 0 (by decide) 3).2 _ _ hamid hok
    refine ⟨_, _, hamid, hok, r₁, r₂, htr, fun hlen => (hiff hlen).mpr ?_⟩
    exact Int.natCast_nonneg _

/-- A read at offset five of four bytes throws. -/
theorem read_beyond_end :
    ¬ ∀ (cl : YfsClient) (ino : Inum) (off : Int64) (size : UInt64) (s : ExtentServer) (content : Str),
      0 ≤ off.toInt → s.contents ino = some content → content.length ≤ StdString.maxSize →
      s.userkeys.get cl.userid = cl.userkey → s.Permits ExtentServer.readBits ino cl.userid →
      Yields s (cl.read ino off size []) (fun _ o _ => o = .ret ⟨.OK, .buf (slice content
        off.toInt.toNat (min (off.toInt.toNat + size.toNat) content.length))⟩) := by
  intro hall
  have hcontent : fourBytes.contents 0x80000005 = some [1, 2, 3, 4] := by decide
  have hkey : fourBytes.userkeys.get someClient.userid = someClient.userkey := by decide
  obtain ⟨tr, s', hrun, hok⟩ := read_runs hcontent hkey (fourBytes_permits 3) 5 3
  have hthrow : readOutcome [1, 2, 3, 4] 5 3 = .throw := by decide
  rw [hthrow] at hrun
  cases (hall someClient 0x80000005 5 3 fourBytes [1, 2, 3, 4] (by decide) hcontent (by decide) hkey
    (fourBytes_permits 3)).2 tr _ s' hrun hok

end Fuse
