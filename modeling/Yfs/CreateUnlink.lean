/-
# How `create` and `unlink` end

Both operations write the parent directory first and the child after it, and the server checks the two
extents separately.  This file says how they end against a server in any state, and draws two
consequences.

* `create_ends`, `unlink_ends`: the three ways to end.  Nothing has been written; the parent has been
  written and the child was refused; or everything has been done.
* `denied_intact_iff`: a refused operation leaves all extents as they were, unless it is refused for
  the child.
* `create_frame_iff`: `create` leaves the other extents alone if and only if the number it is given is
  new or the call cannot succeed.  The number is drawn at random and the server is not asked.
-/
import Yfs.ExtentCalls
import Yfs.FuseAccess

open YfsClient

namespace YfsClient

/-! ## `create` -/

/-- `create` gets as far as writing the parent, whose string is `buf`: the client may read and write
it, the name does not occur in it, and the entry fits. -/
structure Appends (cl : YfsClient) (s : ExtentServer) (pnum fnum : Inum) (fname buf : Str) : Prop where
  mayRead : cl.MayRead s pnum
  text : s.contents pnum = some buf
  new : ¬ fname <:+: buf
  fits : buf.length + (entry fname fnum).length ≤ StdString.maxSize
  mayWrite : cl.MayWrite s pnum

section Create

variable {ε : Type} {f : ε → Env} {cl : YfsClient} {s s' : ExtentServer} {pnum fnum : Inum}
  {fname : Str} {mode : UInt32} {tr : List (ExtentCall × Resp)} {o : Outcome FsReply}

/-- A returned status is the one that is returned. -/
theorem ne_ok_of_ret {st : FsStatus} {out : Out} (h : st ≠ .OK) (r : FsReply)
    (hr : (Outcome.ret ⟨st, out⟩ : Outcome FsReply) = .ret r) : r.status ≠ .OK := by
  cases hr
  exact h

/-- `create` after the parent has been written: the child is refused, or it is an empty file now with
the attributes that were asked for. -/
theorem createChild_ends {held : Finset ExtentId}
    (h : AloneIn f held s (cl.ec (.put []) fnum (fun r =>
      if r.Is .NOACCESS then done .NOACCESS
      else cl.ec .getattr fnum (fun r =>
        let a := { r.attrOr cl.stack with mode := mode, uid := cl.uid, gid := cl.gid }
        cl.ec (.setattr a) fnum (fun r =>
          if r.Is .NOACCESS then done .NOACCESS
          else done .OK)))) tr o s') :
    (¬ cl.MayWrite s fnum ∧ o = .ret ⟨.NOACCESS, .untouched⟩ ∧ s'.contents = s.contents) ∨
      (cl.MayWrite s fnum ∧ o = .ret ⟨.OK, .untouched⟩ ∧ s'.contents = s.contents.set fnum [] ∧
        ∃ e a, s'.attrs = s.attrs.set fnum a ∧ a.mtime = (f e).time ∧
          ExtentServer.ownership a = (mode, cl.uid, cl.gid)) := by
  obtain ⟨t, tr₁, hg, ⟨hno, -, hc, h⟩ | ⟨hyes, e, ha, hc, h⟩⟩ := alone_put h
  · obtain ⟨-, rfl, rfl⟩ := Prog.alone_ret.1 h
    exact .inl ⟨hno, rfl, hc⟩
  · right
    have hattr : t.attrs fnum = some (ExtentServer.putAttr (f e) s fnum []) := by
      rw [ha, StdMap.set_self]
    have hcont : t.contents fnum = some [] := by rw [hc, StdMap.set_self]
    obtain ⟨tr₂, h⟩ := alone_getattr hattr hcont h
    -- the record that `put` has just written lets the client write
    have hmay : cl.MayWrite t fnum := by
      refine ⟨(hg.keys _).trans hyes.1, ?_⟩
      intro a hta
      obtain rfl := Option.some.inj (hattr.symm.trans hta)
      cases hsa : s.attrs fnum with
      | none =>
        left
        simp only [ExtentServer.putAttr, hsa]
        decide
      | some b =>
        refine (hg.grants_iff ExtentServer.writeBits (a := b) ?_ cl.userid).mpr (hyes.2 b hsa)
        simp [ExtentServer.putAttr, hsa, ExtentServer.ownership]
    obtain ⟨u, tr₃, -, hcu, ⟨hno, -⟩ | ⟨-, hnone, -⟩ | ⟨-, -, hau, h⟩⟩ := alone_setattr h
    · exact absurd hmay hno
    · rw [hcont] at hnone
      cases hnone
    · obtain ⟨-, rfl, rfl⟩ := Prog.alone_ret.1 h
      refine ⟨hyes, rfl, by rw [hcu, hc], e, { ExtentServer.putAttr (f e) s fnum [] with
        mode := mode, uid := cl.uid, gid := cl.gid }, ?_, rfl, rfl⟩
      rw [hau, StdMap.get_of_some hattr, ha, StdMap.set_set]

/-- How `createNew` ends: the parent is refused, or it is written and the child refused, or both are
written. -/
theorem createNew_ends {held : Finset ExtentId} {buf : Str} (hne : fnum ≠ pnum)
    (h : AloneIn f held s (cl.createNew pnum fnum buf mode) tr o s') :
    (¬ cl.MayWrite s pnum ∧ o = .ret ⟨.NOACCESS, .untouched⟩ ∧ s'.contents = s.contents) ∨
      (cl.MayWrite s pnum ∧
        ((¬ cl.MayWrite s fnum ∧ o = .ret ⟨.NOACCESS, .untouched⟩ ∧
            s'.contents = s.contents.set pnum buf) ∨
          (cl.MayWrite s fnum ∧ o = .ret ⟨.OK, .untouched⟩ ∧
            s'.contents = (s.contents.set pnum buf).set fnum [] ∧
            (∀ id, id ≠ pnum → id ≠ fnum → s'.attrs id = s.attrs id) ∧
            ∃ e a, s'.attrs fnum = some a ∧ a.mtime = (f e).time ∧
              ExtentServer.ownership a = (mode, cl.uid, cl.gid)))) := by
  obtain ⟨u, tr₂, hg, ⟨hno, -, hcu, h⟩ | ⟨hyes, e, hau, hcu, h⟩⟩ := alone_put h
  · obtain ⟨-, rfl, rfl⟩ := Prog.alone_ret.1 h
    exact .inl ⟨hno, rfl, hcu⟩
  · refine .inr ⟨hyes, ?_⟩
    have hfn : u.attrs fnum = s.attrs fnum := by rw [hau, StdMap.set_of_ne _ _ hne]
    have hchild : cl.MayWrite u fnum ↔ cl.MayWrite s fnum := MayWrite.congr hg (by rw [hfn])
    rcases createChild_ends h with ⟨hno, rfl, hc⟩ | ⟨hmay, rfl, hc, e₂, b, hb, hattr⟩
    · exact .inl ⟨fun hmay => hno (hchild.mpr hmay), rfl, by rw [hc, hcu]⟩
    · refine .inr ⟨hchild.mp hmay, rfl, by rw [hc, hcu], ?_, e₂, b, ?_, hattr⟩
      · intro id hidp hidf
        rw [hb, StdMap.set_of_ne _ _ hidf, hau, StdMap.set_of_ne _ _ hidp]
      · rw [hb, StdMap.set_self]

/-- **How `create` ends**: nothing is written, or the parent is written and the child refused, or both
are written. -/
theorem create_ends (hs : s.SameKeys)
    (h : AloneIn f ∅ s (cl.create pnum fnum fname mode) tr o s') :
    fnum ≠ pnum ∧
      ((¬ (∃ buf, cl.Appends s pnum fnum fname buf) ∧ s'.contents = s.contents ∧
          (∀ r, o = .ret r → r.status ≠ .OK) ∧
          (cl.MayRead s pnum → ∀ buf, s.contents pnum = some buf →
            (o = .ret ⟨.EXIST, .untouched⟩ ↔ fname <:+: buf))) ∨
        ∃ buf, cl.Appends s pnum fnum fname buf ∧
          ((¬ cl.MayWrite s fnum ∧ o = .ret ⟨.NOACCESS, .untouched⟩ ∧
              s'.contents = s.contents.set pnum (buf ++ entry fname fnum)) ∨
            (cl.MayWrite s fnum ∧ o = .ret ⟨.OK, .untouched⟩ ∧
              s'.contents = (s.contents.set pnum (buf ++ entry fname fnum)).set fnum [] ∧
              (∀ id, id ≠ pnum → id ≠ fnum → s'.attrs id = s.attrs id) ∧
              ∃ e a, s'.attrs fnum = some a ∧ a.mtime = (f e).time ∧
                ExtentServer.ownership a = (mode, cl.uid, cl.gid)))) := by
  obtain ⟨-, h⟩ := Prog.alone_withLock.1 h
  obtain ⟨hlock, h⟩ := Prog.alone_withLock.1 h
  have hne : fnum ≠ pnum := by simpa using hlock
  refine ⟨hne, ?_⟩
  obtain ⟨t, tr₁, hg, hc, ⟨hno, -, h⟩ | ⟨hyes, hnone, -, h⟩ | ⟨hyes, e, a, buf, ha, hbuf, hat, h⟩⟩ :=
    alone_get (cl.createIn pnum fnum fname mode) hs h
  · obtain ⟨-, rfl, rfl⟩ := Prog.alone_ret.1 h
    exact .inl ⟨fun ⟨_, hap⟩ => hno hap.mayRead, hc, ne_ok_of_ret (by decide), fun hyes => absurd hyes hno⟩
  · obtain ⟨-, rfl, rfl⟩ := Prog.alone_ret.1 h
    refine .inl ⟨fun ⟨_, hap⟩ => ?_, hc, ne_ok_of_ret (by decide), fun _ buf hbuf => ?_⟩
    · rw [hap.text] at hnone
      cases hnone
    · rw [hbuf] at hnone
      cases hnone
  · have hsome : ∀ buf', s.contents pnum = some buf' → buf' = buf :=
      fun buf' h' => Option.some.inj (h'.symm.trans hbuf)
    unfold createIn at h
    split_ifs at h with hfind
    · rw [ne_eq, StdString.find_eq_none_iff, not_not] at hfind
      obtain ⟨-, rfl, rfl⟩ := Prog.alone_ret.1 h
      refine .inl ⟨fun ⟨buf', hap⟩ => hap.new ?_, hc, ne_ok_of_ret (by decide), fun _ buf' hbuf' => ?_⟩
      · rwa [hsome buf' hap.text]
      · rw [hsome buf' hbuf']
        exact iff_of_true rfl hfind
    · rw [not_not, StdString.find_eq_none_iff] at hfind
      have hexist : ∀ {o' : Outcome FsReply}, o' ≠ .ret ⟨.EXIST, .untouched⟩ → cl.MayRead s pnum →
          ∀ buf', s.contents pnum = some buf' →
            (o' = .ret ⟨.EXIST, .untouched⟩ ↔ fname <:+: buf') := by
        intro o' ho' _ buf' hbuf'
        rw [hsome buf' hbuf']
        exact iff_of_false ho' hfind
      rw [StdString.append] at h
      split_ifs at h with hlen
      · -- the `get` has left the permissions as they were
        have hend := createNew_ends hne h
        rw [mayWrite_of_get hg ha hat, mayWrite_of_get hg ha hat, hc] at hend
        rcases hend with ⟨hno, rfl, hc'⟩ | ⟨hmay, hend⟩
        · exact .inl ⟨fun ⟨_, hap⟩ => hno hap.mayWrite, hc', ne_ok_of_ret (by decide),
            hexist (by simp)⟩
        · refine .inr ⟨buf, ⟨hyes, hbuf, hfind, hlen, hmay⟩, ?_⟩
          rcases hend with hrefused | ⟨hchild, ho, hc', hothers, hnew⟩
          · exact .inl hrefused
          · refine .inr ⟨hchild, ho, hc', fun id hidp hidf => ?_, hnew⟩
            rw [hothers id hidp hidf, hat, StdMap.set_of_ne _ _ hidp]
      · obtain ⟨-, rfl, rfl⟩ := Prog.alone_ret.1 h
        refine .inl ⟨fun ⟨buf', hap⟩ => hlen ?_, hc, by simp, hexist (by simp)⟩
        have hfits := hap.fits
        rwa [hsome buf' hap.text] at hfits

/-- `create` comes to its end unless the new number is the directory's own. -/
theorem unblocked_create (cl : YfsClient) (fname : Str) (mode : UInt32) (hne : fnum ≠ pnum) :
    (cl.create pnum fnum fname mode).Unblocked ∅ := by
  refine Prog.unblocked_withLock.2 ⟨by simp, Prog.unblocked_withLock.2 ⟨by simpa using hne, ?_⟩⟩
  intro r
  dsimp only
  split_ifs
  · trivial
  · trivial
  · trivial
  · split
    · trivial
    · intro r
      dsimp only
      split_ifs
      · trivial
      · intro r
        dsimp only
        split_ifs
        · trivial
        · intro r r
          dsimp only
          split_ifs <;> trivial

variable (cl fname mode) in
/-- For every environment there is a run of `create` in which all calls read it. -/
theorem exists_create (env : Env) (s : ExtentServer) (hne : fnum ≠ pnum) :
    ∃ tr o s', AloneIn (fun _ : Unit => env) ∅ s (cl.create pnum fnum fname mode) tr o s' ∧
      Prog.Alone serve ∅ s (cl.create pnum fnum fname mode) tr o s' := by
  obtain ⟨tr, o, s', h⟩ := Prog.exists_alone_of_unblocked serve env
    (unblocked_create cl fname mode hne) s
  exact ⟨tr, o, s', h, Prog.alone_of_fixed env h⟩

end Create

/-! ## `unlink` -/

/-- `unlink` gets as far as writing the parent, whose string is `buf`: the client may read and write
it, and the name is a token of it with the token `num` after it. -/
structure Erases (cl : YfsClient) (s : ExtentServer) (pnum : Inum) (fname buf num : Str) : Prop where
  mayRead : cl.MayRead s pnum
  text : s.contents pnum = some buf
  found : ∃ rest, after fname (StdString.split slash buf) = some (num :: rest)
  mayWrite : cl.MayWrite s pnum

theorem mem_of_after {fname : Str} {ts rest : List Str} (h : after fname ts = some rest) :
    fname ∈ ts := by
  induction ts with
  | nil => cases h
  | cons t ts ih =>
    rw [after] at h
    split_ifs at h with ht
    · simp [ht]
    · exact List.mem_cons_of_mem _ (ih h)

/-- What is erased at a token lies inside the string, and it is not empty. -/
theorem eraseEntry_of_found {buf fname : Str} (num : Str) {rest : List Str}
    (h : after fname (StdString.split slash buf) = some rest) :
    ∃ new, eraseEntry buf fname num = some new ∧ new.length < buf.length := by
  have hmem := mem_of_after h
  have hpos : 0 < buf.length := by
    cases buf with
    | nil => simp [StdString.split] at hmem
    | cons c buf => simp
  cases hfind : StdString.find buf fname with
  | none => exact absurd (StdString.infix_of_mem_split hmem) (StdString.find_eq_none_iff.1 hfind)
  | some i =>
    have hle := StdString.find_add_length_le hfind
    have hlt : i < buf.length := by
      cases fname with
      | nil =>
        rw [StdString.find_eq_zero List.nil_prefix] at hfind
        obtain rfl := Option.some.inj hfind
        exact hpos
      | cons c fname =>
        rw [List.length_cons] at hle
        omega
    refine ⟨buf.take i ++ buf.drop (i + (fname.length + 1 + num.length + 1)), ?_, ?_⟩
    · rw [eraseEntry, hfind, Option.getD_some, StdString.erase, if_pos (by omega)]
    · rw [List.length_append, List.length_take, List.length_drop]
      omega

section Unlink

variable {ε : Type} {f : ε → Env} {cl : YfsClient} {s s' : ExtentServer} {pnum : Inum} {fname : Str}
  {tr : List (ExtentCall × Resp)} {o : Outcome FsReply}

/-- `unlink` once it has the new directory string: the parent is refused, or it is written and the child
refused, or it is written and the child is gone. -/
theorem unlinkEntry_ends {fnum : Inum} {buf : Str}
    (h : AloneIn f (insert pnum ∅) s (cl.ec (.put buf) pnum (fun r =>
      if r.Is .NOACCESS then done .NOACCESS else unlinkFile cl fnum)) tr o s') :
    (¬ cl.MayWrite s pnum ∧ o = .ret ⟨.NOACCESS, .untouched⟩ ∧ s'.contents = s.contents) ∨
      (cl.MayWrite s pnum ∧ fnum ≠ pnum ∧
        ((¬ cl.MayWrite s fnum ∧ o = .ret ⟨.NOACCESS, .untouched⟩ ∧
            s'.contents = s.contents.set pnum buf) ∨
          (cl.MayWrite s fnum ∧ o = .ret ⟨.OK, .untouched⟩ ∧
            s'.contents = (s.contents.set pnum buf).erase fnum))) := by
  obtain ⟨u, tr₂, hg, ⟨hno, -, hcu, h⟩ | ⟨hyes, e, hau, hcu, h⟩⟩ := alone_put h
  · obtain ⟨-, rfl, rfl⟩ := Prog.alone_ret.1 h
    exact .inl ⟨hno, rfl, hcu⟩
  · obtain ⟨hlock, h⟩ := Prog.alone_withLock.1 h
    have hne : fnum ≠ pnum := by simpa using hlock
    refine .inr ⟨hyes, hne, ?_⟩
    have hchild : cl.MayWrite u fnum ↔ cl.MayWrite s fnum := by
      apply MayWrite.congr hg
      rw [hau, StdMap.set_of_ne _ _ hne]
    obtain ⟨v, tr₃, -, ⟨hno, -, hcv, h⟩ | ⟨hmay, hcv, h⟩⟩ := alone_remove h
    · obtain ⟨-, rfl, rfl⟩ := Prog.alone_ret.1 h
      exact .inl ⟨fun hmay => hno (hchild.mpr hmay), rfl, by rw [hcv, hcu]⟩
    · obtain ⟨-, rfl, rfl⟩ := Prog.alone_ret.1 h
      exact .inr ⟨hchild.mp hmay, rfl, by rw [hcv, hcu]⟩

/-- **How `unlink` ends**: nothing is written, or the parent is written and the child refused, or the
parent is written and the child is gone. -/
theorem unlink_ends (hs : s.SameKeys) (h : AloneIn f ∅ s (cl.unlink pnum fname) tr o s') :
    (¬ (∃ buf num, cl.Erases s pnum fname buf num) ∧ s'.contents = s.contents ∧
        ∀ r, o = .ret r → r.status ≠ .OK) ∨
      ∃ buf num new, cl.Erases s pnum fname buf num ∧ eraseEntry buf fname num = some new ∧
        cl.n2i num ≠ pnum ∧
        ((¬ cl.MayWrite s (cl.n2i num) ∧ o = .ret ⟨.NOACCESS, .untouched⟩ ∧
            s'.contents = s.contents.set pnum new) ∨
          (cl.MayWrite s (cl.n2i num) ∧ o = .ret ⟨.OK, .untouched⟩ ∧
            s'.contents = (s.contents.set pnum new).erase (cl.n2i num))) := by
  obtain ⟨-, h⟩ := Prog.alone_withLock.1 h
  obtain ⟨t, tr₁, hg, hc, ⟨hno, -, h⟩ | ⟨hyes, hnone, -, h⟩ | ⟨hyes, e, a, buf, ha, hbuf, hat, h⟩⟩ :=
    alone_get (cl.unlinkIn pnum fname) hs h
  · obtain ⟨-, rfl, rfl⟩ := Prog.alone_ret.1 h
    exact .inl ⟨fun ⟨_, _, her⟩ => hno her.mayRead, hc, ne_ok_of_ret (by decide)⟩
  · obtain ⟨-, rfl, rfl⟩ := Prog.alone_ret.1 h
    refine .inl ⟨fun ⟨_, _, her⟩ => ?_, hc, ne_ok_of_ret (by decide)⟩
    rw [her.text] at hnone
    cases hnone
  · have hfound : ∀ buf' num, cl.Erases s pnum fname buf' num →
        ∃ rest, after fname (StdString.split slash buf) = some (num :: rest) := by
      intro buf' num her
      rw [Option.some.inj (hbuf.symm.trans her.text)]
      exact her.found
    unfold unlinkIn at h
    cases hafter : after fname (StdString.split slash buf) with
    | none =>
      rw [hafter] at h hfound
      obtain ⟨-, rfl, rfl⟩ := Prog.alone_ret.1 h
      refine .inl ⟨fun ⟨buf', num, her⟩ => ?_, hc, ne_ok_of_ret (by decide)⟩
      obtain ⟨rest, hrest⟩ := hfound buf' num her
      cases hrest
    | some ts =>
      cases ts with
      | nil =>
        rw [hafter] at h hfound
        obtain ⟨-, rfl, rfl⟩ := Prog.alone_ret.1 h
        refine .inl ⟨fun ⟨buf', num, her⟩ => ?_, hc, by simp⟩
        obtain ⟨rest, hrest⟩ := hfound buf' num her
        cases hrest
      | cons num rest =>
        obtain ⟨new, hnew, -⟩ := eraseEntry_of_found num hafter
        rw [hafter] at h
        dsimp only at h
        rw [hnew] at h
        have hend := unlinkEntry_ends h
        rw [mayWrite_of_get hg ha hat, mayWrite_of_get hg ha hat, hc] at hend
        rcases hend with ⟨hno, rfl, hc'⟩ | ⟨hmay, hne, hend⟩
        · exact .inl ⟨fun ⟨_, _, her⟩ => hno her.mayWrite, hc', ne_ok_of_ret (by decide)⟩
        · exact .inr ⟨buf, num, new, ⟨hyes, hbuf, ⟨rest, hafter⟩, hmay⟩, hnew, hne, hend⟩

end Unlink

/-! ## Refused operations -/

/-- `create` is refused for the child, after it has written the parent. -/
def CreateStrands (cl : YfsClient) (s : ExtentServer) (pnum fnum : Inum) (fname : Str) : Prop :=
  fnum ≠ pnum ∧ (∃ buf, cl.Appends s pnum fnum fname buf) ∧ ¬ cl.MayWrite s fnum

/-- `unlink` is refused for the child, after it has written the parent. -/
def UnlinkStrands (cl : YfsClient) (s : ExtentServer) (pnum : Inum) (fname : Str) : Prop :=
  ∃ buf num, cl.Erases s pnum fname buf num ∧ cl.n2i num ≠ pnum ∧ ¬ cl.MayWrite s (cl.n2i num)

/-- Whenever the operation returns a status other than `OK`, the same extents exist as before, with
the same contents. -/
def IntactUnlessOk (s : ExtentServer) (p : FsProg) : Prop :=
  ∀ tr r s', Prog.Alone serve ∅ s p tr (.ret r) s' → r.status ≠ .OK → s'.contents = s.contents

section Denied

variable {cl : YfsClient} {s : ExtentServer} {pnum fnum : Inum} {fname : Str} {mode : UInt32}

theorem intact_create_iff (hs : s.SameKeys) :
    IntactUnlessOk s (cl.create pnum fnum fname mode) ↔ ¬ cl.CreateStrands s pnum fnum fname := by
  constructor
  · rintro hint ⟨hne, hap, hno⟩
    obtain ⟨tr, o, s', -, h⟩ := exists_create cl fname mode default s hne
    obtain ⟨-, ⟨hnot, -⟩ | ⟨buf, hbuf, ⟨-, rfl, hc⟩ | ⟨hmay, -⟩⟩⟩ := create_ends (f := fun e => e) hs h
    · exact hnot hap
    · -- the parent is longer now
      have hsame := congrFun (hint tr _ s' h (by simp)) pnum
      rw [hc, StdMap.set_self, hbuf.text, Option.some.injEq] at hsame
      have hlen := congrArg List.length hsame
      simp [entry] at hlen
    · exact hno hmay
  · intro hns tr r s' h hst
    obtain ⟨hne, ⟨-, hc, -⟩ | ⟨buf, hbuf, ⟨hno, -⟩ | ⟨-, ho, -⟩⟩⟩ := create_ends (f := fun e => e) hs h
    · exact hc
    · exact absurd ⟨hne, ⟨buf, hbuf⟩, hno⟩ hns
    · cases ho
      exact absurd rfl hst

theorem intact_unlink_iff (hs : s.SameKeys) :
    IntactUnlessOk s (cl.unlink pnum fname) ↔ ¬ cl.UnlinkStrands s pnum fname := by
  constructor
  · rintro hint ⟨buf, num, her, hne, hno⟩
    obtain ⟨rest, hafter⟩ := her.found
    have hreturns : Returns ∅ s (cl.unlink pnum fname) := by
      refine returns_unlink_of her.text (fun num' rest' h' => ?_)
      rw [hafter, Option.some.injEq, List.cons.injEq] at h'
      rwa [← h'.1]
    obtain ⟨tr, o, s', h⟩ := hreturns
    rcases unlink_ends (f := fun e => e) hs h with ⟨hnot, -⟩ | ⟨buf', num', new, her', hnew, -, hend⟩
    · exact hnot ⟨buf, num, her⟩
    · obtain rfl : buf' = buf := Option.some.inj (her'.text.symm.trans her.text)
      obtain ⟨rest', hafter'⟩ := her'.found
      obtain rfl : num' = num := by
        rw [hafter, Option.some.injEq, List.cons.injEq] at hafter'
        exact hafter'.1.symm
      rcases hend with ⟨-, rfl, hc⟩ | ⟨hmay, -⟩
      · -- the parent is shorter now
        obtain ⟨new', hnew', hlt⟩ := eraseEntry_of_found num' hafter
        obtain rfl := Option.some.inj (hnew.symm.trans hnew')
        have hsame := congrFun (hint tr _ s' h (by simp)) pnum
        rw [hc, StdMap.set_self, her.text, Option.some.injEq] at hsame
        rw [hsame] at hlt
        omega
      · exact hno hmay
  · intro hns tr r s' h hst
    rcases unlink_ends (f := fun e => e) hs h with ⟨-, hc, -⟩ | ⟨buf, num, new, her, -, hne, hend⟩
    · exact hc
    · rcases hend with ⟨hno, -⟩ | ⟨-, ho, -⟩
      · exact absurd ⟨buf, num, her, hne, hno⟩ hns
      · cases ho
        exact absurd rfl hst

/-- **Refused operations, exactly.**  In every state in which the two maps of the server have the same
ids (as in every state it can reach), a `create` that does not return `OK` leaves all extents as they
were unless it is refused for the child alone, and the same holds of `unlink`. -/
theorem denied_intact_iff (hs : s.SameKeys) (cl : YfsClient) (pnum fnum : Inum) (fname : Str)
    (mode : UInt32) :
    (IntactUnlessOk s (cl.create pnum fnum fname mode) ↔ ¬ cl.CreateStrands s pnum fnum fname) ∧
      (IntactUnlessOk s (cl.unlink pnum fname) ↔ ¬ cl.UnlinkStrands s pnum fname) :=
  ⟨intact_create_iff hs, intact_unlink_iff hs⟩

end Denied

/-- On a server that has only its root directory, the child of a `create` has no record that could
refuse it, and there is nothing to unlink. -/
theorem denied_intact_fresh :
    let cl : YfsClient := ⟨3, [], 3, 3, default, 0⟩
    IntactUnlessOk (ExtentServer.init 0 0 0) (cl.create 1 5 [97] 0o644) ∧
      IntactUnlessOk (ExtentServer.init 0 0 0) (cl.unlink 1 [97]) := by
  intro cl
  have hs := ExtentServer.sameKeys_init 0 0 0
  have hiff := denied_intact_iff hs cl 1 5 [97] 0o644
  constructor
  · refine hiff.1.mpr ?_
    rintro ⟨-, -, hno⟩
    have hnone : (ExtentServer.init 0 0 0).attrs 5 = none := by decide
    refine hno ⟨by decide, fun a ha => ?_⟩
    rw [hnone] at ha
    cases ha
  · refine hiff.2.mpr ?_
    rintro ⟨buf, num, her, -⟩
    have htext : (ExtentServer.init 0 0 0).contents 1 = some [] := by decide
    obtain rfl := Option.some.inj (her.text.symm.trans htext)
    obtain ⟨rest, hrest⟩ := her.found
    cases hrest

/-- A root directory that everybody may write, with one file in it that only user 7 may write. -/
def privateFile : ExtentServer :=
  (ExtentServer.replay (ExtentServer.init 0 0 0) [(default, .put 5 [1] 3 []),
    (default, .put 1 [97, 47, 53, 47] 3 []), (default, .setattr 5 ⟨0, 0, 0, 0, 0o600, 7, 7⟩ 3 [])]).2

theorem privateFile_sameKeys : privateFile.SameKeys :=
  ExtentServer.Run.sameKeys ⟨0, 0, 0, ExtentServer.trace_replay _ _⟩

/-- User 3 unlinks that file: the call is refused, and the directory is empty. -/
theorem unlink_denied_but_unlisted :
    ¬ ∀ (s : ExtentServer) (cl : YfsClient) (pnum fnum : Inum) (fname : Str) (mode : UInt32),
      s.SameKeys → IntactUnlessOk s (cl.create pnum fnum fname mode) ∧
        IntactUnlessOk s (cl.unlink pnum fname) := by
  intro hall
  let cl : YfsClient := ⟨3, [], 3, 3, default, 0⟩
  have hsolo : ((cl.unlink 1 [97]).solo serve ∅ privateFile (List.replicate 3 default)).map
      (fun x => (x.2.1, x.2.2.contents 1)) = some (.ret ⟨.NOACCESS, .untouched⟩, some []) := by
    decide
  obtain ⟨⟨tr, o, s'⟩, hrun, he⟩ := Option.map_eq_some_iff.1 hsolo
  obtain ⟨rfl, hcontents⟩ := Prod.mk.inj he
  have hsame := (hall privateFile cl 1 5 [97] 0 privateFile_sameKeys).2 tr _ s'
    (Prog.alone_of_solo _ hrun) (by simp)
  have hbefore : privateFile.contents 1 = some [97, 47, 53, 47] := by decide
  rw [hsame, hbefore] at hcontents
  cases hcontents

end YfsClient

/-! ## The frame of `create` -/

namespace Fuse

/-- `create` can return `OK`: both extents let the client do what it does to them. -/
def CanCreate (cl : YfsClient) (s : ExtentServer) (pnum fnum : Inum) (fname : Str) : Prop :=
  fnum ≠ pnum ∧ (∃ buf, cl.Appends s pnum fnum fname buf) ∧ cl.MayWrite s fnum

/-- Every extent that existed in `s`, other than `pnum`, has the same contents and attributes in `s'`,
the access time aside. -/
def KeepsOthers (pnum : Inum) (s s' : ExtentServer) : Prop :=
  ∀ id, id ≠ pnum → s.contents id ≠ none → ¬ ExtentServer.Changes s s' id

section Frame

variable {cl : YfsClient} {s s' : ExtentServer} {pnum fnum : Inum} {fname : Str} {mode : UInt32}

/-- A `create` of a number that is not in use keeps the other extents. -/
theorem keepsOthers_of_create (hs : s.SameKeys) {tr : List (ExtentCall × Resp)}
    (hfree : s.contents fnum = none)
    (h : Prog.Alone serve ∅ s (cl.create pnum fnum fname mode) tr (.ret ⟨.OK, .untouched⟩) s') :
    KeepsOthers pnum s s' := by
  obtain ⟨-, ⟨-, -, hok, -⟩ | ⟨buf, hap, ⟨-, ho, -⟩ | ⟨-, -, hc, hattrs, -⟩⟩⟩ :=
    create_ends (f := fun e => e) hs h
  · exact absurd rfl (hok _ rfl)
  · cases ho
  · intro id hid hex hch
    have hne : id ≠ fnum := fun he => hex (he ▸ hfree)
    rcases hch with hch | hch
    · apply hch
      rw [hc, StdMap.set_of_ne _ _ hne, StdMap.set_of_ne _ _ hid]
    · apply hch
      rw [hattrs id hid hne]

/-- Where `create` can succeed with a number in use, there is a moment at which it changes that
extent. -/
theorem exists_create_changes (mode : UInt32) (hs : s.SameKeys) (hused : s.contents fnum ≠ none)
    (hcan : CanCreate cl s pnum fnum fname) :
    ∃ tr s', Prog.Alone serve ∅ s (cl.create pnum fnum fname mode) tr (.ret ⟨.OK, .untouched⟩) s' ∧
      ExtentServer.Changes s s' fnum := by
  obtain ⟨hne, hap, hmay⟩ := hcan
  obtain ⟨buf, hbuf⟩ := Option.ne_none_iff_exists'.1 hused
  obtain ⟨a, ha⟩ := hs.attrs_of_contents hbuf
  -- a clock that differs from the recorded time of the last change
  obtain ⟨tr, o, s', hfixed, h⟩ := exists_create cl fname mode
    ⟨a.mtime + 1, default⟩ s hne
  obtain ⟨-, ⟨hnot, -⟩ | ⟨-, -, ⟨hno, -⟩ | ⟨-, rfl, -, -, -, b, hb, hmtime, -⟩⟩⟩ :=
    create_ends hs hfixed
  · exact absurd hap hnot
  · exact absurd hmay hno
  · refine ⟨tr, s', h, .inr ?_⟩
    rw [hb, ha]
    intro heq
    rw [Option.map_some, Option.map_some, Option.some.injEq] at heq
    have hsame := congrArg Attr.mtime heq
    change b.mtime = a.mtime at hsame
    rw [hmtime] at hsame
    simp at hsame

/-- **What `create` does to the other extents, exactly.** -/
theorem create_keepsOthers_iff (mode : UInt32) (hs : s.SameKeys) :
    (∀ tr s', Prog.Alone serve ∅ s (cl.create pnum fnum fname mode) tr (.ret ⟨.OK, .untouched⟩) s' →
        KeepsOthers pnum s s') ↔ s.contents fnum = none ∨ ¬ CanCreate cl s pnum fnum fname := by
  constructor
  · intro hall
    by_contra hcon
    rw [not_or, not_not] at hcon
    obtain ⟨tr, s', h, hch⟩ := exists_create_changes mode hs hcon.1 hcon.2
    exact hall tr s' h fnum hcon.2.1 hcon.1 hch
  · rintro (hfree | hcan) tr s' h
    · exact keepsOthers_of_create hs hfree h
    · obtain ⟨hne, ⟨-, -, hok, -⟩ | ⟨buf, hap, ⟨-, ho, -⟩ | ⟨hmay, -⟩⟩⟩ :=
        create_ends (f := fun e => e) hs h
      · exact absurd rfl (hok _ rfl)
      · cases ho
      · exact absurd ⟨hne, ⟨buf, hap⟩, hmay⟩ hcan

/-- What is on the stack does not matter to whether the call can succeed. -/
theorem canCreate_stack (stack : Attr) (finum : Inum) :
    CanCreate { cl with stack := stack, finum := finum } s pnum fnum fname ↔
      CanCreate cl s pnum fnum fname := by
  refine and_congr Iff.rfl (and_congr (exists_congr fun buf => ?_) Iff.rfl)
  constructor
  · intro h
    exact ⟨h.mayRead, h.text, h.new, h.fits, h.mayWrite⟩
  · intro h
    exact ⟨h.mayRead, h.text, h.new, h.fits, h.mayWrite⟩

/-- A handler that creates succeeds exactly when its call of `create` does, and leaves the state which
that call leaves. -/
theorem handles_creating_iff (hs : s.SameKeys) {success : EntryParam → FuseReply}
    (hsuccess : ∀ e x, success e ≠ .err x) {isFile : Bool} {r₁ r₂ : UInt32} :
    (∃ tr e, Handles cl s (creating success isFile pnum fname mode r₁ r₂) tr (.ret (success e)) s') ↔
      ∃ stack finum tr, Prog.Alone serve ∅ s
        (({ cl with stack := stack, finum := finum } : YfsClient).create pnum (randomInum isFile r₁ r₂)
          fname mode) tr (.ret ⟨.OK, .untouched⟩) s' := by
  constructor
  · rintro ⟨tr, e, h⟩
    obtain ⟨stack, finum, tr₁, a, s₁, halone, ⟨r, tr₂, rfl, -, h⟩ | ⟨-, -, -, hno⟩⟩ := handles_call h
    · -- with another status the reply is an error
      have hfail : ∀ st, Handles cl s₁ (reply (createReply success st none)) tr₂ (.ret (success e)) s' →
          False := by
        intro st h
        have hr := (handles_ret.1 h).2.1
        cases st <;> exact hsuccess e _ (Outcome.ret.inj hr)
      obtain ⟨-, ⟨-, -, hok, -⟩ | ⟨buf, -, ⟨-, ho, -⟩ | ⟨-, ho, hc, -, -, b, hb, -⟩⟩⟩ :=
        create_ends (f := fun e => e) hs halone
      · rw [if_pos (hok r rfl)] at h
        exact (hfail _ h).elim
      · cases ho
        exact (hfail _ h).elim
      · cases ho
        rw [if_neg (by simp)] at h
        have hcont : s₁.contents (randomInum isFile r₁ r₂) = some [] := by rw [hc, StdMap.set_self]
        obtain ⟨tr₃, h⟩ := handles_getattr hb hcont h
        obtain ⟨-, -, rfl⟩ := handles_ret.1 h
        exact ⟨stack, finum, tr₁, halone⟩
    · exact absurd rfl (hno _)
  · rintro ⟨stack, finum, tr, h⟩
    obtain ⟨-, ⟨-, -, hok, -⟩ | ⟨buf, -, ⟨-, ho, -⟩ | ⟨-, -, hc, -, -, b, hb, -⟩⟩⟩ :=
      create_ends (f := fun e => e) hs h
    · exact absurd rfl (hok _ rfl)
    · cases ho
    · have hcont : s'.contents (randomInum isFile r₁ r₂) = some [] := by rw [hc, StdMap.set_self]
      let e : EntryParam := ⟨randomInum isFile r₁ r₂, attrStat (randomInum isFile r₁ r₂) b, 0, 0, 0⟩
      obtain ⟨tr', hget⟩ := handles_getattr_of hb hcont
        (k := fun ret st => if ret ≠ .OK then reply (createReply success ret none)
          else reply (createReply success ret (some ⟨randomInum isFile r₁ r₂, st, 0, 0, 0⟩)))
        (handles_ret.2 ⟨rfl, rfl, rfl⟩ : Handles cl s' (reply (createReply success .OK (some e))) [] _ s')
      exact ⟨tr ++ tr', e, .call stack finum h hget⟩

/-- **When `create` overwrites no existing data, exactly.**  For every state, directory and name, and
for every number that `random_inum` can draw: all successful calls of `create`, and all successful runs
of the handlers that create, keep the extents that existed before (other than the directory) if and
only if the number is not in use or the call cannot succeed. -/
theorem create_frame_iff (hs : s.SameKeys) (cl : YfsClient) (pnum : Inum) (fname : Str) (mode : UInt32)
    (isFile : Bool) (r₁ r₂ : UInt32) :
    ((∀ tr s', Prog.Alone serve ∅ s (cl.create pnum (randomInum isFile r₁ r₂) fname mode) tr
          (.ret ⟨.OK, .untouched⟩) s' → KeepsOthers pnum s s') ↔
        s.contents (randomInum isFile r₁ r₂) = none ∨
          ¬ CanCreate cl s pnum (randomInum isFile r₁ r₂) fname) ∧
      ∀ success : EntryParam → FuseReply, (∀ e x, success e ≠ .err x) →
        ((∀ tr e s', Handles cl s (creating success isFile pnum fname mode r₁ r₂) tr
            (.ret (success e)) s' → KeepsOthers pnum s s') ↔
          s.contents (randomInum isFile r₁ r₂) = none ∨
            ¬ CanCreate cl s pnum (randomInum isFile r₁ r₂) fname) := by
  refine ⟨create_keepsOthers_iff mode hs, fun success hsuccess => ?_⟩
  rw [← create_keepsOthers_iff mode hs]
  constructor
  · intro hall tr s' h
    obtain ⟨tr', e, h'⟩ := (handles_creating_iff hs hsuccess).mpr ⟨cl.stack, cl.finum, tr, h⟩
    exact hall tr' e s' h'
  · intro hall tr e s' h
    obtain ⟨stack, finum, tr', h'⟩ := (handles_creating_iff hs hsuccess).mp ⟨tr, e, h⟩
    refine (create_keepsOthers_iff mode hs).mpr ?_ tr' s' h'
    rw [canCreate_stack]
    exact (create_keepsOthers_iff mode hs).mp hall

end Frame

/-- On a server that has only its root directory no drawn file number is in use. -/
theorem create_frame_fresh :
    (ExtentServer.init 0 0 0).SameKeys ∧
      ∀ tr s', Prog.Alone serve ∅ (ExtentServer.init 0 0 0)
        ((⟨3, [], 3, 3, default, 0⟩ : YfsClient).create 1 (randomInum true 0 5) [97] 0o644) tr
        (.ret ⟨.OK, .untouched⟩) s' → KeepsOthers 1 (ExtentServer.init 0 0 0) s' := by
  have hs := ExtentServer.sameKeys_init 0 0 0
  exact ⟨hs, (create_frame_iff hs ⟨3, [], 3, 3, default, 0⟩ 1 [97] 0o644 true 0 5).1.mpr
    (.inl (by decide))⟩

/-- A server with a file that holds three bytes; `rand` draws its number again. -/
theorem create_overwrites :
    ¬ ∀ (s : ExtentServer) (cl : YfsClient) (pnum : Inum) (fname : Str) (mode : UInt32) (isFile : Bool)
        (r₁ r₂ : UInt32) (tr : List (ExtentCall × Resp)) (s' : ExtentServer), s.SameKeys →
      Prog.Alone serve ∅ s (cl.create pnum (randomInum isFile r₁ r₂) fname mode) tr
        (.ret ⟨.OK, .untouched⟩) s' → KeepsOthers pnum s s' := by
  intro hall
  let s := (ExtentServer.replay (ExtentServer.init 0 0 0)
    [(default, .put 0x80000005 [1, 2, 3] 3 [])]).2
  let cl : YfsClient := ⟨3, [], 3, 3, default, 0⟩
  have hs : s.SameKeys := ExtentServer.Run.sameKeys ⟨0, 0, 0, ExtentServer.trace_replay _ _⟩
  have hsolo : ((cl.create 1 (randomInum true 0 5) [97] 0o644).solo serve ∅ s
      (List.replicate 5 default)).map (fun x => (x.2.1, x.2.2.contents 0x80000005)) =
      some (.ret ⟨.OK, .untouched⟩, some []) := by decide
  obtain ⟨⟨tr, o, s'⟩, hrun, he⟩ := Option.map_eq_some_iff.1 hsolo
  obtain ⟨rfl, hcontents⟩ := Prod.mk.inj he
  have hbefore : s.contents 0x80000005 = some [1, 2, 3] := by decide
  refine hall s cl 1 [97] 0o644 true 0 5 tr s' hs (Prog.alone_of_solo _ hrun) 0x80000005 (by decide)
    (by rw [hbefore]; simp) (.inl ?_)
  rw [hbefore, hcontents]
  decide

end Fuse
