/-
# Directories over whole runs

Calls of `create` and `unlink` on one directory, made one after another by any clients, each run to
its end against the extent server, with every extent call returning `OK`.  A call is an event of the
history; `live` reads the entries off the history.

`directory_run`: after every run the directory extent holds exactly the string of the live entries,
and `readdir`, `lookup` and `unlink` do with it what they should (`Shows`).

A `create` whose file number is the directory's own blocks on its own lock for ever, so it is no event
of a run.
-/
import Yfs.Directory
import Yfs.ExtentAccess

open YfsClient

/-! ## Successful extent calls -/

/-- What a successful call does to the contents of the extents. -/
def ExtentCall.effect (c : ExtentCall) (contents : StdMap ExtentId Str) : StdMap ExtentId Str :=
  match c.op with
  | .put buf => contents.set c.id buf
  | .remove => contents.erase c.id
  | _ => contents

theorem serve_contents {env : Env} {c : ExtentCall} {s : ExtentServer}
    (h : (serve env c s).1.Is .OK) : (serve env c s).2.contents = c.effect s.contents := by
  obtain ⟨op, id, userid, userkey⟩ := c
  cases op with
  | put buf =>
    replace h : (s.put env id buf userid userkey).1.status = .OK := h
    show (s.put env id buf userid userkey).2.contents = s.contents.set id buf
    rw [ExtentServer.put_eq] at h ⊢
    obtain ⟨t, ht, ⟨-, heq⟩ | ⟨-, heq⟩⟩ :=
      ExtentServer.guarded_spec ExtentServer.writeBits id userid userkey s _
    · rw [heq] at h
      cases h
    · rw [heq, ht.contents]
  | get =>
    replace h : (s.get env id userid userkey).1.status = .OK := h
    show (s.get env id userid userkey).2.contents = s.contents
    rw [ExtentServer.get_eq] at h ⊢
    obtain ⟨buf, hbuf, heq⟩ := ExtentServer.guarded_contents h
    rw [heq, ← hbuf, Function.update_eq_self]
  | getattr =>
    show (s.getattr id).2.contents = s.contents
    rw [ExtentServer.getattr]
    cases s.contents id <;> rfl
  | setattr a =>
    replace h : (s.setattr id a userid userkey).1.status = .OK := h
    show (s.setattr id a userid userkey).2.contents = s.contents
    rw [ExtentServer.setattr_eq] at h ⊢
    obtain ⟨buf, hbuf, heq⟩ := ExtentServer.guarded_contents h
    rw [heq, ← hbuf, Function.update_eq_self]
  | remove =>
    replace h : (s.remove id userid userkey).1.status = .OK := h
    show (s.remove id userid userkey).2.contents = s.contents.erase id
    rw [ExtentServer.remove_eq] at h ⊢
    obtain ⟨buf, -, heq⟩ := ExtentServer.guarded_contents h
    exact heq

/-- A `get` is refused, finds nothing, or returns the contents. -/
theorem serve_get (env : Env) (id : ExtentId) (userid : UserId) (userkey : Str)
    (s : ExtentServer) :
    (serve env ⟨.get, id, userid, userkey⟩ s).1.Is .NOACCESS ∨
      (serve env ⟨.get, id, userid, userkey⟩ s).1.Is .NOENT ∨
      (serve env ⟨.get, id, userid, userkey⟩ s).1.Is .OK ∧
        s.contents id = some ((serve env ⟨.get, id, userid, userkey⟩ s).1.bufOr []) := by
  have hserve : (serve env ⟨.get, id, userid, userkey⟩ s).1 =
      .reply (s.get env id userid userkey).1 := rfl
  rw [hserve, ExtentServer.get_eq]
  obtain ⟨t, -, ⟨-, heq⟩ | ⟨-, ⟨-, heq⟩ | ⟨buf, hbuf, heq⟩⟩⟩ :=
    ExtentServer.guarded_ifContents_spec ExtentServer.readBits id userid userkey s
      (fun buf => ⟨.OK, buf, default⟩)
      (fun a buf => (some { a.getD default with atime := env.time }, some buf))
  · left
    rw [heq]
    rfl
  · right; left
    rw [heq]
    rfl
  · right; right
    rw [heq]
    exact ⟨rfl, hbuf⟩

/-- The server's answer to `getattr` on an existing extent. -/
theorem serve_getattr {s : ExtentServer} {id : ExtentId} {a : Attr} {buf : Str} (env : Env)
    (ha : s.attrs id = some a) (hbuf : s.contents id = some buf) (userid : UserId) (userkey : Str) :
    serve env ⟨.getattr, id, userid, userkey⟩ s = (.reply ⟨.OK, [], a⟩, s) := by
  simp only [serve, ExtentCall.toCall, ExtentServer.exec, ExtentServer.getattr, hbuf,
    StdMap.get_of_some ha, StdMap.touch_of_some ha]

/-- Every call returned `OK`. -/
def Succeeds (tr : List (ExtentCall × Resp)) : Prop := ∀ x ∈ tr, x.2.Is .OK

/-- One call of `yfs_client`, run to its end with nobody else around and with every extent call
succeeding. -/
def Performs (cl : YfsClient) (c : FsCall) (s : ExtentServer) (o : Outcome FsReply)
    (s' : ExtentServer) : Prop :=
  ∃ tr, Prog.Alone serve ∅ s (c.prog cl) tr o s' ∧ Succeeds tr

/-- The call, run in the environments `es`: how it ends and the state it leaves; `none` when an extent
call does not succeed. -/
def perform (es : List Env) (cl : YfsClient) (c : FsCall) (s : ExtentServer) :
    Option (Outcome FsReply × ExtentServer) :=
  ((c.prog cl).solo serve ∅ s es).bind (fun x =>
    if x.1.all (fun y => decide (y.2.Is .OK)) then some x.2 else none)

theorem performs_of_perform {es : List Env} {cl : YfsClient} {c : FsCall} {s s' : ExtentServer}
    {o : Outcome FsReply} (h : perform es cl c s = some (o, s')) : Performs cl c s o s' := by
  obtain ⟨⟨tr, x⟩, hsolo, h⟩ := Option.bind_eq_some_iff.1 h
  split_ifs at h with hall
  obtain rfl := Option.some.inj h
  exact ⟨tr, Prog.alone_of_solo es hsolo, fun y hy => by simpa using List.all_eq_true.1 hall y hy⟩

section Calls

variable {cl : YfsClient} {held : Finset ExtentId} {s s' : ExtentServer}
  {tr : List (ExtentCall × Resp)} {a : Outcome FsReply}

/-- The first call of a run in which every call succeeds. -/
theorem alone_ec_ok {op : ExtentOp} {id : ExtentId} {k : Resp → FsProg}
    (h : Prog.Alone serve held s (cl.ec op id k) tr a s') (hok : Succeeds tr) :
    ∃ r s₁ tr', r.Is .OK ∧ (op = .get → s.contents id = some (r.bufOr [])) ∧
      s₁.contents = (⟨op, id, cl.userid, cl.userkey⟩ : ExtentCall).effect s.contents ∧
      tr = (⟨op, id, cl.userid, cl.userkey⟩, r) :: tr' ∧
      Prog.Alone serve held s₁ (k r) tr' a s' ∧ Succeeds tr' := by
  obtain ⟨env, tr', rfl, ht⟩ := Prog.alone_call.1 h
  have hr := hok _ (List.mem_cons_self ..)
  refine ⟨_, _, tr', hr, ?_, serve_contents hr, rfl, ht, fun x hx => hok x (by simp [hx])⟩
  rintro rfl
  rcases serve_get env id cl.userid cl.userkey s with hna | hne | ⟨-, hbuf⟩
  · simpa using hr.eq hna
  · simpa using hr.eq hne
  · exact hbuf

/-- A write whose status is compared with `NOACCESS`. -/
theorem alone_write_ok {op : ExtentOp} {id : ExtentId} {k : FsProg}
    (h : Prog.Alone serve held s (cl.ec op id (fun r =>
      if r.Is .NOACCESS then done .NOACCESS else k)) tr a s') (hok : Succeeds tr) :
    ∃ r s₁ tr', s₁.contents = (⟨op, id, cl.userid, cl.userkey⟩ : ExtentCall).effect s.contents ∧
      tr = (⟨op, id, cl.userid, cl.userkey⟩, r) :: tr' ∧
      Prog.Alone serve held s₁ k tr' a s' ∧ Succeeds tr' := by
  obtain ⟨r, s₁, tr', hr, -, hs, rfl, ht, hok⟩ := alone_ec_ok h hok
  rw [if_neg (fun hna => by simpa using hr.eq hna)] at ht
  exact ⟨r, s₁, tr', hs, rfl, ht, hok⟩

/-- The `get` an operation on a directory starts with. -/
theorem alone_get_ok {id : ExtentId} {text : Str} {p q : FsProg} (rest : Str → FsProg)
    (htext : s.contents id = some text)
    (h : Prog.Alone serve held s (cl.ec .get id (fun r =>
      if r.Is .NOENT then p else if r.Is .NOACCESS then q else rest (r.bufOr []))) tr a s')
    (hok : Succeeds tr) :
    ∃ r s₁ tr', s₁.contents = s.contents ∧ tr = (⟨.get, id, cl.userid, cl.userkey⟩, r) :: tr' ∧
      Prog.Alone serve held s₁ (rest text) tr' a s' ∧ Succeeds tr' := by
  obtain ⟨r, s₁, tr', hr, hbuf, hs, rfl, ht, hok⟩ := alone_ec_ok h hok
  rw [if_neg (fun hne => by simpa using hr.eq hne), if_neg (fun hna => by simpa using hr.eq hna),
    show r.bufOr [] = text from Option.some.inj ((hbuf rfl).symm.trans htext)] at ht
  exact ⟨r, s₁, tr', hs, rfl, ht, hok⟩

end Calls

/-! ## The operations on a directory -/

section Operations

variable {cl : YfsClient} {pnum : Inum} {d : Directory} {s s' : ExtentServer}
  {tr : List (ExtentCall × Resp)} {a : Outcome FsReply}

theorem readdir_ok (htext : s.contents pnum = some d.text)
    (h : Prog.Alone serve ∅ s (cl.readdir pnum) tr a s') (hok : Succeeds tr) :
    a = .ret ⟨.OK, .dirents d.entries⟩ := by
  rw [readdir, Prog.alone_withLock] at h
  obtain ⟨r, s₁, tr', -, rfl, h, -⟩ := alone_get_ok cl.readdirIn htext h.2 hok
  rw [d.readdirIn_text] at h
  exact (Prog.alone_ret.1 h).2.1

theorem lookup_ok (htext : s.contents pnum = some d.text) {e : Dirent} (he : e ∈ d.entries)
    (h : Prog.Alone serve ∅ s (cl.lookup pnum e.name) tr a s') (hok : Succeeds tr) :
    a = .ret ⟨.OK, .fnum e.inum⟩ := by
  rw [lookup, Prog.alone_withLock] at h
  obtain ⟨r, s₁, tr', -, rfl, h, -⟩ := alone_get_ok (cl.lookupIn e.name) htext h.2 hok
  rw [d.lookupIn_text cl he] at h
  exact (Prog.alone_ret.1 h).2.1

/-- What `unlink` of a live name does: it calls `get`, `put` and `remove`, the last one on the number
of the entry. -/
theorem unlink_ok (htext : s.contents pnum = some d.text) {e : Dirent} (he : e ∈ d.entries)
    (h : Prog.Alone serve ∅ s (cl.unlink pnum e.name) tr a s') (hok : Succeeds tr) :
    a = .ret ⟨.OK, .untouched⟩ ∧
      tr.map (fun x => (x.1.op, x.1.id)) =
        [(.get, pnum), (.put (d.remove e.name).text, pnum), (.remove, e.inum)] ∧
      e.inum ≠ pnum ∧
      s'.contents = (s.contents.set pnum (d.remove e.name).text).erase e.inum := by
  rw [unlink, Prog.alone_withLock] at h
  obtain ⟨r₁, s₁, tr₁, hs₁, rfl, h, hok⟩ := alone_get_ok (cl.unlinkIn pnum e.name) htext h.2 hok
  rw [d.unlinkIn_text cl he] at h
  obtain ⟨r₂, s₂, tr₂, hs₂, rfl, h, hok⟩ := alone_write_ok h hok
  -- the guard of the file's lock: it is not the directory itself
  rw [unlinkFile, Prog.alone_withLock] at h
  obtain ⟨hlock, h⟩ := h
  obtain ⟨r₃, s₃, tr₃, hs₃, rfl, h, -⟩ := alone_write_ok h hok
  obtain ⟨rfl, rfl, rfl⟩ := Prog.alone_ret.1 h
  refine ⟨rfl, rfl, by simpa using hlock, ?_⟩
  rw [hs₃, hs₂, hs₁]
  rfl

/-- What `create` does: it reports `EXIST`, or fails because the string would be too long, or adds the
entry and creates the file. -/
theorem create_ok (htext : s.contents pnum = some d.text) {fnum : Inum} {fname : Str} {mode : UInt32}
    (h : Prog.Alone serve ∅ s (cl.create pnum fnum fname mode) tr a s') (hok : Succeeds tr) :
    fnum ≠ pnum ∧
      ((a ≠ .ret ⟨.OK, .untouched⟩ ∧ s'.contents = s.contents) ∨
        (a = .ret ⟨.OK, .untouched⟩ ∧ ¬ fname <:+: d.text ∧
          s'.contents = (s.contents.set pnum (d.text ++ entry fname fnum)).set fnum [])) := by
  rw [create, Prog.alone_withLock, Prog.alone_withLock] at h
  obtain ⟨-, hlock, h⟩ := h
  refine ⟨by simpa using hlock, ?_⟩
  obtain ⟨r₁, s₁, tr₁, hs₁, rfl, h, hok⟩ := alone_get_ok (cl.createIn pnum fnum fname mode) htext h hok
  unfold createIn at h
  split_ifs at h with hfind
  · obtain ⟨rfl, rfl, rfl⟩ := Prog.alone_ret.1 h
    exact .inl ⟨by simp, hs₁⟩
  · rw [not_not, StdString.find_eq_none_iff] at hfind
    rw [StdString.append] at h
    split_ifs at h with hlen
    · -- the directory, the empty file, its attributes
      obtain ⟨r₂, s₂, tr₂, hs₂, rfl, h, hok⟩ := alone_write_ok h hok
      obtain ⟨r₃, s₃, tr₃, hs₃, rfl, h, hok⟩ := alone_write_ok h hok
      obtain ⟨r₄, s₄, tr₄, -, -, hs₄, rfl, h, hok⟩ := alone_ec_ok h hok
      obtain ⟨r₅, s₅, tr₅, hs₅, rfl, h, -⟩ := alone_write_ok h hok
      obtain ⟨rfl, rfl, rfl⟩ := Prog.alone_ret.1 h
      refine .inr ⟨rfl, hfind, ?_⟩
      rw [hs₅]
      show s₄.contents = _
      rw [hs₄]
      show s₃.contents = _
      rw [hs₃, hs₂, hs₁]
      rfl
    · obtain ⟨rfl, rfl, rfl⟩ := Prog.alone_ret.1 h
      exact .inl ⟨by simp, hs₁⟩

end Operations

/-! ## The operations return -/

section Returns

variable {cl : YfsClient} {held : Finset ExtentId} {s : ExtentServer}

/-- Run alone, the program comes to its end. -/
def Returns (held : Finset ExtentId) (s : ExtentServer) (p : FsProg) : Prop :=
  ∃ tr a s', Prog.Alone serve held s p tr a s'

theorem returns_ret (o : Outcome FsReply) : Returns held s (.ret o) :=
  ⟨[], o, s, .ret o⟩

theorem returns_withLock {i : ExtentId} {p : FsProg} (hi : i ∉ held)
    (h : Returns (insert i held) s p) : Returns held s (.withLock i p) := by
  obtain ⟨tr, a, s', h⟩ := h
  exact ⟨tr, a, s', Prog.alone_withLock.2 ⟨hi, h⟩⟩

theorem returns_ec {op : ExtentOp} {id : ExtentId} {k : Resp → FsProg}
    (h : ∀ env, Returns held (serve env ⟨op, id, cl.userid, cl.userkey⟩ s).2
      (k (serve env ⟨op, id, cl.userid, cl.userkey⟩ s).1)) : Returns held s (cl.ec op id k) := by
  obtain ⟨tr, a, s', h⟩ := h default
  exact ⟨_, a, s', .call default h⟩

variable {pnum : Inum} {d : Directory}

theorem returns_readdir : Returns ∅ s (cl.readdir pnum) := by
  refine returns_withLock (by simp) (returns_ec ?_)
  intro env
  split_ifs
  · exact returns_ret _
  · exact returns_ret _
  · split <;> exact returns_ret _

theorem returns_lookup {fname : Str} : Returns ∅ s (cl.lookup pnum fname) := by
  refine returns_withLock (by simp) (returns_ec ?_)
  intro env
  split_ifs
  · exact returns_ret _
  · exact returns_ret _
  · split <;> exact returns_ret _

/-- `unlink` comes to its end unless the number after the name is the directory's own. -/
theorem returns_unlink_of {buf fname : Str} (hbuf : s.contents pnum = some buf)
    (hne : ∀ num rest, after fname (StdString.split slash buf) = some (num :: rest) →
      cl.n2i num ≠ pnum) : Returns ∅ s (cl.unlink pnum fname) := by
  refine returns_withLock (by simp) (returns_ec ?_)
  intro env
  split_ifs with hnoent hnoaccess
  · exact returns_ret _
  · exact returns_ret _
  · have hresp : (serve env ⟨.get, pnum, cl.userid, cl.userkey⟩ s).1.bufOr [] = buf := by
      rcases serve_get env pnum cl.userid cl.userkey s with h | h | ⟨-, h⟩
      · exact absurd h hnoaccess
      · exact absurd h hnoent
      · exact Option.some.inj (h.symm.trans hbuf)
    rw [hresp]
    split
    · exact returns_ret _
    · exact returns_ret _
    · next num rest hafter =>
      split
      · exact returns_ret _
      · refine returns_ec ?_
        intro env
        split_ifs
        · exact returns_ret _
        · refine returns_withLock (by simpa using hne num rest hafter) (returns_ec ?_)
          intro env
          split_ifs <;> exact returns_ret _

theorem returns_unlink (htext : s.contents pnum = some d.text) {e : Dirent} (he : e ∈ d.entries)
    (hne : e.inum ≠ pnum) : Returns ∅ s (cl.unlink pnum e.name) := by
  obtain ⟨rest, hafter⟩ := d.after_text he
  apply returns_unlink_of htext
  intro num rest' h
  rw [hafter, Option.some.injEq, List.cons.injEq] at h
  rw [← h.1, n2i_filename]
  exact hne

end Returns

/-! ## Runs -/

/-- A call in a history and how it ended. -/
structure DirEvent where
  client : YfsClient
  call : FsCall
  outcome : Outcome FsReply

/-- What `readdir` would list. -/
def listing (cl : YfsClient) (s : ExtentServer) (pnum : Inum) : Option (List Dirent) :=
  (s.contents pnum).bind (fun buf => cl.pairs (StdString.split slash buf))

/-- The calls a run is made of: `create` of any non-empty name without a slash, and `unlink` of a name
that is listed at this moment. -/
def DirEvent.Allowed (pnum : Inum) (s : ExtentServer) (e : DirEvent) : Prop :=
  match e.call with
  | .create p _ fname _ => p = pnum ∧ fname ≠ [] ∧ slash ∉ fname
  | .unlink p fname =>
    p = pnum ∧ ∃ es, listing e.client s pnum = some es ∧ fname ∈ es.map Dirent.name
  | _ => False

/-- One call, run to its end, with every extent call succeeding. -/
def DirStep (pnum : Inum) (s : ExtentServer) (e : DirEvent) (s' : ExtentServer) : Prop :=
  e.Allowed pnum s ∧
    ∃ tr, Prog.Alone serve ∅ s (e.call.prog e.client) tr e.outcome s' ∧ Succeeds tr

/-- The entries after one more event: a `create` that returned `OK` adds one, an `unlink` that
returned `OK` removes one. -/
def DirEvent.update (es : List Dirent) (e : DirEvent) : List Dirent :=
  if e.outcome = .ret ⟨.OK, .untouched⟩ then
    match e.call with
    | .create _ fnum fname _ => es ++ [⟨fname, fnum⟩]
    | .unlink _ fname => es.filter (fun x => x.name ≠ fname)
    | _ => es
  else es

/-- The live entries after a history, in the order of their creation. -/
def live (h : List DirEvent) : List Dirent := h.foldl DirEvent.update []

/-- `p` returns, and when all its extent calls succeed, then with `Q`. -/
def Yields (s : ExtentServer) (p : FsProg)
    (Q : List (ExtentCall × Resp) → Outcome FsReply → ExtentServer → Prop) : Prop :=
  Returns ∅ s p ∧ ∀ tr a s', Prog.Alone serve ∅ s p tr a s' → Succeeds tr → Q tr a s'

/-- **The extent `pnum` shows the entries `es`**: it holds exactly their string, no two have the same
name, and the client's operations see and change exactly these entries. -/
structure Shows (pnum : Inum) (es : List Dirent) (s : ExtentServer) : Prop where
  text : s.contents pnum = some (render es)
  distinct : (es.map Dirent.name).Nodup
  readdir : ∀ cl : YfsClient, Yields s (cl.readdir pnum) (fun _ a _ =>
    a = .ret ⟨.OK, .dirents es⟩)
  lookup : ∀ (cl : YfsClient), ∀ e ∈ es, Yields s (cl.lookup pnum e.name) (fun _ a _ =>
    a = .ret ⟨.OK, .fnum e.inum⟩)
  unlink : ∀ (cl : YfsClient), ∀ e ∈ es, Yields s (cl.unlink pnum e.name) (fun tr a s' =>
    a = .ret ⟨.OK, .untouched⟩ ∧
      tr.map (fun x => (x.1.op, x.1.id)) =
        [(.get, pnum), (.put (render (es.filter (fun x => x.name ≠ e.name))), pnum),
          (.remove, e.inum)] ∧
      s'.contents =
        (s.contents.set pnum (render (es.filter (fun x => x.name ≠ e.name)))).erase e.inum)

/-- The invariant of a run: the extent holds a `Directory`, and no entry is the directory itself. -/
def Holds (pnum : Inum) (es : List Dirent) (s : ExtentServer) : Prop :=
  ∃ d : Directory, d.entries = es ∧ s.contents pnum = some d.text ∧ ∀ e ∈ es, e.inum ≠ pnum

theorem Holds.shows {pnum : Inum} {es : List Dirent} {s : ExtentServer} (h : Holds pnum es s) :
    Shows pnum es s := by
  obtain ⟨d, rfl, htext, hne⟩ := h
  refine ⟨htext, d.nodup_names, ?_, ?_, ?_⟩
  · intro cl
    exact ⟨returns_readdir, fun tr a s' h hok => readdir_ok htext h hok⟩
  · intro cl e he
    exact ⟨returns_lookup, fun tr a s' h hok => lookup_ok htext he h hok⟩
  · intro cl e he
    refine ⟨returns_unlink htext he (hne e he), ?_⟩
    intro tr a s' h hok
    obtain ⟨ha, htr, -, hs⟩ := unlink_ok htext he h hok
    exact ⟨ha, htr, hs⟩

/-- **One call keeps the invariant.** -/
theorem Holds.step {pnum : Inum} {es : List Dirent} {s s' : ExtentServer} {e : DirEvent}
    (h : Holds pnum es s) (hs : DirStep pnum s e s') : Holds pnum (e.update es) s' := by
  obtain ⟨d, rfl, htext, hne⟩ := h
  obtain ⟨hallow, tr, halone, hok⟩ := hs
  obtain ⟨cl, call, outcome⟩ := e
  cases call with
  | create p fnum fname mode =>
    obtain ⟨rfl, hname, hslash⟩ := hallow
    obtain ⟨hfp, ⟨hout, hcontents⟩ | ⟨hout, hnew, hcontents⟩⟩ := create_ok htext halone hok
    · rw [DirEvent.update, if_neg hout]
      exact ⟨d, rfl, by rw [hcontents, htext], hne⟩
    · rw [DirEvent.update, if_pos hout]
      refine ⟨d.add ⟨fname, fnum⟩ hname hslash hnew, rfl, ?_, ?_⟩
      · rw [hcontents, StdMap.set_of_ne _ _ hfp.symm, StdMap.set_self, Directory.add_text]
      · intro x hx
        rcases List.mem_append.1 hx with hx | hx
        · exact hne x hx
        · obtain rfl := List.mem_singleton.1 hx
          exact hfp
  | unlink p fname =>
    obtain ⟨rfl, es, hlist, hmem⟩ := hallow
    -- a listed name is a live one
    have hes : es = d.entries := by
      rw [listing, htext, Option.bind_some, d.pairs_text] at hlist
      exact (Option.some.inj hlist).symm
    subst hes
    obtain ⟨e, he, rfl⟩ := List.mem_map.1 hmem
    obtain ⟨hout, -, hep, hcontents⟩ := unlink_ok htext he halone hok
    rw [DirEvent.update, if_pos hout]
    refine ⟨d.remove e.name, rfl, ?_, ?_⟩
    · rw [hcontents, StdMap.erase_of_ne _ hep.symm, StdMap.set_self]
    · intro x hx
      exact hne x (List.mem_of_mem_filter hx)
  | _ => exact hallow.elim

/-- The invariant over whole runs. -/
theorem Holds.run {pnum : Inum} {s₀ s : ExtentServer} {h : List DirEvent}
    (hempty : s₀.contents pnum = some []) (hrun : Trace (DirStep pnum) s₀ h s) :
    Holds pnum (live h) s := by
  refine Trace.history (I := fun h s => Holds pnum (live h) s) ?_ ?_ hrun
  · exact ⟨Directory.empty, rfl, hempty, by simp [live]⟩
  · intro t s e s' hinv hs
    rw [live, List.foldl_append]
    exact hinv.step hs

/-- **The directory representation over whole runs.**  After any calls of `create` (any non-empty
names without a slash, any file numbers) and of `unlink` on listed names, all their extent calls
succeeding, the directory that was empty before shows exactly the live entries. -/
theorem directory_run (pnum : Inum) (s₀ s : ExtentServer) (h : List DirEvent)
    (hempty : s₀.contents pnum = some []) (hrun : Trace (DirStep pnum) s₀ h s) :
    Shows pnum (live h) s :=
  (Holds.run hempty hrun).shows

/-- The run with one `create` in the root directory of a fresh server. -/
theorem directory_run_create :
    ∃ (s : ExtentServer) (cl : YfsClient), Trace (DirStep 1) (ExtentServer.init 0 0 0)
        [⟨cl, .create 1 5 [97] 0o644, .ret ⟨.OK, .untouched⟩⟩] s ∧
      Shows 1 [⟨[97], 5⟩] s := by
  let cl : YfsClient := ⟨3, [], 3, 3, default, 0⟩
  have hsolo : ((cl.create 1 5 [97] 0o644).solo serve ∅ (ExtentServer.init 0 0 0)
      (List.replicate 5 default)).map (fun x => (x.1.all (fun y => decide (y.2.Is .OK)), x.2.1)) =
      some (true, .ret ⟨.OK, .untouched⟩) := by decide
  obtain ⟨⟨tr, a, s⟩, hrun, he⟩ := Option.map_eq_some_iff.1 hsolo
  obtain ⟨hall, rfl⟩ := Prod.mk.inj he
  have hok : Succeeds tr := by
    intro x hx
    simpa using List.all_eq_true.1 hall x hx
  have htrace : Trace (DirStep 1) (ExtentServer.init 0 0 0)
      [⟨cl, .create 1 5 [97] 0o644, .ret ⟨.OK, .untouched⟩⟩] s :=
    Trace.single ⟨⟨rfl, by decide, by decide⟩, tr, Prog.alone_of_solo _ hrun, hok⟩
  exact ⟨s, cl, htrace, directory_run 1 _ s _ rfl htrace⟩
