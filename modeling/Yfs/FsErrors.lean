/-
# What file system operations do when an extent call fails

The operations that write (`create`, `unlink`, `write`, `truncate`, `chmod`, `chuid`, `chgid`) compare
the status of an extent call with the one or two codes they expect and take every other status for a
success; a failure of the RPC layer is never looked for.  `Careful` is what a caller would want:
nothing is written after a call that did not return `OK`, and `OK` is returned only when all calls
did.  `careful_iff` says exactly for which responses an operation is careful.

The responses are arbitrary: a `Transcript` records the calls an operation makes when it gets them.
-/
import Yfs.YfsClient

/-- The call changes the store. -/
def ExtentOp.mutates : ExtentOp → Bool
  | put _ => true
  | setattr _ => true
  | remove => true
  | get => false
  | getattr => false

/-- **No destructive write, no false success.**  The transcript `tr` of an operation that ended with
`a` has a `put`, `setattr` or `remove` only after calls that returned `OK`, and the operation returns
`OK` only when all calls did. -/
structure Careful (tr : List (ExtentCall × Resp)) (a : Outcome FsReply) : Prop where
  writes : ∀ pre c r post, tr = pre ++ (c, r) :: post → c.op.mutates = true →
    ∀ x ∈ pre, x.2.Is .OK
  success : ∀ out, a = .ret ⟨.OK, out⟩ → ∀ x ∈ tr, x.2.Is .OK

/-- Nothing is written and `OK` is not returned. -/
def Quiet (tr : List (ExtentCall × Resp)) (a : Outcome FsReply) : Prop :=
  (∀ x ∈ tr, x.1.op.mutates = false) ∧ ∀ out, a ≠ .ret ⟨.OK, out⟩

@[simp] theorem careful_nil (a : Outcome FsReply) : Careful [] a := by
  constructor
  · intro pre c r post h
    simp at h
  · intro out _ x hx
    simp at hx

/-- A call that returned `OK` leaves the rest to be careful. -/
theorem careful_cons_ok {c : ExtentCall} {r : Resp} {tr : List (ExtentCall × Resp)}
    {a : Outcome FsReply} (hr : r.Is .OK) : Careful ((c, r) :: tr) a ↔ Careful tr a := by
  constructor
  · intro h
    constructor
    · intro pre c' r' post he hm x hx
      exact h.writes ((c, r) :: pre) c' r' post (by rw [he]; rfl) hm x (by simp [hx])
    · intro out ha x hx
      exact h.success out ha x (by simp [hx])
  · intro h
    constructor
    · intro pre c' r' post he hm x hx
      cases pre with
      | nil => simp at hx
      | cons y pre =>
        obtain ⟨rfl, htr⟩ := List.cons.inj he
        rcases List.mem_cons.1 hx with rfl | hx
        · exact hr
        · exact h.writes pre c' r' post htr hm x hx
    · intro out ha x hx
      rcases List.mem_cons.1 hx with rfl | hx
      · exact hr
      · exact h.success out ha x hx

/-- After a call that did not return `OK` the rest must be quiet. -/
theorem careful_cons_not_ok {c : ExtentCall} {r : Resp} {tr : List (ExtentCall × Resp)}
    {a : Outcome FsReply} (hr : ¬ r.Is .OK) : Careful ((c, r) :: tr) a ↔ Quiet tr a := by
  constructor
  · intro h
    constructor
    · rintro ⟨c', r'⟩ hx
      obtain ⟨pre, post, rfl⟩ := List.append_of_mem hx
      rw [← Bool.not_eq_true]
      intro hm
      exact hr (h.writes ((c, r) :: pre) c' r' post rfl hm (c, r) (by simp))
    · intro out ha
      exact hr (h.success out ha (c, r) (by simp))
  · rintro ⟨hq, ha⟩
    constructor
    · intro pre c' r' post he hm x hx
      cases pre with
      | nil => simp at hx
      | cons y pre =>
        obtain ⟨-, rfl⟩ := List.cons.inj he
        have hf := hq (c', r') (by simp)
        simp [hm] at hf
    · intro out hout
      exact absurd hout (ha out)

/-! ## The exact condition -/

/-- The operation ends after its `get` has left `buf` in the out-parameter, without another call. -/
def FsCall.Stops : FsCall → Str → Prop
  | .create _ fnum fname _, buf =>
    StdString.find buf fname ≠ none ∨ StdString.append buf (YfsClient.entry fname fnum) = none
  | .unlink _ fname, buf =>
    match YfsClient.after fname (StdString.split YfsClient.slash buf) with
    | none => True
    | some [] => True
    | some (num :: _) => YfsClient.eraseEntry buf fname num = none
  | .write _ off s, buf => YfsClient.writeContent buf off s = none
  | .truncate _ size, buf => YfsClient.truncateContent buf size = none
  | _, _ => False

/-- The operations that write. -/
def FsCall.Modifies : FsCall → Prop
  | .create .. | .unlink .. | .write .. | .truncate .. | .chmod .. | .chuid .. | .chgid .. => True
  | _ => False

/-- The operation looks at its `getattr` for `NOENT`; `create` does not look at it at all. -/
def FsCall.ChecksAttr : FsCall → Prop
  | .create .. => False
  | _ => True

/-- The operation handles the response `x.2` to its call `x.1`. -/
def FsCall.Handles (op : FsCall) (x : ExtentCall × Resp) : Prop :=
  match x.1.op with
  | .get => x.2.Is .OK ∨ x.2.Is .NOENT ∨ x.2.Is .NOACCESS ∨ op.Stops (x.2.bufOr [])
  | .getattr => x.2.Is .OK ∨ (op.ChecksAttr ∧ x.2.Is .NOENT)
  | .put _ | .setattr _ | .remove => x.2.Is .OK ∨ x.2.Is .NOACCESS

/-! ## Pieces of programs -/

section Pieces

variable {op : FsCall} {cl : YfsClient}

/-- The piece `p` of the operation `op` is careful exactly when its responses are handled, and it
writes or returns `OK` whatever they are. -/
def Settled (op : FsCall) (p : FsProg) : Prop :=
  ∀ tr a, p.Transcript tr a → (Careful tr a ↔ ∀ x ∈ tr, op.Handles x) ∧ ¬ Quiet tr a

/-- A settled piece after a call: that call must have returned `OK`. -/
theorem Settled.cons {p : FsProg} (h : Settled op p) {c : ExtentCall} {r : Resp}
    {tr : List (ExtentCall × Resp)} {a : Outcome FsReply} (ht : p.Transcript tr a) :
    Careful ((c, r) :: tr) a ↔ r.Is .OK ∧ ∀ x ∈ tr, op.Handles x := by
  obtain ⟨hc, hq⟩ := h tr a ht
  by_cases hok : r.Is .OK
  · rw [careful_cons_ok hok, hc]
    simp [hok]
  · rw [careful_cons_not_ok hok]
    simp [hok, hq]

/-- `return OK`. -/
theorem settled_ok : Settled op (YfsClient.done .OK) := by
  intro tr a h
  obtain ⟨rfl, rfl⟩ := Prog.transcript_ret.1 h
  simp [Quiet]

/-- A call after which the operation goes on with `k r`: it handles exactly the responses `OK`. -/
theorem settled_call {eop : ExtentOp} {id : ExtentId} {k : Resp → FsProg}
    (hh : ∀ r, op.Handles (⟨eop, id, cl.userid, cl.userkey⟩, r) ↔ r.Is .OK)
    (hk : ∀ r, Settled op (k r)) : Settled op (cl.ec eop id k) := by
  intro tr a h
  obtain ⟨r, tr, rfl, ht⟩ := Prog.transcript_call.1 h
  constructor
  · rw [List.forall_mem_cons, hh]
    exact (hk r).cons ht
  · intro hq
    exact (hk r tr a ht).2 ⟨fun x hx => hq.1 x (by simp [hx]), hq.2⟩

/-- A write whose status is compared with `NOACCESS`. -/
theorem settled_write {eop : ExtentOp} {id : ExtentId} {k : FsProg} (hm : eop.mutates = true)
    (hk : Settled op k) :
    Settled op (cl.ec eop id (fun r =>
      if r.Is .NOACCESS then YfsClient.done .NOACCESS else k)) := by
  intro tr a h
  obtain ⟨r, tr, rfl, ht⟩ := Prog.transcript_call.1 h
  have hh : op.Handles (⟨eop, id, cl.userid, cl.userkey⟩, r) ↔ r.Is .OK ∨ r.Is .NOACCESS := by
    cases eop with
    | put | setattr | remove => exact Iff.rfl
    | get | getattr => simp [ExtentOp.mutates] at hm
  constructor
  · rw [List.forall_mem_cons, hh]
    split_ifs at ht with hna
    · obtain ⟨rfl, rfl⟩ := Prog.transcript_ret.1 ht
      have hok : ¬ r.Is .OK := fun hok => by simpa using hok.eq hna
      rw [careful_cons_not_ok hok]
      simp [Quiet, hna]
    · rw [hk.cons ht]
      simp [hna]
  · -- the call itself is a write, so the rest is never quiet
    intro hq
    have hf := hq.1 _ (List.mem_cons_self ..)
    simp [hm] at hf

/-- The `get` every operation on contents starts with.  `rest` is what follows: it ends at once when
the operation stops on the contents. -/
theorem careful_get {id : ExtentId} {st st' : FsStatus} {rest : Resp → FsProg} (hst : st ≠ .OK)
    (hst' : st' ≠ .OK)
    (hstop : ∀ r, op.Stops (r.bufOr []) →
      ∃ o, rest r = .ret o ∧ ∀ out, o ≠ .ret ⟨.OK, out⟩)
    (hgo : ∀ r, ¬ op.Stops (r.bufOr []) → Settled op (rest r))
    {tr : List (ExtentCall × Resp)} {a : Outcome FsReply}
    (h : Prog.Transcript (cl.ec .get id (fun r =>
      if r.Is .NOENT then YfsClient.done st
      else if r.Is .NOACCESS then YfsClient.done st'
      else rest r)) tr a) :
    Careful tr a ↔ ∀ x ∈ tr, op.Handles x := by
  obtain ⟨r, tr, rfl, ht⟩ := Prog.transcript_call.1 h
  have hh : op.Handles (⟨.get, id, cl.userid, cl.userkey⟩, r) ↔
      r.Is .OK ∨ r.Is .NOENT ∨ r.Is .NOACCESS ∨ op.Stops (r.bufOr []) := Iff.rfl
  rw [List.forall_mem_cons, hh]
  split_ifs at ht with hne hna
  · obtain ⟨rfl, rfl⟩ := Prog.transcript_ret.1 ht
    have hok : ¬ r.Is .OK := fun hok => by simpa using hok.eq hne
    rw [careful_cons_not_ok hok]
    simp [Quiet, hne, hst]
  · obtain ⟨rfl, rfl⟩ := Prog.transcript_ret.1 ht
    have hok : ¬ r.Is .OK := fun hok => by simpa using hok.eq hna
    rw [careful_cons_not_ok hok]
    simp [Quiet, hna, hst']
  · -- every other status goes on with what the out-parameter holds
    by_cases hs : op.Stops (r.bufOr [])
    · obtain ⟨o, ho, hout⟩ := hstop r hs
      rw [ho] at ht
      obtain ⟨rfl, rfl⟩ := Prog.transcript_ret.1 ht
      by_cases hok : r.Is .OK
      · rw [careful_cons_ok hok]
        simp [hok]
      · rw [careful_cons_not_ok hok]
        simp [Quiet, hs, hout]
    · rw [(hgo r hs).cons ht]
      simp [hne, hna, hs]

end Pieces

/-! ## The operations -/

section Operations

variable {op : FsCall} {cl : YfsClient} {tr : List (ExtentCall × Resp)} {a : Outcome FsReply}

/-- `write` and `truncate`. -/
theorem careful_modify (num : Inum) (edit : Str → Option Str)
    (hstop : ∀ buf, op.Stops buf ↔ edit buf = none)
    (h : (cl.modify num edit).Transcript tr a) : Careful tr a ↔ ∀ x ∈ tr, op.Handles x := by
  rw [YfsClient.modify, Prog.transcript_withLock] at h
  refine careful_get (by decide) (by decide) ?_ ?_ h
  · intro r hs
    rw [(hstop _).1 hs]
    exact ⟨.throw, rfl, by simp⟩
  · intro r hs
    rw [hstop] at hs
    obtain ⟨content, hc⟩ := Option.ne_none_iff_exists'.1 hs
    rw [hc]
    exact settled_write rfl settled_ok

/-- `chmod`, `chuid` and `chgid`. -/
theorem careful_change (fnum : Inum) (edit : Attr → Attr) (hop : op.ChecksAttr)
    (h : (cl.change fnum edit).Transcript tr a) : Careful tr a ↔ ∀ x ∈ tr, op.Handles x := by
  rw [YfsClient.change, Prog.transcript_withLock] at h
  obtain ⟨r, tr, rfl, ht⟩ := Prog.transcript_call.1 h
  have hh : op.Handles (⟨.getattr, fnum, cl.userid, cl.userkey⟩, r) ↔
      r.Is .OK ∨ (op.ChecksAttr ∧ r.Is .NOENT) := Iff.rfl
  rw [List.forall_mem_cons, hh]
  split_ifs at ht with hne
  · obtain ⟨rfl, rfl⟩ := Prog.transcript_ret.1 ht
    have hok : ¬ r.Is .OK := fun hok => by simpa using hok.eq hne
    rw [careful_cons_not_ok hok]
    simp [Quiet, hne, hop]
  · have hlast : Settled op (cl.ec (.setattr (edit (r.attrOr cl.stack))) fnum (fun r =>
        if r.Is .NOACCESS then YfsClient.done .NOACCESS else YfsClient.done .OK)) :=
      settled_write rfl settled_ok
    rw [hlast.cons ht]
    simp [hne]

theorem careful_create {pnum fnum : Inum} {fname : Str} {mode : UInt32}
    (h : (cl.create pnum fnum fname mode).Transcript tr a) :
    Careful tr a ↔ ∀ x ∈ tr, (FsCall.create pnum fnum fname mode).Handles x := by
  rw [YfsClient.create, Prog.transcript_withLock, Prog.transcript_withLock] at h
  refine careful_get (by decide) (by decide) ?_ ?_ h
  · intro r hs
    by_cases hf : StdString.find (r.bufOr []) fname ≠ none
    · rw [if_pos hf]
      exact ⟨_, rfl, by simp⟩
    · rw [if_neg hf, hs.resolve_left hf]
      exact ⟨.throw, rfl, by simp⟩
  · intro r hs
    obtain ⟨hf, ha⟩ := not_or.1 hs
    obtain ⟨buf, hbuf⟩ := Option.ne_none_iff_exists'.1 ha
    rw [if_neg hf, hbuf]
    -- the two `put`s, the `getattr` whose status is not looked at, the `setattr`
    refine settled_write rfl (settled_write rfl (settled_call ?_ ?_))
    · intro r
      simp [FsCall.Handles, FsCall.ChecksAttr]
    · intro r
      exact settled_write rfl settled_ok

theorem careful_unlink {pnum : Inum} {fname : Str} (h : (cl.unlink pnum fname).Transcript tr a) :
    Careful tr a ↔ ∀ x ∈ tr, (FsCall.unlink pnum fname).Handles x := by
  rw [YfsClient.unlink, Prog.transcript_withLock] at h
  refine careful_get (by decide) (by decide) ?_ ?_ h
  · intro r hs
    rw [FsCall.Stops] at hs
    generalize YfsClient.after fname (StdString.split YfsClient.slash (r.bufOr [])) = toks at hs ⊢
    rcases toks with _ | (_ | ⟨num, _⟩)
    · exact ⟨_, rfl, by simp⟩
    · exact ⟨.undef, rfl, by simp⟩
    · dsimp only at hs ⊢
      rw [hs]
      exact ⟨.throw, rfl, by simp⟩
  · intro r hs
    rw [FsCall.Stops] at hs
    generalize YfsClient.after fname (StdString.split YfsClient.slash (r.bufOr [])) = toks at hs ⊢
    rcases toks with _ | (_ | ⟨num, _⟩)
    · exact absurd trivial hs
    · exact absurd trivial hs
    · dsimp only at hs ⊢
      obtain ⟨buf, hbuf⟩ := Option.ne_none_iff_exists'.1 hs
      rw [hbuf]
      -- the `put` of the directory, then the `remove` under the lock of the file
      refine settled_write rfl ?_
      intro tr a h
      rw [YfsClient.unlinkFile, Prog.transcript_withLock] at h
      exact settled_write rfl settled_ok tr a h

/-- **When an operation that writes is careful**: exactly when it handles each response it gets.  It
handles, of a `get`, `OK`, `NOENT`, `NOACCESS` and whatever leaves it nothing to write; of a `put`,
`setattr` or `remove`, `OK` and `NOACCESS`; of a `getattr`, `OK` and, except in `create`, `NOENT`. -/
theorem careful_iff (cl : YfsClient) (op : FsCall) (hop : op.Modifies)
    (tr : List (ExtentCall × Resp)) (a : Outcome FsReply) (h : (op.prog cl).Transcript tr a) :
    Careful tr a ↔ ∀ x ∈ tr, op.Handles x := by
  cases op with
  | create pnum fnum fname mode => exact careful_create h
  | unlink pnum fname => exact careful_unlink h
  | write num off buf =>
    exact careful_modify num (YfsClient.writeContent · off buf) (fun _ => Iff.rfl) h
  | truncate num size =>
    exact careful_modify num (YfsClient.truncateContent · size) (fun _ => Iff.rfl) h
  | chmod fnum mode =>
    exact careful_change fnum (fun a => { a with mode := mode.toUInt32 }) trivial h
  | chuid fnum uid => exact careful_change fnum (fun a => { a with uid := uid.toUInt32 }) trivial h
  | chgid fnum gid => exact careful_change fnum (fun a => { a with gid := gid.toUInt32 }) trivial h
  | getfile | getdir | lookup | readdir | read => exact hop.elim

end Operations

/-- A `chmod` that is refused: its responses are handled. -/
theorem careful_iff_chmod_refused :
    ∃ tr, ((FsCall.chmod 7 0o600).prog ⟨3, [], 3, 3, default, 0⟩).Transcript tr
        (.ret ⟨.NOACCESS, .untouched⟩) ∧
      (Careful tr (.ret ⟨.NOACCESS, .untouched⟩) ↔
        ∀ x ∈ tr, (FsCall.chmod 7 0o600).Handles x) := by
  have h : ((FsCall.chmod 7 0o600).prog ⟨3, [], 3, 3, default, 0⟩).Transcript
      [(⟨.getattr, 7, 3, []⟩, .reply ⟨.OK, [], default⟩),
        (⟨.setattr { (default : Attr) with mode := 0o600 }, 7, 3, []⟩,
          .reply ⟨.NOACCESS, [], default⟩)]
      (.ret ⟨.NOACCESS, .untouched⟩) := by
    apply Prog.transcript_of_answer
      [.reply ⟨.OK, [], default⟩, .reply ⟨.NOACCESS, [], default⟩]
    decide
  exact ⟨_, h, careful_iff _ (.chmod 7 0o600) trivial _ _ h⟩

/-- **A timed-out `get` overwrites the file**: `write` takes the failure for a success on an empty
file, puts the new bytes as the whole contents and returns `OK`. -/
theorem write_after_timeout :
    ∃ tr, ((FsCall.write 7 0 [65]).prog ⟨3, [], 3, 3, default, 0⟩).Transcript tr
        (.ret ⟨.OK, .untouched⟩) ∧
      tr = [(⟨.get, 7, 3, []⟩, .failed .timeout_failure),
        (⟨.put [65], 7, 3, []⟩, .reply ⟨.OK, [], default⟩)] ∧
      ¬ Careful tr (.ret ⟨.OK, .untouched⟩) := by
  refine ⟨_, ?_, rfl, ?_⟩
  · apply Prog.transcript_of_answer
      [.failed .timeout_failure, .reply ⟨.OK, [], default⟩]
    decide
  · intro h
    exact h.success .untouched rfl _ (List.mem_cons_self ..)
