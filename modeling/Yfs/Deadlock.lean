/-
# The clients never wait for each other in a circle

`create` takes the lock of the new file while it holds the lock of the directory, and `unlink` takes
the lock of a file whose number it has read out of the directory.  Clients run any of the operations,
one at a time each; the steps of the system are the single calls of the lock server (with the sleeping
and waking inside `acquire`) and of the extent server.

The order of the locks is the order in which the numbers were drawn, the root first.  It is respected
because no directory ever lists a number that was drawn before its own (`Younger`):

* `create` adds a number that has just been drawn to a directory that was there;
* `unlink` writes back a part of the entries it has read;
* the other operations write no directory.

This needs no mutual exclusion: a directory string that was `Younger` when it was read still is when
it is written back, whatever happened in between.  Calls may therefore also fail in the RPC layer.

`deadlock_free` is the main result.  `no_cycles` draws a second one from the same order: the names never
form a cycle.
-/
import Yfs.LockOrder
import Yfs.LockServer
import Yfs.Namespace

open YfsClient LockOrder

/-! ## The system -/

/-- The extent server, the lock server, for each client `τ` the rest of the operation it runs, and the
inums that are in use: the root and what `random_inum` has returned since. -/
structure Cluster (τ : Type) where
  extents : ExtentServer
  locks : LockServer.Sys τ τ
  prog : τ → Option FsProg
  inums : List Inum

/-- The inum that `random_inum` has been called for. -/
def FsCall.draws : FsCall → List Inum
  | .create _ fnum _ _ => [fnum]
  | _ => []

/-- A call of the extent server that no operation of the file system makes: those of the constructor
of `extent_client` and of the administration of groups. -/
def Call.isAdmin : Call → Bool
  | .reg .. | .groupadd .. | .groupdel .. | .useradd .. | .userdel .. => true
  | _ => false

namespace Cluster

variable {τ : Type} [DecidableEq τ]

/-- The fresh servers, with nobody running. -/
def start (time : UInt32) (uid : UserId) (gid : GroupId) : Cluster τ where
  extents := ExtentServer.init time uid gid
  locks := .start
  prog := fun _ => none
  inums := [Fuse.root]

/-- A file name: no slash, and not a number. -/
def ProperName (fname : Str) : Prop :=
  slash ∉ fname ∧ ∃ c ∈ fname, StdString.isDigit c = false

/-- The operations the kernel issues: directory operations on directory inums, file operations on file
inums, proper names.  `create` gets a new number, for a directory whose own number is in use: the
kernel knows directories from the root, from `mkdir` and from what the operations report
(`reported_mem`). -/
def Issues (inums : List Inum) : FsCall → Prop
  | .create pnum fnum fname _ => isdir pnum ∧ pnum ∈ inums ∧ fnum ∉ inums ∧ ProperName fname
  | .lookup pnum fname => isdir pnum ∧ ProperName fname
  | .unlink pnum fname => isdir pnum ∧ ProperName fname
  | .readdir num => isdir num
  | .write num _ _ => isfile num
  | .read num _ _ _ => isfile num
  | .truncate num _ => isfile num
  | _ => True

/-- How a call of the extent server ends: with a reply, or with a failure of the RPC layer, whether
the server has executed the call or not. -/
inductive Answers (c : ExtentCall) (s : ExtentServer) : Resp → ExtentServer → Prop
  | reply (env : Env) : Answers c s (serve env c s).1 (serve env c s).2
  | lost (f : RpcFailure) : Answers c s (.failed f) s
  | replyLost (env : Env) (f : RpcFailure) : Answers c s (.failed f) (serve env c s).2

/-- The steps of the system. -/
inductive Act (τ : Type)
  | issue (t : τ) (cl : YfsClient) (c : FsCall)
  | acquire (t : τ)
  | wakeup (t : τ)
  | recheck (t : τ)
  | release (t : τ) (woken : List τ)
  | call (t : τ) (r : Resp)
  | finish (t : τ)
  | admin (env : Env) (c : Call)

/-- One step.  A client that is in `acquire` stays at this point of its program until the lock server
grants the lock; the thread that serves it there goes by the client's name. -/
inductive Step : Cluster τ → Act τ → Cluster τ → Prop
  | issue {s : Cluster τ} {t : τ} {c : FsCall} (cl : YfsClient) (hp : s.prog t = none)
      (hc : Issues s.inums c) :
      Step s (.issue t cl c) { s with
        prog := Function.update s.prog t (some (c.prog cl))
        inums := s.inums ++ c.draws }
  | acquire {s : Cluster τ} {t : τ} {i : LockId} {k : FsProg}
      (hp : s.prog t = some (.acquire i k)) (hen : s.locks.Enabled (.acquire t t i)) :
      Step s (.acquire t) { s with
        locks := s.locks.next (.acquire t t i)
        prog := Function.update s.prog t
          (some (if (s.locks.server.acquire i).1 then k else .acquire i k)) }
  | wakeup {s : Cluster τ} {t : τ} (hen : s.locks.Enabled (.wakeup t)) :
      Step s (.wakeup t) { s with locks := s.locks.next (.wakeup t) }
  | recheck {s : Cluster τ} {t : τ} {i : LockId} {r : Int32} {k : FsProg}
      (hp : s.prog t = some (.acquire i k)) (hphase : s.locks.phase t = .woken t i r) :
      Step s (.recheck t) { s with
        locks := s.locks.next (.recheck t)
        prog := Function.update s.prog t
          (some (if (s.locks.server.recheck i).1 then k else .acquire i k)) }
  | release {s : Cluster τ} {t : τ} {i : LockId} {k : FsProg} {woken : List τ}
      (hp : s.prog t = some (.release i k)) (hen : s.locks.Enabled (.release t i woken)) :
      Step s (.release t woken) { s with
        locks := s.locks.next (.release t i woken)
        prog := Function.update s.prog t (some k) }
  | call {s : Cluster τ} {t : τ} {c : ExtentCall} {k : Resp → FsProg} {r : Resp}
      {extents : ExtentServer} (hp : s.prog t = some (.call c k))
      (hr : Answers c s.extents r extents) :
      Step s (.call t r) { s with
        extents := extents
        prog := Function.update s.prog t (some (k r)) }
  | finish {s : Cluster τ} {t : τ} {o : Outcome FsReply} (hp : s.prog t = some (.ret o)) :
      Step s (.finish t) { s with prog := Function.update s.prog t none }
  | admin {s : Cluster τ} {c : Call} (env : Env) (hc : c.isAdmin) :
      Step s (.admin env c) { s with extents := (s.extents.exec env c).2 }

/-- The client waits in `lock_server::acquire` for the lock. -/
def Waits (s : Cluster τ) (t : τ) (i : LockId) : Prop := (s.locks.phase t).awaits = some i

/-- The client has acquired the lock and has not released it. -/
def Holds (s : Cluster τ) (t : τ) (i : LockId) : Prop := LockServer.Holds s.locks.log t i

/-- The clients of `S` wait for each other: each of them for a lock that one of them holds (be it
itself or another one). -/
def Deadlocked (s : Cluster τ) (S : Set τ) : Prop := Circle s.Waits s.Holds S

/-! ## The order of the locks -/

/-- The place of a number among the drawn ones: those in use are numbered in the order in which they
were drawn, all others come after them. -/
def rank (B : List Inum) (i : Inum) : ℕ := B.idxOf i

theorem rank_le (B : List Inum) (i : Inum) : rank B i ≤ B.length := List.idxOf_le_length

/-- What is drawn later ranks higher. -/
theorem rank_lt_of_drawn {B inums : List Inum} {p f : Inum} (hB : inums ++ [f] <+: B)
    (hp : p ∈ inums) (hf : f ∉ inums) : f ∈ B ∧ rank B p < rank B f := by
  obtain ⟨rest, rfl⟩ := hB
  have hlt : inums.idxOf p < inums.length := List.idxOf_lt_length_of_mem hp
  refine ⟨by simp, ?_⟩
  unfold rank
  rw [List.append_assoc, List.idxOf_append_of_mem hp, List.idxOf_append_of_notMem hf]
  omega

/-- `text` is a directory string whose numbers have all been drawn after `p`. -/
def Younger (B : List Inum) (p : Inum) (text : Str) : Prop :=
  ∃ d : Directory, d.text = text ∧ ∀ e ∈ d.entries, e.inum ∈ B ∧ rank B p < rank B e.inum

theorem younger_nil (B : List Inum) (p : Inum) : Younger B p [] :=
  ⟨Directory.empty, rfl, by simp [Directory.empty]⟩

/-- The numbers an operation reports to its caller. -/
def reported : Outcome FsReply → List Inum
  | .ret ⟨.OK, .fnum n⟩ => [n]
  | .ret ⟨.OK, .dirents es⟩ => es.map Dirent.inum
  | _ => []

/-- The rules for the operations: the directories they read and write list younger numbers, and the
numbers they report are in use. -/
def rules (B : List Inum) : Rules ExtentId ExtentCall Resp (Outcome FsReply) where
  rank := rank B
  sends c := ∀ buf, c.op = .put buf → isdir c.id → Younger B c.id buf
  gets c r := c.op = .get → isdir c.id → ¬ r.Is .NOENT → ¬ r.Is .NOACCESS →
    Younger B c.id (r.bufOr [])
  returns o := ∀ i ∈ reported o, i ∈ B

/-! ## The operations keep the order -/

section Operations

variable {B : List Inum} {fin held : Set ExtentId} (cl : YfsClient)

theorem climbs_ret {o : Outcome FsReply} (h : reported o = []) :
    Climbs (rules B) held held (.ret o) :=
  .ret (by simp [rules, h])

/-- An extent call on whose response the order does not depend. -/
theorem climbs_ec {op : ExtentOp} {id : ExtentId} {k : Resp → FsProg}
    (hop : ∀ buf, op = .put buf → isdir id → Younger B id buf)
    (hk : ∀ r, Climbs (rules B) fin held (k r)) : Climbs (rules B) fin held (cl.ec op id k) :=
  ⟨hop, fun r _ => hk r⟩

/-- Reading a directory. -/
theorem climbs_get {id : ExtentId} {st : FsStatus} (rest : Str → FsProg) (hid : isdir id)
    (hrest : ∀ d : Directory, (∀ e ∈ d.entries, e.inum ∈ B ∧ rank B id < rank B e.inum) →
      Climbs (rules B) held held (rest d.text)) :
    Climbs (rules B) held held (cl.ec .get id (fun r =>
      if r.Is .NOENT then done st else if r.Is .NOACCESS then done .NOACCESS
      else rest (r.bufOr []))) := by
  refine ⟨by simp [rules], fun r hr => ?_⟩
  dsimp only
  split_ifs with hne hna
  · exact climbs_ret (by cases st <;> rfl)
  · exact climbs_ret rfl
  · obtain ⟨d, hd, hyoung⟩ := hr rfl hid hne hna
    rw [← hd]
    exact hrest d hyoung

theorem climbs_lookup {pnum : Inum} {fname : Str} (hdir : isdir pnum) (hname : ProperName fname) :
    Climbs (rules B) ∅ ∅ (cl.lookup pnum fname) := by
  refine .withLock (by simp) (climbs_get cl (cl.lookupIn fname) hdir ?_)
  intro d hyoung
  unfold lookupIn
  split
  · exact climbs_ret rfl
  · exact climbs_ret rfl
  · rename_i num ts hafter
    obtain ⟨e, he, -, rest, hnum⟩ := d.exists_of_after_text hname.2 hafter
    obtain ⟨rfl, -⟩ := List.cons.inj hnum
    rw [n2i_filename]
    refine .ret ?_
    intro i hi
    obtain rfl := List.mem_singleton.1 hi
    exact (hyoung e he).1

theorem climbs_readdir {num : Inum} (hdir : isdir num) :
    Climbs (rules B) ∅ ∅ (cl.readdir num) := by
  refine .withLock (by simp) (climbs_get cl cl.readdirIn hdir ?_)
  intro d hyoung
  rw [d.readdirIn_text]
  refine .ret ?_
  intro i hi
  obtain ⟨e, he, rfl⟩ := List.mem_map.1 hi
  exact (hyoung e he).1

theorem climbs_modify {num : Inum} (hfile : isfile num) (edit : Str → Option Str) :
    Climbs (rules B) ∅ ∅ (cl.modify num edit) := by
  have hnot : ¬ isdir num := by simp [isdir, hfile]
  refine .withLock (by simp) (climbs_ec cl (by simp) ?_)
  intro r
  split_ifs
  · exact climbs_ret rfl
  · exact climbs_ret rfl
  · split
    · exact climbs_ret rfl
    · refine climbs_ec cl (fun _ _ h => absurd h hnot) ?_
      intro r
      split_ifs <;> exact climbs_ret rfl

theorem climbs_change (fnum : Inum) (edit : Attr → Attr) :
    Climbs (rules B) ∅ ∅ (cl.change fnum edit) := by
  refine .withLock (by simp) (climbs_ec cl (by simp) ?_)
  intro r
  split_ifs
  · exact climbs_ret rfl
  · refine climbs_ec cl (by simp) ?_
    intro r
    split_ifs <;> exact climbs_ret rfl

/-- The directory with its new entry is written first, then the file, empty. -/
theorem climbs_createNew {pnum fnum : Inum} {buf : Str} {mode : UInt32}
    (hbuf : Younger B pnum buf) : Climbs (rules B) held held (cl.createNew pnum fnum buf mode) := by
  refine climbs_ec cl ?_ ?_
  · rintro buf' heq -
    obtain rfl := ExtentOp.put.inj heq
    exact hbuf
  intro r
  split_ifs
  · exact climbs_ret rfl
  refine climbs_ec cl ?_ ?_
  · rintro buf' heq -
    obtain rfl := ExtentOp.put.inj heq
    exact younger_nil B fnum
  intro r
  split_ifs
  · exact climbs_ret rfl
  refine climbs_ec cl (by simp) ?_
  intro r
  refine climbs_ec cl (by simp) ?_
  intro r
  split_ifs <;> exact climbs_ret rfl

theorem climbs_create {pnum fnum : Inum} {fname : Str} {mode : UInt32} (hdir : isdir pnum)
    (hname : ProperName fname) (hfnum : fnum ∈ B) (hlt : rank B pnum < rank B fnum) :
    Climbs (rules B) ∅ ∅ (cl.create pnum fnum fname mode) := by
  refine .withLock (by simp) (.withLock ?_ (climbs_get cl (cl.createIn pnum fnum fname mode) hdir ?_))
  · simpa [rules] using hlt
  intro d hyoung
  unfold createIn
  split_ifs with hfind
  · exact climbs_ret rfl
  rw [not_not, StdString.find_eq_none_iff] at hfind
  rw [StdString.append]
  split_ifs with hlen
  · -- the name is new, so the string is that of a directory again
    obtain ⟨hslash, c, hc, -⟩ := hname
    have hne : fname ≠ [] := List.ne_nil_of_mem hc
    refine climbs_createNew cl ⟨d.add ⟨fname, fnum⟩ hne hslash hfind, d.add_text hne hslash hfind, ?_⟩
    intro e he
    rcases (d.mem_add hne hslash hfind).1 he with he | rfl
    · exact hyoung e he
    · exact ⟨hfnum, hlt⟩
  · exact climbs_ret rfl

theorem climbs_unlink {pnum : Inum} {fname : Str} (hdir : isdir pnum) (hname : ProperName fname) :
    Climbs (rules B) ∅ ∅ (cl.unlink pnum fname) := by
  refine .withLock (by simp) (climbs_get cl (cl.unlinkIn pnum fname) hdir ?_)
  intro d hyoung
  unfold unlinkIn
  split
  · exact climbs_ret rfl
  · exact climbs_ret rfl
  · rename_i num ts hafter
    obtain ⟨e, he, rfl, rest, hnum⟩ := d.exists_of_after_text hname.2 hafter
    obtain ⟨rfl, -⟩ := List.cons.inj hnum
    rw [d.eraseEntry_text he, n2i_filename]
    refine climbs_ec cl ?_ ?_
    · rintro buf heq -
      obtain rfl := ExtentOp.put.inj heq
      exact ⟨d.remove e.name, rfl, fun x hx => hyoung x (List.mem_of_mem_filter hx)⟩
    intro r
    split_ifs
    · exact climbs_ret rfl
    · -- the entry is younger than the directory whose lock is held
      refine .withLock (by simpa [rules] using (hyoung e he).2) (climbs_ec cl (by simp) ?_)
      intro r
      split_ifs <;> exact climbs_ret rfl

/-- **Every operation keeps the order of the locks.** -/
theorem climbs_prog {inums : List Inum} {c : FsCall} (hc : Issues inums c)
    (hB : inums ++ c.draws <+: B) : Climbs (rules B) ∅ ∅ (c.prog cl) := by
  cases c with
  | getfile inum | getdir inum =>
    refine .withLock (by simp) (climbs_ec cl (by simp) ?_)
    intro r
    split_ifs <;> exact climbs_ret rfl
  | lookup pnum fname => exact climbs_lookup cl hc.1 hc.2
  | create pnum fnum fname mode =>
    obtain ⟨hdir, hp, hf, hname⟩ := hc
    obtain ⟨hfnum, hlt⟩ := rank_lt_of_drawn hB hp hf
    exact climbs_create cl hdir hname hfnum hlt
  | unlink pnum fname => exact climbs_unlink cl hc.1 hc.2
  | readdir num => exact climbs_readdir cl hc
  | write num off buf => exact climbs_modify cl hc (fun content => writeContent content off buf)
  | read num off size buf =>
    refine .withLock (by simp) (climbs_ec cl (by simp) ?_)
    intro r
    split_ifs
    · exact climbs_ret rfl
    · exact climbs_ret rfl
    · split <;> exact climbs_ret rfl
  | truncate num size => exact climbs_modify cl hc (fun content => truncateContent content size)
  | chmod fnum mode => exact climbs_change cl fnum (fun a => { a with mode := mode.toUInt32 })
  | chuid fnum uid => exact climbs_change cl fnum (fun a => { a with uid := uid.toUInt32 })
  | chgid fnum gid => exact climbs_change cl fnum (fun a => { a with gid := gid.toUInt32 })

end Operations

/-! ## The extent server keeps the directories in order -/

/-- Every directory lists numbers drawn after its own. -/
def Ordered (B : List Inum) (contents : StdMap ExtentId Str) : Prop :=
  ∀ p buf, isdir p → contents p = some buf → Younger B p buf

theorem ordered_init (B : List Inum) (time : UInt32) (uid : UserId) (gid : GroupId) :
    Ordered B (ExtentServer.init time uid gid).contents := by
  intro p buf _ hp
  by_cases h : p = 1
  · subst h
    obtain rfl : [] = buf := by simpa [ExtentServer.init] using hp
    exact younger_nil B 1
  · simp [ExtentServer.init, StdMap.set_of_ne, h] at hp

section Server

variable {B : List Inum} {s s' : ExtentServer} {c : ExtentCall}

/-- A call that puts directories of younger numbers only. -/
theorem Ordered.exec (env : Env) {c : Call} (hs : s.SameKeys) (h : Ordered B s.contents)
    (hc : ∀ id buf userid userkey, c = .put id buf userid userkey → isdir id → Younger B id buf) :
    (s.exec env c).2.SameKeys ∧ Ordered B (s.exec env c).2.contents := by
  have hstep : ExtentServer.Step s ⟨env, c, (s.exec env c).1⟩ (s.exec env c).2 := rfl
  refine ⟨ExtentServer.step_sameKeys hs hstep, ?_⟩
  intro p buf hdir hp
  rcases (ExtentServer.step_effect hs hstep).contents with
    heq | ⟨id, text, userid, userkey, hput, heq⟩ | ⟨id, userid, userkey, -, heq⟩
  · exact h p buf hdir (heq ▸ hp)
  · rw [heq] at hp
    by_cases hid : p = id
    · subst hid
      obtain rfl : text = buf := by simpa using hp
      exact hc p text userid userkey hput hdir
    · rw [StdMap.set_of_ne _ _ hid] at hp
      exact h p buf hdir hp
  · rw [heq] at hp
    by_cases hid : p = id
    · subst hid
      simp at hp
    · rw [StdMap.erase_of_ne _ hid] at hp
      exact h p buf hdir hp

theorem ordered_serve (env : Env) (hs : s.SameKeys) (h : Ordered B s.contents)
    (hc : (rules B).sends c) :
    (serve env c s).2.SameKeys ∧ Ordered B (serve env c s).2.contents := by
  refine h.exec env hs ?_
  intro id buf userid userkey hput hdir
  obtain ⟨op, id', userid', userkey'⟩ := c
  cases op with
  | put text =>
    obtain ⟨rfl, rfl, -, -⟩ := Call.put.inj hput
    exact hc text rfl hdir
  | _ => cases hput

/-- **However an extent call ends, the directories stay in order, and so is the one it returns.** -/
theorem Ordered.answers {r : Resp} (hs : s.SameKeys) (h : Ordered B s.contents)
    (hc : (rules B).sends c) (hr : Answers c s r s') :
    (s'.SameKeys ∧ Ordered B s'.contents) ∧ (rules B).gets c r := by
  cases hr with
  | reply env =>
    refine ⟨ordered_serve env hs h hc, ?_⟩
    obtain ⟨op, id, userid, userkey⟩ := c
    rintro rfl hdir hne hna
    rcases serve_get env id userid userkey s with h' | h' | ⟨-, htext⟩
    · exact absurd h' hna
    · exact absurd h' hne
    · exact h id _ hdir htext
  | lost f => exact ⟨⟨hs, h⟩, fun _ _ _ _ => younger_nil B c.id⟩
  | replyLost env f => exact ⟨ordered_serve env hs h hc, fun _ _ _ _ => younger_nil B c.id⟩

end Server

/-! ## Whole runs -/

/-- The locks a client holds. -/
def held (s : Cluster τ) (t : τ) : Set LockId := {i | s.Holds t i}

/-- A client that holds the locks `held` is between two operations and holds none, or it keeps the
order in what is left of the operation. -/
def Runs (B : List Inum) (held : Set LockId) : Option FsProg → Prop
  | none => held = ∅
  | some p => Climbs (rules B) ∅ held p

/-- The invariant: the directories and the clients keep the order of `B`, and a client that waits in
`acquire` has stopped at this point of its operation. -/
structure Inv (B : List Inum) (s : Cluster τ) : Prop where
  keys : s.extents.SameKeys
  ordered : Ordered B s.extents.contents
  runs : ∀ t, Runs B (s.held t) (s.prog t)
  waits : ∀ t i, s.Waits t i → ∃ k, s.prog t = some (.acquire i k)

omit [DecidableEq τ] in
theorem inv_start (B : List Inum) (time : UInt32) (uid : UserId) (gid : GroupId) :
    Inv B (start time uid gid : Cluster τ) where
  keys := ExtentServer.sameKeys_init time uid gid
  ordered := ordered_init B time uid gid
  runs t := by
    apply Set.eq_empty_of_forall_notMem
    intro i
    exact LockServer.not_holds_nil t i
  waits t i h := by cases h

section Steps

variable {B : List Inum} {s s' : Cluster τ} {t : τ}

/-- A step of the client `t` has to be looked at for this client only. -/
theorem Inv.of_others (h : Inv B s) (t : τ)
    (hserver : s'.extents.SameKeys ∧ Ordered B s'.extents.contents)
    (hprog : ∀ u, u ≠ t → s'.prog u = s.prog u) (hheld : ∀ u, u ≠ t → s'.held u = s.held u)
    (hphase : ∀ u, u ≠ t → (s'.locks.phase u).awaits = (s.locks.phase u).awaits)
    (hrun : Runs B (s'.held t) (s'.prog t))
    (hwait : ∀ i, s'.Waits t i → ∃ k, s'.prog t = some (.acquire i k)) : Inv B s' := by
  refine ⟨hserver.1, hserver.2, fun u => ?_, fun u i hu => ?_⟩
  · by_cases hut : u = t
    · subst hut
      exact hrun
    · rw [hprog u hut, hheld u hut]
      exact h.runs u
  · by_cases hut : u = t
    · subst hut
      exact hwait i hu
    · rw [hprog u hut]
      exact h.waits u i (by rwa [Waits, ← hphase u hut])

/-- A step that leaves the lock server alone, of a client that is not in `acquire`. -/
theorem Inv.of_locks_eq (h : Inv B s) {q : Option FsProg}
    (hserver : s'.extents.SameKeys ∧ Ordered B s'.extents.contents) (hlocks : s'.locks = s.locks)
    (hprog : s'.prog = Function.update s.prog t q) (hnot : ∀ i k, s.prog t ≠ some (.acquire i k))
    (hrun : Runs B (s.held t) q) : Inv B s' := by
  refine h.of_others t hserver ?_ ?_ ?_ ?_ ?_
  · intro u hu
    rw [hprog, Function.update_of_ne hu]
  · intro u hu
    unfold held Holds
    rw [hlocks]
  · intro u hu
    rw [hlocks]
  · unfold held Holds
    rw [hlocks, hprog, Function.update_self]
    exact hrun
  · intro i hi
    rw [Waits, hlocks] at hi
    obtain ⟨k, hk⟩ := h.waits t i hi
    exact absurd hk (hnot i k)

/-- A critical section of `acquire`: the client goes on holding the lock, or it waits. -/
theorem Inv.attempt (h : Inv B s) {i : LockId} {k : FsProg} {r : Int32} {res : Bool × LockServer}
    (hp : s.prog t = some (.acquire i k)) :
    Inv B { s with
      locks := s.locks.finish t t i r res
      prog := Function.update s.prog t (some (if res.1 then k else .acquire i k)) } := by
  have hrun := h.runs t
  rw [hp] at hrun
  obtain ⟨granted, server⟩ := res
  cases granted with
  | false =>
    refine h.of_others t ⟨h.keys, h.ordered⟩ ?_ (fun u _ => rfl) ?_ ?_ ?_
    · intro u hu
      exact Function.update_of_ne hu _ _
    · intro u hu
      exact congrArg _ (Function.update_of_ne hu _ _)
    · dsimp only
      rw [Function.update_self]
      exact hrun
    · intro j hj
      refine ⟨k, ?_⟩
      obtain rfl : i = j := by simpa [Waits, LockServer.Sys.finish, LockServer.Phase.awaits] using hj
      dsimp only
      rw [Function.update_self]
      rfl
  | true =>
    refine h.of_others t ⟨h.keys, h.ordered⟩ ?_ ?_ ?_ ?_ ?_
    · intro u hu
      exact Function.update_of_ne hu _ _
    · intro u hu
      ext j
      refine LockServer.holds_acquired.trans ?_
      simp [hu, held, Holds]
    · intro u hu
      exact congrArg _ (Function.update_of_ne hu _ _)
    · have hset : {j | LockServer.Holds (s.locks.log ++ [.acquired t i r]) t j} =
          insert i (s.held t) := by
        ext j
        refine LockServer.holds_acquired.trans ?_
        simp [held, Holds]
      dsimp only
      rw [Function.update_self]
      show Runs B {j | LockServer.Holds (s.locks.log ++ [.acquired t i r]) t j} (some k)
      rw [hset]
      exact hrun.2
    · intro j hj
      simp [Waits, LockServer.Sys.finish, LockServer.Phase.awaits] at hj

/-- A release by the client `t`, whoever it wakes. -/
theorem Inv.release (h : Inv B s) {i : LockId} {k : FsProg} {woken : List τ}
    (hp : s.prog t = some (.release i k)) :
    Inv B { s with
      locks := s.locks.next (.release t i woken)
      prog := Function.update s.prog t (some k) } := by
  have hrun := h.runs t
  rw [hp] at hrun
  have hphase : ∀ u, ((s.locks.next (.release t i woken)).phase u).awaits =
      (s.locks.phase u).awaits := by
    intro u
    show (if u ∈ woken then (s.locks.phase u).wake else s.locks.phase u).awaits = _
    split_ifs
    · exact LockServer.Phase.awaits_wake _
    · rfl
  refine h.of_others t ⟨h.keys, h.ordered⟩ ?_ ?_ (fun u _ => hphase u) ?_ ?_
  · intro u hu
    exact Function.update_of_ne hu _ _
  · intro u hu
    ext j
    refine LockServer.holds_released.trans ?_
    simp [hu, held, Holds]
  · have hset : {j | LockServer.Holds (s.locks.log ++
        [.released t i s.locks.server.nacquire]) t j} = s.held t \ {i} := by
      ext j
      refine LockServer.holds_released.trans ?_
      simp [held, Holds]
    dsimp only
    rw [Function.update_self]
    show Runs B {j | LockServer.Holds (s.locks.log ++
      [.released t i s.locks.server.nacquire]) t j} (some k)
    rw [hset]
    exact hrun
  · intro j hj
    rw [Waits, hphase] at hj
    obtain ⟨k', hk'⟩ := h.waits t j hj
    rw [hp] at hk'
    cases hk'

/-- Numbers are only added, at the end. -/
theorem Step.inums_prefix {a : Act τ} (h : Step s a s') : s.inums <+: s'.inums := by
  cases h with
  | issue cl hp hc => exact List.prefix_append _ _
  | _ => exact List.prefix_refl _

/-- **Every step keeps the invariant.** -/
theorem Inv.step {a : Act τ} (h : Inv B s) (hB : s'.inums <+: B) (hs : Step s a s') : Inv B s' := by
  cases hs with
  | @issue t c cl hp hc =>
    have hrun := h.runs t
    rw [hp] at hrun
    refine h.of_locks_eq ⟨h.keys, h.ordered⟩ rfl rfl (by simp [hp]) ?_
    rw [show s.held t = ∅ from hrun]
    exact climbs_prog cl hc hB
  | acquire hp hen => exact h.attempt hp
  | @wakeup t hen =>
    refine h.of_others t ⟨h.keys, h.ordered⟩ (fun _ _ => rfl) (fun _ _ => rfl) ?_ (h.runs t) ?_
    · intro u hu
      exact congrArg _ (Function.update_of_ne hu _ _)
    · intro i hi
      have hwake : (Function.update s.locks.phase t (s.locks.phase t).wake t).awaits = some i := hi
      rw [Function.update_self, LockServer.Phase.awaits_wake] at hwake
      exact h.waits t i hwake
  | recheck hp hphase =>
    simp only [LockServer.Sys.next, hphase]
    exact h.attempt hp
  | release hp hen => exact h.release hp
  | @call t c k r extents hp hr =>
    have hrun := h.runs t
    rw [hp] at hrun
    obtain ⟨hserver, hget⟩ := h.ordered.answers h.keys hrun.1 hr
    exact h.of_locks_eq hserver rfl rfl (by simp [hp]) (hrun.2 r hget)
  | @finish t o hp =>
    have hrun := h.runs t
    rw [hp] at hrun
    exact h.of_locks_eq ⟨h.keys, h.ordered⟩ rfl rfl (by simp [hp]) hrun.1
  | @admin c env hc =>
    have hserver := h.ordered.exec env (c := c) h.keys (by
      rintro id buf userid userkey rfl
      cases hc)
    exact ⟨hserver.1, hserver.2, h.runs, h.waits⟩

end Steps

theorem inv_of_trace {time : UInt32} {uid : UserId} {gid : GroupId} {tr : List (Act τ)}
    {s : Cluster τ} (h : Trace Step (start time uid gid) tr s) : Inv s.inums s := by
  -- the order of a state is fixed by the numbers drawn until then and all that may be drawn later
  refine Trace.invariant (I := fun s => ∀ B, s.inums <+: B → Inv B s) ?_ ?_ h s.inums
    (List.prefix_refl _)
  · intro B _
    exact inv_start B time uid gid
  · intro s a s' hi hs B hB
    exact (hi B (hs.inums_prefix.trans hB)).step hB hs

/-- Every number that an operation reports to the kernel is in use. -/
theorem reported_mem {time : UInt32} {uid : UserId} {gid : GroupId} {tr : List (Act τ)}
    {s : Cluster τ} (h : Trace Step (start time uid gid) tr s) {t : τ} {o : Outcome FsReply}
    (ho : s.prog t = some (.ret o)) : ∀ i ∈ reported o, i ∈ s.inums := by
  have hrun := (inv_of_trace h).runs t
  rw [ho] at hrun
  exact hrun.2

/-- **Lock acquisition is deadlock-free.**  Whatever the operations the clients run and however their
lock and extent calls are interleaved, no set of clients ever waits for locks that are held within the
set. -/
theorem deadlock_free {time : UInt32} {uid : UserId} {gid : GroupId} {tr : List (Act τ)}
    {s : Cluster τ} (h : Trace Step (start time uid gid) tr s) (S : Set τ) : ¬ s.Deadlocked S := by
  have hi := inv_of_trace h
  refine not_circle (rank s.inums) (rank_le s.inums) ?_ S
  intro t i j hwait hhold
  obtain ⟨k, hk⟩ := hi.waits t i hwait
  have hrun := hi.runs t
  rw [hk] at hrun
  exact hrun.1 j hhold

/-- One client has the lock of the root for a `create`, another one waits for it. -/
theorem deadlock_free_waiting :
    ∃ (tr : List (Act Bool)) (s : Cluster Bool), Trace Step (start 0 0 0) tr s ∧
      s.Waits true 1 ∧ s.Holds false 1 ∧ ∀ S, ¬ s.Deadlocked S := by
  let cl : YfsClient := ⟨3, [], 3, 3, default, 0⟩
  have hname : ProperName [97] := ⟨by decide, 97, by simp, by decide⟩
  have h₁ : Trace Step (start 0 0 0 : Cluster Bool) _ _ :=
    Trace.single (.issue (t := false) (c := .create Fuse.root 5 [97] 0o644) cl rfl
      ⟨by decide, by decide, by decide, hname⟩)
  have h₂ := h₁.snoc (.acquire (t := false) rfl rfl)
  have h₃ := h₂.snoc (.issue (t := true) (c := .lookup Fuse.root [97]) cl rfl ⟨by decide, hname⟩)
  have h₄ := h₃.snoc (.acquire (t := true) rfl rfl)
  exact ⟨_, _, h₄, rfl, ⟨[], 0, [], rfl, by simp⟩, deadlock_free h₄⟩

/-! ## The namespace during a run -/

/-- The directory `p` lists the number `q`. -/
def Lists (s : Cluster τ) (p q : Inum) : Prop :=
  isdir p ∧ ∃ d : Directory, s.extents.contents p = some d.text ∧ ∃ e ∈ d.entries, e.inum = q

omit [DecidableEq τ] in
/-- What is listed was drawn later than the directory. -/
theorem Inv.lists_rank {B : List Inum} {s : Cluster τ} (h : Inv B s) {p q : Inum}
    (hl : s.Lists p q) : q ∈ B ∧ rank B p < rank B q := by
  obtain ⟨hdir, d, hd, e, he, rfl⟩ := hl
  obtain ⟨d', htext, hyoung⟩ := h.ordered p d.text hdir hd
  rw [Fuse.entries_eq_of_text htext] at hyoung
  exact hyoung e he

omit [DecidableEq τ] in
/-- So is what can be reached by a path of names. -/
theorem Inv.rank_of_path {B : List Inum} {s : Cluster τ} (h : Inv B s) {p q : Inum}
    (hpath : Relation.TransGen s.Lists p q) : rank B p < rank B q := by
  induction hpath with
  | single hl => exact (h.lists_rank hl).2
  | tail _ hl ih => exact ih.trans (h.lists_rank hl).2

end Cluster
