/-
# What users of different clients see of each other

A consequence of `FileSystem.atomic_file_system` for users who work in the same directory through
different clients: an operation that has ended before another one is issued takes effect before it, so
that a name which one client has created is found by all others (`lookup_after_create`), unless it has
been unlinked or the directory is gone.

The first part says what a call can make of the contents of a node (`Becomes`); the second, which of the
operations take effect between two others (`Atomically.finds`).
-/
import Yfs.SharedFileSystem

open YfsClient

namespace FileSystem

/-! ## What a call makes of the contents -/

/-- What the node contains, if there is one. -/
def bodyAt (fs : FileSystem) (i : Inum) : Option Body := (fs.nodes i).map Node.body

/-- What a call may make of the contents `b` of the node `i`. -/
inductive Becomes (c : FsCall) (i : Inum) (b : Option Body) : Option Body → Prop
  | same : Becomes c i b b
  | removed {p : Inum} {name : Str} (hc : c = .unlink p name) : Becomes c i b none
  | added {f : Inum} {name : Str} {mode : UInt32} {d d' : Directory} (hc : c = .create i f name mode)
      (hb : b = some (.dir d)) (hnew : ¬ d.Mentions name) (hd : d'.entries = d.entries ++ [⟨name, f⟩]) :
      Becomes c i b (some (.dir d'))
  | dropped {name : Str} {d : Directory} (hc : c = .unlink i name) (hb : b = some (.dir d)) :
      Becomes c i b (some (.dir (d.remove name)))
  | new {p : Inum} {name : Str} {mode : UInt32} (hc : c = .create p i name mode) :
      Becomes c i b (some (Body.new i))
  | edited {bytes bytes' : Str} (hc : (∃ off buf, c = .write i off buf) ∨ ∃ size, c = .truncate i size)
      (hb : b = some (.file bytes)) : Becomes c i b (some (.file bytes'))

theorem bodyAt_set (fs : FileSystem) (p i : Inum) (n : Option Node) :
    (fs.set p n).bodyAt i = if i = p then n.map Node.body else fs.bodyAt i := by
  unfold bodyAt FileSystem.set
  by_cases hi : i = p
  · subst hi
    rw [if_pos rfl]
    exact congrArg _ (Function.update_self ..)
  · rw [if_neg hi]
    exact congrArg _ (Function.update_of_ne hi ..)

theorem Opens.bodyAt {fs : FileSystem} {cl : YfsClient} {i : Inum} {b : Body} {n : Node}
    (h : fs.Opens cl i b n) : fs.bodyAt i = some b := by
  obtain ⟨m, time, hm, rfl⟩ := h.node
  rw [FileSystem.bodyAt, hm, ← h.body]
  rfl

/-- To open a node changes no contents. -/
theorem Opens.bodyAt_set {fs : FileSystem} {cl : YfsClient} {p : Inum} {b : Body} {n : Node}
    (h : fs.Opens cl p b n) (i : Inum) : (fs.set p n).bodyAt i = fs.bodyAt i := by
  rw [FileSystem.bodyAt_set]
  split_ifs with hi
  · rw [hi, h.bodyAt, Option.map_some, h.body]
  · rfl

theorem body_changes {c : FsCall} {g : Node → Node} (hg : c.changes = some g) (n : Node) :
    (g n).body = n.body := by
  cases c <;> cases hg <;> rfl

/-- A call that stores a body in the node it has opened. -/
theorem bodyAt_stored {fs : FileSystem} {p i : Inum} {n : Node} {b : Body} {time : UInt32} :
    (fs.set p (n.stored b time)).bodyAt i = if i = p then some b else fs.bodyAt i :=
  FileSystem.bodyAt_set ..

/-- **What a call makes of the contents of a node.** -/
theorem Does.becomes {cl : YfsClient} {fs fs' : FileSystem} {c : FsCall} {o : Outcome FsReply}
    (h : Does cl fs c o fs') (i : Inum) : Becomes c i (fs.bodyAt i) (fs'.bodyAt i) := by
  cases h with
  | attr_missing | getfile | getdir | change_denied | denied | missing => exact .same
  | lookup ho | lookup_absent ho | readdir ho | create_exists ho | create_full ho | create_denied ho
  | unlink_absent ho | unlink_denied ho | read ho | read_beyond ho | write_denied ho | truncate_denied ho
  | truncate_beyond ho =>
    rw [ho.bodyAt_set]
    exact .same
  | @change _ p g n hc hg hn =>
    rw [bodyAt_set]
    split_ifs with hi
    · have hbody : fs.bodyAt i = some (g n).body := by
        rw [hi, bodyAt, hn, body_changes hg]
        rfl
      rw [hbody]
      exact .same
    · exact .same
  | create_half ho ha =>
    rw [bodyAt_stored]
    split_ifs with hi
    · subst hi
      exact .added rfl ho.bodyAt ha.new ha.entries
    · exact .same
  | create ho ha hw howner hbody =>
    rw [bodyAt_set]
    split_ifs with hf
    · subst hf
      rw [Option.map_some, hbody]
      exact .new rfl
    · rw [bodyAt_stored]
      split_ifs with hi
      · subst hi
        exact .added rfl ho.bodyAt ha.new ha.entries
      · exact .same
  | unlink_half ho =>
    rw [bodyAt_stored]
    split_ifs with hi
    · subst hi
      exact .dropped rfl ho.bodyAt
    · exact .same
  | unlink ho =>
    rw [bodyAt_set]
    split_ifs with he
    · exact .removed rfl
    · rw [bodyAt_stored]
      split_ifs with hi
      · subst hi
        exact .dropped rfl ho.bodyAt
      · exact .same
  | write ho =>
    rw [bodyAt_stored]
    split_ifs with hi
    · subst hi
      exact .edited (.inl ⟨_, _, rfl⟩) ho.bodyAt
    · exact .same
  | truncate ho =>
    rw [bodyAt_stored]
    split_ifs with hi
    · subst hi
      exact .edited (.inr ⟨_, rfl⟩) ho.bodyAt
    · exact .same

/-! ## Properties that calls keep -/

/-- The call makes the node anew. -/
def Makes (i : Inum) (c : FsCall) : Prop := ∃ p name mode, c = .create p i name mode

/-- The call unlinks the name, or makes the directory anew. -/
def Unnames (p : Inum) (name : Str) (c : FsCall) : Prop :=
  c = .unlink p name ∨ Makes p c

/-- The directory lists the name with the number, unless it is gone. -/
def Lists (p : Inum) (name : Str) (f : Inum) (fs : FileSystem) : Prop :=
  ∀ b, fs.bodyAt p = some b → ∃ d, b = .dir d ∧ ⟨name, f⟩ ∈ d.entries

theorem Does.lists {cl : YfsClient} {fs fs' : FileSystem} {c : FsCall} {o : Outcome FsReply}
    {p f : Inum} {name : Str} (h : Does cl fs c o fs') (hc : ¬ Unnames p name c)
    (hfs : fs.Lists p name f) : fs'.Lists p name f := by
  have hbecomes := h.becomes p
  intro b hb
  rw [hb] at hbecomes
  generalize hold : fs.bodyAt p = old at hbecomes
  cases hbecomes with
  | same => exact hfs b hold
  | added _ hd _ hd' =>
    obtain ⟨d, heq, hmem⟩ := hfs _ (hold.trans hd)
    cases heq
    refine ⟨_, rfl, ?_⟩
    rw [hd']
    exact List.mem_append_left _ hmem
  | @dropped name' d hc' hd =>
    obtain ⟨d, heq, hmem⟩ := hfs _ (hold.trans hd)
    cases heq
    have hne : name' ≠ name := by
      rintro rfl
      exact hc (.inl hc')
    exact ⟨_, rfl, List.mem_filter.2 ⟨hmem, by simpa using hne.symm⟩⟩
  | new hc' => exact absurd (.inr ⟨_, _, _, hc'⟩) hc
  | edited _ hfile =>
    obtain ⟨d, heq, -⟩ := hfs _ (hold.trans hfile)
    cases heq

/-! ## Between two operations -/

theorem Runs.of_append {fs fs' : FileSystem} {xs ys : List (YfsClient × FsCall × Outcome FsReply)}
    (h : fs.Runs (xs ++ ys) fs') : ∃ fs₁, fs.Runs xs fs₁ ∧ fs₁.Runs ys fs' := by
  induction xs generalizing fs with
  | nil => exact ⟨fs, .nil, h⟩
  | cons x xs ih =>
    cases h with
    | cons hdoes hruns =>
      obtain ⟨fs₁, h₁, h₂⟩ := ih hruns
      exact ⟨fs₁, .cons hdoes h₁, h₂⟩

/-- What every call of a run keeps. -/
theorem Runs.keeps {P : FileSystem → Prop} {fs fs' : FileSystem}
    {xs : List (YfsClient × FsCall × Outcome FsReply)} (h : fs.Runs xs fs') (hP : P fs)
    (hkeep : ∀ x ∈ xs, ∀ fs fs', Does x.1 fs x.2.1 x.2.2 fs' → P fs → P fs') : P fs' := by
  induction h with
  | nil => exact hP
  | cons hdoes _ ih =>
    apply ih
    · exact hkeep _ (List.mem_cons_self ..) _ _ hdoes hP
    · intro x hx
      exact hkeep x (List.mem_cons_of_mem _ hx)

/-- What stands between two elements of a list. -/
theorem exists_between {κ : Type} [DecidableEq κ] {order : List κ} {a b : κ} (hb : b ∈ order)
    (hlt : order.idxOf a < order.idxOf b) (hnodup : order.Nodup) :
    ∃ front mid back, order = front ++ a :: (mid ++ b :: back) ∧
      ∀ x ∈ mid, order.idxOf a < order.idxOf x ∧ order.idxOf x < order.idxOf b := by
  have ha : a ∈ order := List.idxOf_lt_length_iff.1 (hlt.trans (List.idxOf_lt_length_of_mem hb))
  obtain ⟨front, rest, rfl⟩ := List.append_of_mem ha
  obtain ⟨-, hrest, hdisj⟩ := List.nodup_append'.1 hnodup
  obtain ⟨harest, hrest⟩ := List.nodup_cons.1 hrest
  have hfront : ∀ x ∈ a :: rest, x ∉ front := fun x hx hfront => hdisj hfront hx
  have hbrest : b ∈ rest := by
    rcases List.mem_append.1 hb with hb | hb
    · rw [List.idxOf_append_of_mem hb, List.idxOf_append_of_notMem (hfront a (List.mem_cons_self ..))]
        at hlt
      have hlen := List.idxOf_lt_length_of_mem hb
      omega
    · rcases List.mem_cons.1 hb with rfl | hb
      · exact absurd hlt (lt_irrefl _)
      · exact hb
  obtain ⟨mid, back, rfl⟩ := List.append_of_mem hbrest
  refine ⟨front, mid, back, rfl, ?_⟩
  intro x hx
  have hxrest : x ∈ mid ++ b :: back := List.mem_append_left _ hx
  have hxa : a ≠ x := by
    rintro rfl
    exact harest hxrest
  have hbmid : b ∉ mid := fun hmem => (List.nodup_append'.1 hrest).2.2 hmem (List.mem_cons_self ..)
  have hba : a ≠ b := by
    rintro rfl
    exact harest hbrest
  have hxlen := List.idxOf_lt_length_of_mem hx
  rw [List.idxOf_append_of_notMem (hfront a (List.mem_cons_self ..)),
    List.idxOf_append_of_notMem (hfront x (List.mem_cons_of_mem _ hxrest)),
    List.idxOf_append_of_notMem (hfront b (List.mem_cons_of_mem _ hbrest)), List.idxOf_cons_self,
    List.idxOf_cons_ne _ hxa, List.idxOf_cons_ne _ hba, List.idxOf_append_of_mem hx,
    List.idxOf_append_of_notMem hbmid, List.idxOf_cons_self]
  omega

/-- **What one operation establishes, a later one finds**, when the operations between them keep it. -/
theorem Atomically.finds {τ : Type} {fs fs' : FileSystem} {c : Cluster.Session τ}
    {order : List (Fin c.ops.length)} {res : Fin c.ops.length → Outcome FsReply}
    (h : Atomically fs c order res fs') {a b : Fin c.ops.length} (hlt : order.idxOf a < order.idxOf b)
    {P : FileSystem → Prop}
    (hset : ∀ fs fs', Does (c.ops.get a).cl fs (c.ops.get a).call (res a) fs' → P fs')
    (hkeep : ∀ x, order.idxOf a < order.idxOf x → order.idxOf x < order.idxOf b →
      ∀ o fs fs', Does (c.ops.get x).cl fs (c.ops.get x).call o fs' → P fs → P fs') :
    ∃ fs fs', P fs ∧ Does (c.ops.get b).cl fs (c.ops.get b).call (res b) fs' := by
  obtain ⟨front, mid, back, horder, hmid⟩ := exists_between (h.all b) hlt h.nodup
  have hruns := h.runs
  rw [horder, List.map_append, List.map_cons, List.map_append, List.map_cons] at hruns
  obtain ⟨fs₁, -, hruns⟩ := hruns.of_append
  cases hruns with
  | cons ha hruns =>
    obtain ⟨fs₃, hmids, hruns⟩ := hruns.of_append
    cases hruns with
    | cons hb =>
      refine ⟨fs₃, _, hmids.keeps (hset _ _ ha) ?_, hb⟩
      intro y hy
      obtain ⟨x, hx, rfl⟩ := List.mem_map.1 hy
      obtain ⟨hax, hxb⟩ := hmid x hx
      exact hkeep x hax hxb (res x)

/-! ## Names -/

/-- A `create` that returns `OK` leaves the name in the directory. -/
theorem Does.lists_of_create {cl : YfsClient} {fs fs' : FileSystem} {p f : Inum} {name : Str}
    {mode : UInt32} (h : Does cl fs (.create p f name mode) (.ret ⟨.OK, .untouched⟩) fs')
    (hpf : f ≠ p) : fs'.Lists p name f := by
  cases h with
  | change hc => cases hc
  | missing hc => cases hc
  | @create _ _ d d' n _ _ time node ho ha hw howner hbody =>
    intro b hb
    rw [bodyAt_set, if_neg hpf.symm, bodyAt_stored, if_pos rfl] at hb
    obtain rfl := Option.some.inj hb
    refine ⟨d', rfl, ?_⟩
    rw [ha.entries]
    simp

/-- What a `lookup` answers of a name that is listed. -/
theorem Does.lookup_listed {cl : YfsClient} {fs fs' : FileSystem} {p f : Inum} {name : Str}
    {o : Outcome FsReply} (h : Does cl fs (.lookup p name) o fs') (hlists : fs.Lists p name f) :
    o = .ret ⟨.OK, .fnum f⟩ ∨ o = .ret ⟨.NOACCESS, .untouched⟩ ∨ o = .ret ⟨.IOERR, .untouched⟩ := by
  cases h with
  | attr_missing hc => cases hc
  | change_denied hc => cases hc
  | change hc => cases hc
  | denied hc => exact .inr (.inl rfl)
  | missing hc =>
    obtain ⟨-, rfl⟩ := Prod.mk.inj (Option.some.inj hc)
    exact .inr (.inr rfl)
  | @lookup _ d n e ho he =>
    obtain ⟨d', hd, hmem⟩ := hlists _ ho.bodyAt
    cases hd
    -- a directory has one entry of a name
    rw [List.inj_on_of_nodup_map d.nodup_names he hmem rfl]
    exact .inl rfl
  | lookup_absent ho hname =>
    obtain ⟨d', hd, hmem⟩ := hlists _ ho.bodyAt
    cases hd
    exact absurd (List.mem_map_of_mem hmem) hname

section Lookup

open Cluster

variable {τ : Type} [DecidableEq τ]

/-- How the client `t` comes to the end of its program, by itself. -/
def RunsAlone (t : τ) (c : Cluster τ) (ops : List (Operation τ)) (o : Outcome FsReply) : Prop :=
  ∃ acts c', Trace Session.Step ⟨c, ops⟩ acts ⟨c', ops⟩ ∧ (∀ a ∈ acts, a.Within Answered) ∧
    c'.prog = Function.update c.prog t (some (.ret o))

/-- One step, and the rest of the program. -/
theorem RunsAlone.of_step {t : τ} {c c₁ : Cluster τ} {ops : List (Operation τ)} {o : Outcome FsReply}
    {a : Act τ} {p : Option FsProg} (hs : Session.Step ⟨c, ops⟩ a ⟨c₁, ops⟩) (ha : a.Within Answered)
    (hprog : c₁.prog = Function.update c.prog t p) (h : RunsAlone t c₁ ops o) :
    RunsAlone t c ops o := by
  obtain ⟨acts, c', hrun, hin, hend⟩ := h
  refine ⟨_, c', (Trace.single hs).append hrun, ?_, ?_⟩
  · intro b hb
    rcases List.mem_append.1 hb with hb | hb
    · obtain rfl := List.mem_singleton.1 hb
      exact ha
    · exact hin b hb
  · rw [hend, hprog, Function.update_idem]

/-- A client that runs alone comes to the end of its program. -/
theorem runsAlone_of_alone {t : τ} {held : Finset ExtentId} {c : Cluster τ} {ops : List (Operation τ)}
    {p : FsProg} {calls : List (ExtentCall × Resp)} {o : Outcome FsReply} {ext : ExtentServer}
    (h : Prog.Alone serve held c.extents p calls o ext) (hp : c.prog t = some p)
    (hphase : ∀ u, c.locks.phase u = .idle)
    (hheld : ∀ i, c.locks.server.isLocked i = decide (i ∈ held)) : RunsAlone t c ops o := by
  generalize hs : c.extents = s at h
  induction h generalizing c with
  | ret a =>
    refine ⟨[], c, .nil, by simp, ?_⟩
    rw [← hp, Function.update_eq_self]
  | @acquire held s s' i k tr a hi _ ih =>
    obtain ⟨hfree, hflag⟩ := LockServer.acquire_spec c.locks.server i
    have hgot : (c.locks.server.acquire i).1 = true := by
      rw [hfree, hheld, decide_eq_false hi]
      rfl
    have hstep := Step.acquire (s := c) (t := t) hp (hphase t)
    rw [hgot, if_pos rfl] at hstep
    refine RunsAlone.of_step ⟨hstep, rfl⟩ trivial rfl (ih (Function.update_self ..) ?_ ?_ hs)
    · intro u
      show Function.update c.locks.phase t (if _ then _ else _) u = _
      rw [hgot, if_pos rfl]
      by_cases hu : u = t
      · rw [hu, Function.update_self]
      · rw [Function.update_of_ne hu, hphase]
    · intro j
      show (c.locks.server.acquire i).2.isLocked j = _
      rw [hflag, hheld]
      simp [Finset.mem_insert, Bool.or_comm, eq_comm]
  | @release held s s' i k tr a _ ih =>
    have hen : c.locks.Enabled (.release t i []) := by
      refine ⟨by simp, ?_⟩
      rintro ⟨u, hu⟩
      rw [hphase] at hu
      cases hu
    refine RunsAlone.of_step ⟨Step.release hp hen, rfl⟩ trivial rfl
      (ih (Function.update_self ..) ?_ ?_ hs)
    · intro u
      show (if u ∈ ([] : List τ) then (c.locks.phase u).wake else c.locks.phase u) = _
      rw [if_neg List.not_mem_nil, hphase]
    · intro j
      show (c.locks.server.release i).isLocked j = _
      rw [LockServer.isLocked_release, hheld]
      simp [Finset.mem_erase, Bool.and_comm]
  | @call held s s' e k tr a env _ ih =>
    subst hs
    refine RunsAlone.of_step ⟨Step.call hp (.reply env), rfl⟩ ?_ rfl
      (ih (Function.update_self ..) hphase hheld rfl)
    intro f hf
    cases hf

end Lookup

end FileSystem
