/-
# Removing the callbacks of a descriptor (`rpc/pollmgr.cc`, class `PollMgr`)

`block_remove_fd(fd)` takes `fd` out of the sets of `SelectAio`, sets `pending_change_`, waits for the
poll thread to broadcast `changedone_c_` at the top of its loop, and clears `callbacks_[fd]`.  Its comment
promises that callbacks for `fd` will never be called again.

* Any number of threads call `add_callback`, `del_callback` and `block_remove_fd`, for any descriptors;
  the critical sections of `m_` are steps.  The poll thread may call the first two from a callback.
* `Turn`: the loop broadcasts, copies the sets, comes back from `select`, and runs through the ready
  descriptors.  It looks at `callbacks_[fd]` once for the test and once for the call, without `m_`; a null
  pointer at the second look ends the process.
* `pthread_cond_wait` returns after a broadcast only, and the poll thread does not call
  `block_remove_fd`.
* `removed` records for which descriptors `block_remove_fd` has returned and `add_callback` has not been
  called since.

A remover is woken at the top of the loop, when the loop holds no copy of the sets, and the next copy is
without its descriptor, unless `add_callback` puts it back meanwhile.  So no callback of a removed
descriptor runs in the runs in which `add_callback(fd)` is not called while `block_remove_fd(fd)` is under
way (`removed_quiet`), and after every other `add_callback` one can run (`call_reachable`).
-/
import Yfs.SelectAio

namespace PollMgr

/-- `MAX_POLL_FDS`. -/
def maxPollFds : ℕ := 128

/-- Where a thread is with `block_remove_fd`. -/
inductive Remover
  | idle
  /-- in the wait for `changedone_c_` -/
  | waiting (fd : ℕ)
  /-- woken, before `callbacks_[fd] = NULL` -/
  | woken (fd : ℕ)
  deriving DecidableEq, Repr

/-- The thread has called `block_remove_fd(fd)`, which has not returned. -/
def Remover.removes : Remover → ℕ → Bool
  | idle, _ => false
  | waiting fd', fd => fd' == fd
  | woken fd', fd => fd' == fd

/-- What a broadcast does to a thread. -/
def Remover.wake : Remover → Remover
  | waiting fd => woken fd
  | r => r

theorem Remover.wake_ne_waiting (r : Remover) {fd : ℕ} : r.wake ≠ waiting fd := by
  cases r <;> simp [wake]

theorem Remover.of_wake_eq_woken {r : Remover} {fd : ℕ} (h : r.wake = woken fd) :
    r = waiting fd ∨ r = woken fd := by
  cases r <;> simp_all [wake]

/-- A call of the loop: `read_cb(fd)` or `write_cb(fd)`. -/
inductive Callback
  | read (fd : ℕ)
  | write (fd : ℕ)
  deriving DecidableEq, Repr

def Callback.fd : Callback → ℕ
  | read fd => fd
  | write fd => fd

/-- Where `wait_loop` is; `todo` are the turns that its two `for` loops have left. -/
inductive Turn
  /-- before `if (pending_change_)` -/
  | top
  /-- before the copy of the sets in `wait_ready` -/
  | waitReady
  /-- in `select`, with the copy -/
  | selecting (copy : SelectAio)
  /-- before `if (callbacks_[fd])` for the first descriptor of `todo` -/
  | looping (todo : List Callback)
  /-- after the test, before the call -/
  | invoking (cb : Callback) (todo : List Callback)
  /-- in the callback -/
  | running (cb : Callback) (todo : List Callback)
  /-- a call through a null pointer -/
  | crashed

/-- The loop is in a callback of the descriptor. -/
def Turn.runs : Turn → ℕ → Bool
  | running cb _, fd => cb.fd == fd
  | _, _ => false

/-- The loop may still come to a callback of the descriptor in this turn, or is in one. -/
def Turn.Holds : Turn → ℕ → Prop
  | top, _ => False
  | waitReady, _ => False
  | selecting copy, fd => copy.Watched fd
  | looping todo, fd => ∃ cb ∈ todo, cb.fd = fd
  | invoking cb todo, fd => cb.fd = fd ∨ ∃ cb ∈ todo, cb.fd = fd
  | running cb todo, fd => cb.fd = fd ∨ ∃ cb ∈ todo, cb.fd = fd
  | crashed, _ => False

/-- The fields of `PollMgr`, its threads and its loop. -/
structure Manager (κ τ : Type) where
  aio : SelectAio
  callbacks : ℕ → Option κ
  pendingChange : Bool
  remover : τ → Remover
  turn : Turn
  removed : ℕ → Bool

/-- The steps: the critical sections of `add_callback`, `del_callback` and `block_remove_fd`, and those
of the loop. -/
inductive Op (κ τ : Type)
  | addCallback (fd : ℕ) (flag : PollFlag) (ch : κ)
  | delCallback (fd : ℕ) (flag : PollFlag)
  | blockRemoveFd (t : τ) (fd : ℕ)
  | removeDone (t : τ)
  | changeDone
  | copySets
  | selected (r w : ℕ → Bool)
  | test
  | call
  | callDone

namespace Manager

variable {κ τ : Type} [DecidableEq κ] [DecidableEq τ]

/-- The constructor of `PollMgr`, with the pipe of its `SelectAio`. -/
def init (pipe : ℕ) : Manager κ τ where
  aio := .init pipe
  callbacks := fun _ => none
  pendingChange := false
  remover := fun _ => .idle
  turn := .top
  removed := fun _ => false

/-- The threads after the top of the loop, where the broadcast is made if a change is pending. -/
def wakeRemovers (s : Manager κ τ) : τ → Remover :=
  if s.pendingChange then fun t => (s.remover t).wake else s.remover

/-- The state after a step; `none` when the step is not next, or when a `VERIFY` fails.  An interrupted
`select` finds nothing. -/
def next (s : Manager κ τ) : Op κ τ → Option (Manager κ τ)
  | .addCallback fd flag ch =>
    if fd < maxPollFds ∧ (s.callbacks fd = none ∨ s.callbacks fd = some ch) then
      some { s with
        aio := s.aio.watchFd fd flag
        callbacks := Function.update s.callbacks fd (some ch)
        removed := Function.update s.removed fd false }
    else none
  | .delCallback fd flag =>
    (s.aio.unwatchFd fd flag).map (fun x =>
      { s with
        aio := x.2
        callbacks := if x.1 then Function.update s.callbacks fd none else s.callbacks })
  | .blockRemoveFd t fd =>
    if s.remover t = .idle then
      (s.aio.unwatchFd fd .CB_RDWR).map (fun x =>
        { s with
          aio := x.2
          pendingChange := true
          remover := Function.update s.remover t (.waiting fd) })
    else none
  | .removeDone t =>
    match s.remover t with
    | .woken fd =>
      some { s with
        callbacks := Function.update s.callbacks fd none
        remover := Function.update s.remover t .idle
        removed := Function.update s.removed fd true }
    | _ => none
  | .changeDone =>
    match s.turn with
    | .top =>
      some { s with
        pendingChange := false
        remover := s.wakeRemovers
        turn := .waitReady }
    | _ => none
  | .copySets =>
    match s.turn with
    | .waitReady => some { s with turn := .selecting s.aio }
    | _ => none
  | .selected r w =>
    match s.turn with
    | .selecting copy =>
      some { s with
        turn := .looping
          ((copy.waitReady r w).1.map Callback.read ++ (copy.waitReady r w).2.map Callback.write) }
    | _ => none
  | .test =>
    match s.turn with
    | .looping [] => some { s with turn := .top }
    | .looping (cb :: todo) =>
      some { s with turn := if s.callbacks cb.fd = none then .looping todo else .invoking cb todo }
    | _ => none
  | .call =>
    match s.turn with
    | .invoking cb todo =>
      some { s with turn := if s.callbacks cb.fd = none then .crashed else .running cb todo }
    | _ => none
  | .callDone =>
    match s.turn with
    | .running _ todo => some { s with turn := .looping todo }
    | _ => none

def Step (s : Manager κ τ) (a : Op κ τ) (s' : Manager κ τ) : Prop := s.next a = some s'

/-- `add_callback(fd)` is not called while `block_remove_fd(fd)` is under way. -/
def NoReturn (s : Manager κ τ) : Op κ τ → Prop
  | .addCallback fd _ _ => ∀ t, (s.remover t).removes fd = false
  | _ => True

/-! ## What a turn holds -/

/-- The descriptor is in neither set, and the present turn of the loop does not come to it. -/
def Clear (s : Manager κ τ) (fd : ℕ) : Prop := ¬ s.aio.Watched fd ∧ ¬ s.turn.Holds fd

/-- Descriptors that are being removed are not watched; from the broadcast on, and when they have been
removed, they are clear. -/
structure Removing (s : Manager κ τ) : Prop where
  waiting : ∀ t fd, s.remover t = .waiting fd → ¬ s.aio.Watched fd
  woken : ∀ t fd, s.remover t = .woken fd → Clear s fd
  removed : ∀ fd, s.removed fd = true → Clear s fd

section Removing

variable {s s' : Manager κ τ}

omit [DecidableEq κ] [DecidableEq τ] in
theorem removing_init (pipe : ℕ) : Removing (init pipe : Manager κ τ) := by
  refine ⟨?_, ?_, ?_⟩
  · intro t fd h
    cases h
  · intro t fd h
    cases h
  · intro fd h
    cases h

omit [DecidableEq κ] [DecidableEq τ] in
/-- A thread that still waits, at a time when there was nothing to broadcast. -/
theorem waiting_of_wakeRemovers {t : τ} {fd : ℕ} (h : s.wakeRemovers t = .waiting fd) :
    s.remover t = .waiting fd ∧ s.pendingChange = false := by
  unfold wakeRemovers at h
  split_ifs at h with hp
  · exact absurd h (s.remover t).wake_ne_waiting
  · exact ⟨h, by simpa using hp⟩

omit [DecidableEq κ] [DecidableEq τ] in
theorem woken_of_wakeRemovers {t : τ} {fd : ℕ} (h : s.wakeRemovers t = .woken fd) :
    s.remover t = .waiting fd ∨ s.remover t = .woken fd := by
  unfold wakeRemovers at h
  split_ifs at h
  · exact Remover.of_wake_eq_woken h
  · exact .inr h

omit [DecidableEq κ] [DecidableEq τ] in
/-- A step that watches nothing new, and whose turn holds nothing that was neither held nor watched. -/
theorem Removing.mono (h : Removing s) (hw : ∀ fd, s'.aio.Watched fd → s.aio.Watched fd)
    (ht : ∀ fd, s'.turn.Holds fd → s.turn.Holds fd ∨ s.aio.Watched fd) (hr : s'.remover = s.remover)
    (hd : s'.removed = s.removed) : Removing s' := by
  have hclear : ∀ fd, Clear s fd → Clear s' fd := fun fd hc =>
    ⟨fun hfd => hc.1 (hw fd hfd), fun hfd => (ht fd hfd).elim hc.2 hc.1⟩
  refine ⟨?_, ?_, ?_⟩
  · intro t fd hfd
    rw [hr] at hfd
    exact fun hwatch => h.waiting t fd hfd (hw fd hwatch)
  · intro t fd hfd
    rw [hr] at hfd
    exact hclear fd (h.woken t fd hfd)
  · intro fd hfd
    rw [hd] at hfd
    exact hclear fd (h.removed fd hfd)

/-- **Every step keeps removed descriptors clear**, unless `add_callback` puts a descriptor back that is
being removed. -/
theorem Removing.step {a : Op κ τ} (h : Removing s) (hC : s.NoReturn a) (hs : Step s a s') :
    Removing s' := by
  unfold Step at hs
  cases a with
  | addCallback fd flag ch =>
    simp only [next] at hs
    split_ifs at hs
    obtain rfl := Option.some.inj hs
    -- the descriptors that are being removed or have been are others
    have hclear : ∀ fd', fd' ≠ fd → Clear s fd' →
        ¬ (s.aio.watchFd fd flag).Watched fd' ∧ ¬ s.turn.Holds fd' := by
      intro fd' hne hc
      rw [SelectAio.watched_watchFd]
      exact ⟨not_or.2 ⟨hc.1, hne⟩, hc.2⟩
    have hne : ∀ t fd', (s.remover t).removes fd' = true → fd' ≠ fd := by
      rintro t fd' hrem rfl
      rw [hC t] at hrem
      cases hrem
    refine ⟨?_, ?_, ?_⟩
    · intro t fd' hfd
      show ¬ (s.aio.watchFd fd flag).Watched fd'
      rw [SelectAio.watched_watchFd]
      refine not_or.2 ⟨h.waiting t fd' hfd, hne t fd' ?_⟩
      rw [show s.remover t = _ from hfd]
      exact beq_self_eq_true fd'
    · intro t fd' hfd
      refine hclear fd' (hne t fd' ?_) (h.woken t fd' hfd)
      rw [show s.remover t = _ from hfd]
      exact beq_self_eq_true fd'
    · intro fd' hfd
      have hfd' : Function.update s.removed fd false fd' = true := hfd
      by_cases heq : fd' = fd
      · rw [heq, Function.update_self] at hfd'
        cases hfd'
      · rw [Function.update_of_ne heq] at hfd'
        exact hclear fd' heq (h.removed fd' hfd')
  | delCallback fd flag =>
    obtain ⟨⟨ok, aio⟩, hun, rfl⟩ := Option.map_eq_some_iff.1 hs
    exact h.mono (fun _ => SelectAio.watched_of_unwatchFd hun) (fun _ => .inl) rfl rfl
  | blockRemoveFd t fd =>
    simp only [next] at hs
    split_ifs at hs
    obtain ⟨⟨ok, aio⟩, hun, rfl⟩ := Option.map_eq_some_iff.1 hs
    have hclear : ∀ fd', Clear s fd' → ¬ aio.Watched fd' ∧ ¬ s.turn.Holds fd' := fun fd' hc =>
      ⟨fun hfd => hc.1 (SelectAio.watched_of_unwatchFd hun hfd), hc.2⟩
    refine ⟨?_, ?_, fun fd' hfd => hclear fd' (h.removed fd' hfd)⟩
    · intro u fd' hfd
      have hfd' : Function.update s.remover t (.waiting fd) u = .waiting fd' := hfd
      by_cases hu : u = t
      · rw [hu, Function.update_self] at hfd'
        obtain rfl := Remover.waiting.inj hfd'
        exact SelectAio.not_watched_of_unwatchFd hun
      · rw [Function.update_of_ne hu] at hfd'
        exact fun hw => h.waiting u fd' hfd' (SelectAio.watched_of_unwatchFd hun hw)
    · intro u fd' hfd
      have hfd' : Function.update s.remover t (.waiting fd) u = .woken fd' := hfd
      by_cases hu : u = t
      · rw [hu, Function.update_self] at hfd'
        cases hfd'
      · rw [Function.update_of_ne hu] at hfd'
        exact hclear fd' (h.woken u fd' hfd')
  | removeDone t =>
    simp only [next] at hs
    split at hs
    · rename_i fd hfd
      obtain rfl := Option.some.inj hs
      have hold : ∀ u r, r ≠ .idle → Function.update s.remover t .idle u = r → s.remover u = r := by
        intro u r hr hu
        by_cases hut : u = t
        · rw [hut, Function.update_self] at hu
          exact absurd hu.symm hr
        · rwa [Function.update_of_ne hut] at hu
      refine ⟨?_, ?_, ?_⟩
      · exact fun u fd' hu => h.waiting u fd' (hold u _ (by simp) hu)
      · exact fun u fd' hu => h.woken u fd' (hold u _ (by simp) hu)
      · intro fd' hfd'
        have hrem : Function.update s.removed fd true fd' = true := hfd'
        by_cases heq : fd' = fd
        · rw [heq]
          exact h.woken t fd hfd
        · rw [Function.update_of_ne heq] at hrem
          exact h.removed fd' hrem
    · cases hs
  | changeDone =>
    simp only [next] at hs
    split at hs
    · obtain rfl := Option.some.inj hs
      refine ⟨?_, ?_, fun fd hfd => ⟨(h.removed fd hfd).1, id⟩⟩
      · exact fun t fd hfd => h.waiting t fd (waiting_of_wakeRemovers hfd).1
      · -- whoever is woken here waits for a descriptor that is not watched
        intro t fd hfd
        refine ⟨?_, id⟩
        rcases woken_of_wakeRemovers hfd with hr | hr
        · exact h.waiting t fd hr
        · exact (h.woken t fd hr).1
    · cases hs
  | copySets =>
    simp only [next] at hs
    split at hs
    · obtain rfl := Option.some.inj hs
      exact h.mono (fun _ => id) (fun _ => .inr) rfl rfl
    · cases hs
  | selected r w =>
    simp only [next] at hs
    split at hs
    · rename_i copy hturn
      obtain rfl := Option.some.inj hs
      refine h.mono (fun _ => id) (fun fd hfd => .inl ?_) rfl rfl
      rw [hturn]
      obtain ⟨cb, hcb, rfl⟩ := hfd
      refine SelectAio.watched_of_mem_waitReady (r := r) (w := w) ?_
      rcases List.mem_append.1 hcb with hcb | hcb
      · obtain ⟨fd, hfd, rfl⟩ := List.mem_map.1 hcb
        exact .inl hfd
      · obtain ⟨fd, hfd, rfl⟩ := List.mem_map.1 hcb
        exact .inr hfd
    · cases hs
  | test =>
    simp only [next] at hs
    split at hs
    · obtain rfl := Option.some.inj hs
      exact h.mono (fun _ => id) (fun _ hfd => hfd.elim) rfl rfl
    · rename_i cb todo hturn
      obtain rfl := Option.some.inj hs
      refine h.mono (fun _ => id) (fun fd hfd => .inl ?_) rfl rfl
      rw [hturn]
      simp only at hfd
      split_ifs at hfd
      · obtain ⟨cb', hcb', rfl⟩ := hfd
        exact ⟨cb', List.mem_cons_of_mem _ hcb', rfl⟩
      · rcases hfd with rfl | ⟨cb', hcb', rfl⟩
        · exact ⟨cb, List.mem_cons_self .., rfl⟩
        · exact ⟨cb', List.mem_cons_of_mem _ hcb', rfl⟩
    · cases hs
  | call =>
    simp only [next] at hs
    split at hs
    · rename_i cb todo hturn
      obtain rfl := Option.some.inj hs
      refine h.mono (fun _ => id) (fun fd hfd => .inl ?_) rfl rfl
      rw [hturn]
      simp only at hfd
      split_ifs at hfd
      · exact hfd.elim
      · exact hfd
    · cases hs
  | callDone =>
    simp only [next] at hs
    split at hs
    · rename_i cb todo hturn
      obtain rfl := Option.some.inj hs
      refine h.mono (fun _ => id) (fun fd hfd => .inl ?_) rfl rfl
      rw [hturn]
      exact .inr hfd
    · cases hs

end Removing

/-! ## No callback after the removal -/

/-- **A callback never runs after its descriptor was removed**, in the runs in which no descriptor is
added while it is being removed. -/
theorem removed_quiet {pipe : ℕ} {t : List (Op κ τ)} {s : Manager κ τ}
    (hrun : Trace (Guarded NoReturn Step) (init pipe) t s) {fd : ℕ} (hfd : s.removed fd = true) :
    s.turn.runs fd = false ∧ ∀ s', Step s .call s' → s'.turn.runs fd = false := by
  have h : Removing s :=
    Trace.invariant (removing_init pipe) (fun _ _ _ hi hs => hi.step hs.1 hs.2) hrun
  have hclear := (h.removed fd hfd).2
  constructor
  · cases hturn : s.turn with
    | running cb todo =>
      rw [hturn] at hclear
      exact beq_eq_false_iff_ne.2 (fun he => hclear (.inl he))
    | _ => rfl
  · intro s' hs
    unfold Step at hs
    simp only [next] at hs
    split at hs
    · rename_i cb todo hturn
      obtain rfl := Option.some.inj hs
      rw [hturn] at hclear
      simp only
      split_ifs
      · rfl
      · exact beq_eq_false_iff_ne.2 (fun he => hclear (.inl he))
    · cases hs

instance [Fintype τ] (s : Manager κ τ) (a : Op κ τ) : Decidable (s.NoReturn a) :=
  match a with
  | .addCallback fd _ _ => inferInstanceAs (Decidable (∀ t, (s.remover t).removes fd = false))
  | .delCallback _ _ => .isTrue trivial
  | .blockRemoveFd _ _ => .isTrue trivial
  | .removeDone _ => .isTrue trivial
  | .changeDone => .isTrue trivial
  | .copySets => .isTrue trivial
  | .selected _ _ => .isTrue trivial
  | .test => .isTrue trivial
  | .call => .isTrue trivial
  | .callDone => .isTrue trivial

/-- Descriptor 5 is removed while its callback runs. -/
theorem removed_quiet_running :
    ∃ (t : List (Op Unit Unit)) (s : Manager Unit Unit),
      Trace (Guarded NoReturn Step) (init 3) t s ∧ s.removed 5 = true ∧ s.turn.runs 5 = false := by
  let ops : List (Op Unit Unit) := [.addCallback 5 .CB_RDONLY (), .changeDone, .copySets,
    .selected (· == 5) (· == 5), .test, .call, .blockRemoveFd () 5, .callDone, .test, .changeDone,
    .removeDone ()]
  have hany : (Trace.runWith next NoReturn (init 3) ops).any (fun s => s.removed 5) = true := by decide
  obtain ⟨s, hrun, hp⟩ := Trace.exists_of_runWith hany
  exact ⟨_, s, hrun, hp, (removed_quiet hrun hp).1⟩

/-- `add_callback` for descriptor 5 between the beginning and the return of its `block_remove_fd`: the
callback runs when `block_remove_fd` returns. -/
theorem called_after_removal :
    ∃ (t : List (Op Unit Unit)) (s : Manager Unit Unit),
      Trace Step (init 3) t s ∧ s.removed 5 = true ∧ s.turn.runs 5 = true := by
  let ops : List (Op Unit Unit) := [.addCallback 5 .CB_RDONLY (), .blockRemoveFd () 5,
    .addCallback 5 .CB_RDONLY (), .changeDone, .copySets, .selected (· == 5) (· == 5), .test, .call,
    .removeDone ()]
  have hany : (Trace.runWith next (fun _ _ => True) (init 3) ops).any
      (fun s => s.removed 5 && s.turn.runs 5) = true := by decide
  obtain ⟨s, hrun, hp⟩ := Trace.exists_of_runWith hany
  rw [Bool.and_eq_true] at hp
  exact ⟨_, s, hrun.mono (fun _ _ _ h => h.2), hp.1, hp.2⟩

/-! ## The other runs -/

section Readded

variable {s s' : Manager κ τ} {fd : ℕ}

/-- A thread begins to wait with a change pending, and the broadcast that takes the change back wakes
it. -/
theorem pending_step {a : Op κ τ}
    (ih : ∀ t fd, s.remover t = .waiting fd → s.pendingChange = true) (hs : Step s a s') :
    ∀ t fd, s'.remover t = .waiting fd → s'.pendingChange = true := by
  intro t fd ht
  unfold Step at hs
  cases a with
  | addCallback =>
    simp only [next] at hs
    split_ifs at hs
    obtain rfl := Option.some.inj hs
    exact ih t fd ht
  | delCallback =>
    obtain ⟨x, -, rfl⟩ := Option.map_eq_some_iff.1 hs
    exact ih t fd ht
  | copySets | selected | call | callDone =>
    simp only [next] at hs
    split at hs
    · obtain rfl := Option.some.inj hs
      exact ih t fd ht
    · cases hs
  | test =>
    simp only [next] at hs
    split at hs
    · obtain rfl := Option.some.inj hs
      exact ih t fd ht
    · obtain rfl := Option.some.inj hs
      exact ih t fd ht
    · cases hs
  | blockRemoveFd u fd' =>
    simp only [next] at hs
    split_ifs at hs
    obtain ⟨x, -, rfl⟩ := Option.map_eq_some_iff.1 hs
    rfl
  | removeDone u =>
    simp only [next] at hs
    split at hs
    · obtain rfl := Option.some.inj hs
      have ht' : Function.update s.remover u .idle t = .waiting fd := ht
      by_cases hut : t = u
      · rw [hut, Function.update_self] at ht'
        cases ht'
      · rw [Function.update_of_ne hut] at ht'
        exact ih t fd ht'
    · cases hs
  | changeDone =>
    simp only [next] at hs
    split at hs
    · obtain rfl := Option.some.inj hs
      obtain ⟨ht', hp⟩ := waiting_of_wakeRemovers ht
      rw [ih t fd ht'] at hp
      cases hp
    · cases hs

/-- While a thread waits, there is a change pending: its broadcast comes. -/
theorem pending_of_waiting {pipe : ℕ} {tr : List (Op κ τ)}
    (hrun : Trace Step (init pipe) tr s) {t : τ} (ht : s.remover t = .waiting fd) :
    s.pendingChange = true := by
  have hinit : ∀ t fd, (init pipe : Manager κ τ).remover t = .waiting fd →
      (init pipe : Manager κ τ).pendingChange = true := by
    intro t fd h
    cases h
  exact hrun.invariant hinit (fun _ _ _ ih hs => pending_step ih hs) t fd ht

/-- The loop can go on: it is not about to call through a null pointer. -/
def Live (s : Manager κ τ) : Prop :=
  s.turn ≠ .crashed ∧ ∀ cb todo, s.turn = .invoking cb todo → s.callbacks cb.fd ≠ none

/-- The loop gets through the rest of its turn, and nothing else changes. -/
theorem exists_top_of_looping (todo : List Callback) :
    ∀ s : Manager κ τ, s.turn = .looping todo → ∃ tr, Trace Step s tr { s with turn := .top } := by
  induction todo with
  | nil =>
    intro s hturn
    exact ⟨_, .single (a := .test) (by simp [Step, next, hturn])⟩
  | cons cb todo ih =>
    intro s hturn
    obtain ⟨tr, hrest⟩ := ih { s with turn := .looping todo } rfl
    by_cases hnone : s.callbacks cb.fd = none
    · have h1 : Step s .test { s with turn := .looping todo } := by simp [Step, next, hturn, hnone]
      exact ⟨_, (Trace.single h1).append hrest⟩
    · have h1 : Step s .test { s with turn := .invoking cb todo } := by simp [Step, next, hturn, hnone]
      have h2 : Step { s with turn := .invoking cb todo } .call { s with turn := .running cb todo } := by
        simp [Step, next, hnone]
      have h3 : Step { s with turn := .running cb todo } .callDone { s with turn := .looping todo } := rfl
      exact ⟨_, (((Trace.single h1).snoc h2).snoc h3).append hrest⟩

theorem exists_top (h : Live s) : ∃ tr, Trace Step s tr { s with turn := .top } := by
  have hselecting : ∀ (s : Manager κ τ) copy, s.turn = .selecting copy →
      ∃ tr, Trace Step s tr { s with turn := .top } := by
    intro s copy hturn
    have h1 : Step s (.selected (fun _ => false) (fun _ => false)) { s with
        turn := .looping ((copy.waitReady (fun _ => false) (fun _ => false)).1.map Callback.read ++
          (copy.waitReady (fun _ => false) (fun _ => false)).2.map Callback.write) } := by
      simp [Step, next, hturn]
    obtain ⟨tr, hrest⟩ := exists_top_of_looping _ { s with
      turn := .looping ((copy.waitReady (fun _ => false) (fun _ => false)).1.map Callback.read ++
        (copy.waitReady (fun _ => false) (fun _ => false)).2.map Callback.write) } rfl
    exact ⟨_, (Trace.single h1).append hrest⟩
  have hrunning : ∀ (s : Manager κ τ) cb todo, s.turn = .running cb todo →
      ∃ tr, Trace Step s tr { s with turn := .top } := by
    intro s cb todo hturn
    have h1 : Step s .callDone { s with turn := .looping todo } := by simp [Step, next, hturn]
    obtain ⟨tr, hrest⟩ := exists_top_of_looping todo { s with turn := .looping todo } rfl
    exact ⟨_, (Trace.single h1).append hrest⟩
  cases hturn : s.turn with
  | top =>
    have heq : { s with turn := .top } = s := by rw [← hturn]
    rw [heq]
    exact ⟨[], .nil⟩
  | waitReady =>
    have h1 : Step s .copySets { s with turn := .selecting s.aio } := by simp [Step, next, hturn]
    obtain ⟨tr, hrest⟩ := hselecting { s with turn := .selecting s.aio } s.aio rfl
    exact ⟨_, (Trace.single h1).append hrest⟩
  | selecting copy => exact hselecting s copy hturn
  | looping todo => exact exists_top_of_looping todo s hturn
  | invoking cb todo =>
    have hsome := h.2 cb todo hturn
    have h1 : Step s .call { s with turn := .running cb todo } := by simp [Step, next, hturn, hsome]
    obtain ⟨tr, hrest⟩ := hrunning { s with turn := .running cb todo } cb todo rfl
    exact ⟨_, (Trace.single h1).append hrest⟩
  | running cb todo => exact hrunning s cb todo hturn
  | crashed => exact absurd hturn h.1

/-- A turn in which only `fd` is ready: the loop calls its callback. -/
theorem exists_runs_of_top (hturn : s.turn = .top) (haio : s.aio.Tracks) (hpipe : fd ≠ s.aio.pipe)
    (hwatched : s.aio.Watched fd) (hsome : s.callbacks fd ≠ none) :
    ∃ tr cb todo, cb.fd = fd ∧ Trace Step s tr { s with
      pendingChange := false
      remover := s.wakeRemovers
      turn := .running cb todo } := by
  have hmem := SelectAio.mem_waitReady haio (· == fd) (· == fd) hpipe
  have honly : ∀ cb ∈ (s.aio.waitReady (· == fd) (· == fd)).1.map Callback.read ++
      (s.aio.waitReady (· == fd) (· == fd)).2.map Callback.write, cb.fd = fd := by
    intro cb hcb
    rw [SelectAio.waitReady_eq haio] at hcb
    rcases List.mem_append.1 hcb with hcb | hcb
    · obtain ⟨i, hi, rfl⟩ := List.mem_map.1 hcb
      simp only [List.mem_filter, decide_eq_true_eq] at hi
      exact eq_of_beq hi.2.2.1
    · obtain ⟨i, hi, rfl⟩ := List.mem_map.1 hcb
      simp only [List.mem_filter, decide_eq_true_eq] at hi
      exact eq_of_beq hi.2.2
  have hne : (s.aio.waitReady (· == fd) (· == fd)).1.map Callback.read ++
      (s.aio.waitReady (· == fd) (· == fd)).2.map Callback.write ≠ [] := by
    intro hnil
    obtain ⟨hr, hw⟩ := List.append_eq_nil_iff.1 hnil
    rw [List.map_eq_nil_iff] at hr hw
    rw [hr, hw] at hmem
    rcases hwatched with hfd | hfd
    · exact absurd (hmem.1.2 ⟨hfd, beq_self_eq_true fd⟩) (List.not_mem_nil)
    · exact absurd (hmem.2.2 ⟨hfd, beq_self_eq_true fd⟩) (List.not_mem_nil)
  obtain ⟨cb, todo, hlist⟩ := List.exists_cons_of_ne_nil hne
  have hcb : cb.fd = fd := honly cb (by rw [hlist]; exact List.mem_cons_self ..)
  have h1 : Step s .changeDone { s with
      pendingChange := false
      remover := s.wakeRemovers
      turn := .waitReady } := by simp [Step, next, hturn]
  have h2 : Step { s with pendingChange := false, remover := s.wakeRemovers, turn := .waitReady }
      .copySets { s with
        pendingChange := false
        remover := s.wakeRemovers
        turn := .selecting s.aio } := rfl
  have h3 : Step { s with pendingChange := false, remover := s.wakeRemovers, turn := .selecting s.aio }
      (.selected (· == fd) (· == fd)) { s with
        pendingChange := false
        remover := s.wakeRemovers
        turn := .looping (cb :: todo) } := by simp only [Step, next, hlist]
  have h4 : Step { s with pendingChange := false, remover := s.wakeRemovers, turn := .looping (cb :: todo) }
      .test { s with
        pendingChange := false
        remover := s.wakeRemovers
        turn := .invoking cb todo } := by simp only [Step, next, hcb, hsome, if_false]
  have h5 : Step { s with pendingChange := false, remover := s.wakeRemovers, turn := .invoking cb todo }
      .call { s with
        pendingChange := false
        remover := s.wakeRemovers
        turn := .running cb todo } := by simp only [Step, next, hcb, hsome, if_false]
  exact ⟨_, cb, todo, hcb, ((((Trace.single h1).snoc h2).snoc h3).snoc h4).snoc h5⟩

/-- **The condition is exact**: after an `add_callback(fd)` while `block_remove_fd(fd)` is under way, and
as long as the loop can go on, `block_remove_fd` can return while a callback of `fd` runs. -/
theorem call_reachable {pipe : ℕ} {tr : List (Op κ τ)} (hrun : Trace Step (init pipe) tr s)
    (haio : s.aio.Tracks) (hpipe : fd ≠ s.aio.pipe) {flag : PollFlag} {ch : κ} {t : τ}
    (hrem : (s.remover t).removes fd = true) (hs : Step s (.addCallback fd flag ch) s')
    (hlive : Live s') :
    ∃ tr' s'', Trace Step s' tr' s'' ∧ s''.removed fd = true ∧ s''.turn.runs fd = true := by
  unfold Step at hs
  simp only [next] at hs
  split_ifs at hs
  obtain rfl := Option.some.inj hs
  obtain ⟨tr₁, h₁⟩ := exists_top hlive
  have hsome : Function.update s.callbacks fd (some ch) fd ≠ none := by
    rw [Function.update_self]
    simp
  obtain ⟨tr₂, cb, todo, hcb, h₂⟩ := exists_runs_of_top (s := { s with
      aio := s.aio.watchFd fd flag
      callbacks := Function.update s.callbacks fd (some ch)
      turn := .top
      removed := Function.update s.removed fd false }) rfl (haio.watchFd hpipe)
    (by rw [SelectAio.pipe_watchFd]; exact hpipe) (SelectAio.watched_watchFd.2 (.inr rfl))
    hsome
  have hwoken : s.wakeRemovers t = .woken fd := by
    unfold wakeRemovers
    cases hr : s.remover t with
    | idle =>
      rw [hr] at hrem
      cases hrem
    | waiting fd' =>
      rw [hr] at hrem
      obtain rfl : fd' = fd := eq_of_beq hrem
      rw [pending_of_waiting hrun hr, if_pos rfl]
      show (s.remover t).wake = .woken fd'
      rw [hr]
      rfl
    | woken fd' =>
      rw [hr] at hrem
      obtain rfl : fd' = fd := eq_of_beq hrem
      split_ifs
      · show (s.remover t).wake = .woken fd'
        rw [hr]
        rfl
      · exact hr
  -- the remover returns while the callback runs
  have h₃ : Step { s with
        aio := s.aio.watchFd fd flag
        callbacks := Function.update s.callbacks fd (some ch)
        pendingChange := false
        remover := s.wakeRemovers
        turn := .running cb todo
        removed := Function.update s.removed fd false } (.removeDone t) { s with
      aio := s.aio.watchFd fd flag
      callbacks := Function.update (Function.update s.callbacks fd (some ch)) fd none
      pendingChange := false
      remover := Function.update s.wakeRemovers t .idle
      turn := .running cb todo
      removed := Function.update (Function.update s.removed fd false) fd true } := by
    simp only [Step, next, hwoken]
  exact ⟨_, _, (h₁.append h₂).snoc h₃, Function.update_self .., beq_iff_eq.2 hcb⟩

end Readded

end Manager

end PollMgr
