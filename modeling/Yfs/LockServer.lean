/-
# The lock server (`lock_server.cc`, `lock_server.h`)

`lock_server` keeps one `lock_entry` for each lock id it has seen: a flag and a condition variable.
`acquire` and `release` run in server threads and touch the table only between `pthread_mutex_lock`
and the next `pthread_mutex_unlock` or `pthread_cond_wait`, so a run is an interleaving of these
critical sections:

* the first one of `acquire`, which creates the entry, takes the lock or goes to sleep;
* the loop test of `acquire` after a wake-up, which takes the lock or goes to sleep again;
* the one of `release`, which frees the lock and signals: some threads asleep on the entry are woken,
  at least one if there are any.

A sleeping thread may also wake up by itself.  What the clients have seen is kept in a log of the
answers, and a client holds a lock when the log says so (`Holds`).

The main results are

* `mutual_exclusion`: when only holders release, every lock has at most one holder;
* `no_lost_wakeup`: whoever releases, a thread that sleeps on a free lock is not alone: another one has
  been woken on it and will look at the entry.
-/
import Yfs.StdMap
import Yfs.Trace

/-- `lock_protocol::lockid_t`, an `unsigned long long`. -/
abbrev LockId := UInt64

/-- `lock_entry`.  Who sleeps on its condition variable is recorded with the threads. -/
structure LockEntry where
  locked : Bool
  deriving DecidableEq, Repr, Inhabited

/-- The state of `lock_server`. -/
structure LockServer where
  locks : StdMap LockId LockEntry
  nacquire : Int32

namespace LockServer

/-! ## The critical sections -/

/-- The constructor. -/
def init : LockServer where
  locks := fun _ => none
  nacquire := 0

/-- `locks_[lid].is_locked()`, the value. -/
def isLocked (s : LockServer) (lid : LockId) : Bool := (s.locks.get lid).locked

/-- `locks_[lid].set_locked(b)`: a missing entry is created. -/
def setLocked (s : LockServer) (lid : LockId) (b : Bool) : LockServer :=
  { s with locks := s.locks.set lid { s.locks.get lid with locked := b } }

/-- From a test of the loop condition of `acquire` to the next `wait` (`false`) or to the return of
the call (`true`). -/
def recheck (s : LockServer) (lid : LockId) : Bool × LockServer :=
  if s.isLocked lid then (false, { s with locks := s.locks.touch lid })
  else (true, s.setLocked lid true)

/-- `acquire` up to its first `wait` or its return. -/
def acquire (s : LockServer) (lid : LockId) : Bool × LockServer :=
  match s.locks lid with
  | none => (true, { s with locks := s.locks.set lid ⟨true⟩ })
  | some _ => s.recheck lid

/-- `release`, the wake-up of the waiters apart. -/
def release (s : LockServer) (lid : LockId) : LockServer := s.setLocked lid false

theorem isLocked_setLocked (s : LockServer) (lid : LockId) (b : Bool) (lid' : LockId) :
    (s.setLocked lid b).isLocked lid' = if lid' = lid then b else s.isLocked lid' := by
  by_cases h : lid' = lid
  · subst h
    simp [isLocked, setLocked]
  · simp [isLocked, setLocked, StdMap.get_set_of_ne, h]

/-- **Specification of the loop test**: it succeeds on a free lock, which it then takes. -/
theorem recheck_spec (s : LockServer) (lid : LockId) :
    (s.recheck lid).1 = !s.isLocked lid ∧
      ∀ lid', (s.recheck lid).2.isLocked lid' = (s.isLocked lid' || decide (lid' = lid)) := by
  unfold recheck
  cases h : s.isLocked lid with
  | false =>
    refine ⟨rfl, fun lid' => ?_⟩
    show (s.setLocked lid true).isLocked lid' = _
    rw [isLocked_setLocked]
    by_cases hl : lid' = lid <;> simp [hl]
  | true =>
    refine ⟨rfl, fun lid' => ?_⟩
    show ((s.locks.touch lid).get lid').locked = _
    rw [StdMap.get_touch]
    by_cases hl : lid' = lid
    · subst hl
      simp only [isLocked] at h
      simpa [isLocked] using h
    · simp [isLocked, hl]

/-- **Specification of `acquire`**: the same, whether or not the entry exists. -/
theorem acquire_spec (s : LockServer) (lid : LockId) :
    (s.acquire lid).1 = !s.isLocked lid ∧
      ∀ lid', (s.acquire lid).2.isLocked lid' = (s.isLocked lid' || decide (lid' = lid)) := by
  unfold acquire
  cases h : s.locks lid with
  | some entry => exact recheck_spec s lid
  | none =>
    have hfree : s.isLocked lid = false := by
      rw [isLocked, StdMap.get_of_none h]
      rfl
    refine ⟨by rw [hfree]; rfl, fun lid' => ?_⟩
    by_cases hl : lid' = lid
    · subst hl
      simp [isLocked]
    · simp [isLocked, StdMap.get_set_of_ne, hl]

theorem isLocked_release (s : LockServer) (lid lid' : LockId) :
    (s.release lid).isLocked lid' = (s.isLocked lid' && decide (lid' ≠ lid)) := by
  rw [release, isLocked_setLocked]
  by_cases hl : lid' = lid <;> simp [hl]

/-! ## Threads, wake-ups and the log -/

/-- Where a server thread stands: it runs no `acquire`, it sleeps in `pthread_cond_wait`, or it has
been woken and waits for the mutex.  `r` is the out-parameter, set when the call started. -/
inductive Phase (κ : Type)
  | idle
  | asleep (clt : κ) (lid : LockId) (r : Int32)
  | woken (clt : κ) (lid : LockId) (r : Int32)
  deriving DecidableEq, Repr

/-- The thread sleeps on the entry of `lid`. -/
def Phase.sleepsOn {κ : Type} (lid : LockId) : Phase κ → Bool
  | .asleep _ lid' _ => lid' == lid
  | _ => false

/-- A wake-up. -/
def Phase.wake {κ : Type} : Phase κ → Phase κ
  | .asleep clt lid r => .woken clt lid r
  | p => p

/-- The lock an `acquire` that has not returned waits for. -/
def Phase.awaits {κ : Type} : Phase κ → Option LockId
  | .idle => none
  | .asleep _ lid _ => some lid
  | .woken _ lid _ => some lid

theorem Phase.awaits_wake {κ : Type} (p : Phase κ) : p.wake.awaits = p.awaits := by
  cases p <;> rfl

/-- The answers of the server, in the order of the critical sections they come from. -/
inductive Answer (κ : Type)
  | acquired (clt : κ) (lid : LockId) (r : Int32)
  | released (clt : κ) (lid : LockId) (r : Int32)
  deriving DecidableEq, Repr

/-- The server with its threads `τ`, which serve the calls of the clients `κ`. -/
structure Sys (τ κ : Type) where
  server : LockServer
  phase : τ → Phase κ
  log : List (Answer κ)

/-- The critical sections and wake-ups, with the threads a signal wakes. -/
inductive Act (τ κ : Type)
  | acquire (th : τ) (clt : κ) (lid : LockId)
  | wakeup (th : τ)
  | recheck (th : τ)
  | release (clt : κ) (lid : LockId) (woken : List τ)
  deriving DecidableEq, Repr

variable {τ κ : Type} [DecidableEq τ]

/-- The system before the first call. -/
def Sys.start : Sys τ κ where
  server := init
  phase := fun _ => .idle
  log := []

/-- An end of a critical section of `acquire`: the call returns, or the thread sleeps. -/
def Sys.finish (s : Sys τ κ) (th : τ) (clt : κ) (lid : LockId) (r : Int32)
    (res : Bool × LockServer) : Sys τ κ where
  server := res.2
  phase := Function.update s.phase th (if res.1 then .idle else .asleep clt lid r)
  log := if res.1 then s.log ++ [.acquired clt lid r] else s.log

/-- When an action can happen. -/
def Sys.Enabled (s : Sys τ κ) : Act τ κ → Prop
  | .acquire th _ _ => s.phase th = .idle
  | .wakeup th => ∃ clt lid r, s.phase th = .asleep clt lid r
  | .recheck th => ∃ clt lid r, s.phase th = .woken clt lid r
  | .release _ lid woken => (∀ th ∈ woken, (s.phase th).sleepsOn lid) ∧
      ((∃ th, (s.phase th).sleepsOn lid) → woken ≠ [])

/-- What an action does. -/
def Sys.next (s : Sys τ κ) : Act τ κ → Sys τ κ
  | .acquire th clt lid => s.finish th clt lid s.server.nacquire (s.server.acquire lid)
  | .wakeup th => { s with phase := Function.update s.phase th (s.phase th).wake }
  | .recheck th =>
    match s.phase th with
    | .woken clt lid r => s.finish th clt lid r (s.server.recheck lid)
    | _ => s
  | .release clt lid woken =>
    { server := s.server.release lid
      phase := fun th => if th ∈ woken then (s.phase th).wake else s.phase th
      log := s.log ++ [.released clt lid s.server.nacquire] }

/-- The lock server as a labelled step relation. -/
def Step (s : Sys τ κ) (a : Act τ κ) (s' : Sys τ κ) : Prop := s.Enabled a ∧ s' = s.next a

/-! ## Holding a lock -/

/-- The client has returned from `acquire(lid)` without a later `release(lid)`. -/
def Holds (log : List (Answer κ)) (clt : κ) (lid : LockId) : Prop :=
  ∃ before r after, log = before ++ .acquired clt lid r :: after ∧
    ∀ r', .released clt lid r' ∉ after

theorem not_holds_nil (clt : κ) (lid : LockId) : ¬ Holds [] clt lid := by
  rintro ⟨before, r, after, h, -⟩
  simp at h

/-- What one more answer changes: a grant makes its client a holder, and a holder stops being one by
a release of its own. -/
theorem holds_snoc {log : List (Answer κ)} {x : Answer κ} {clt : κ} {lid : LockId} :
    Holds (log ++ [x]) clt lid ↔
      (∃ r, x = .acquired clt lid r) ∨ (Holds log clt lid ∧ ∀ r, x ≠ .released clt lid r) := by
  constructor
  · rintro ⟨before, r, after, h, hafter⟩
    rcases List.eq_nil_or_concat after with rfl | ⟨after, y, rfl⟩
    · obtain ⟨-, hx⟩ := List.append_inj' h rfl
      exact .inl ⟨r, by simpa using hx⟩
    · have h' : log ++ [x] = (before ++ .acquired clt lid r :: after) ++ [y] := by simpa using h
      obtain ⟨rfl, hx⟩ := List.append_inj' h' rfl
      obtain rfl : x = y := by simpa using hx
      refine .inr ⟨⟨before, r, after, rfl, fun r' hr' => hafter r' (by simp [hr'])⟩, ?_⟩
      rintro r' rfl
      exact hafter r' (by simp)
  · rintro (⟨r, rfl⟩ | ⟨⟨before, r, after, rfl, hafter⟩, hx⟩)
    · exact ⟨log, r, [], rfl, by simp⟩
    · refine ⟨before, r, after ++ [x], by simp, fun r' hr' => ?_⟩
      rcases List.mem_append.mp hr' with hr' | hr'
      · exact hafter r' hr'
      · exact hx r' (List.mem_singleton.mp hr').symm

/-- The holders after a grant. -/
theorem holds_acquired {log : List (Answer κ)} {clt c : κ} {lid l : LockId} {r : Int32} :
    Holds (log ++ [.acquired clt lid r]) c l ↔ (c = clt ∧ l = lid) ∨ Holds log c l := by
  rw [holds_snoc]
  simp [eq_comm]

/-- The holders after a release. -/
theorem holds_released {log : List (Answer κ)} {clt c : κ} {lid l : LockId} {r : Int32} :
    Holds (log ++ [.released clt lid r]) c l ↔ Holds log c l ∧ ¬ (c = clt ∧ l = lid) := by
  rw [holds_snoc]
  constructor
  · rintro (⟨r', hr⟩ | ⟨hc, hne⟩)
    · cases hr
    · refine ⟨hc, ?_⟩
      rintro ⟨rfl, rfl⟩
      exact hne r rfl
  · rintro ⟨hc, hne⟩
    refine .inr ⟨hc, fun r' hr => hne ?_⟩
    cases hr
    exact ⟨rfl, rfl⟩

/-- Only a client that holds the lock releases it. -/
def Disciplined (s : Sys τ κ) : Act τ κ → Prop
  | .release clt lid _ => Holds s.log clt lid
  | _ => True

/-- Runs in which only holders release. -/
def Run (t : List (Act τ κ)) (s : Sys τ κ) : Prop :=
  Trace (Guarded Disciplined Step) Sys.start t s

theorem Run.next {t : List (Act τ κ)} {s : Sys τ κ} (h : Run t s) (a : Act τ κ)
    (hguard : Disciplined s a) (hen : s.Enabled a) : Run (t ++ [a]) (s.next a) :=
  h.snoc ⟨hguard, hen, rfl⟩

/-! ## Mutual exclusion -/

/-- The flag of an entry says whether somebody holds the lock, and nobody holds it together with
another client. -/
structure Inv (s : Sys τ κ) : Prop where
  flag : ∀ lid, s.server.isLocked lid = true ↔ ∃ clt, Holds s.log clt lid
  unique : ∀ lid clt clt', Holds s.log clt lid → Holds s.log clt' lid → clt = clt'

/-- A critical section of `acquire` keeps the invariant: it grants the lock only when the flag is
down, and then nobody holds it. -/
theorem Inv.finish {s : Sys τ κ} (hi : Inv s) (th : τ) (clt : κ) (lid : LockId) (r : Int32)
    {res : Bool × LockServer} (hres : res.1 = !s.server.isLocked lid)
    (hflag : ∀ lid', res.2.isLocked lid' = (s.server.isLocked lid' || decide (lid' = lid))) :
    Inv (s.finish th clt lid r res) := by
  obtain ⟨granted, server⟩ := res
  simp only at hres hflag
  cases hl : s.server.isLocked lid with
  | true =>
    obtain rfl : granted = false := by rw [hres, hl]; rfl
    refine ⟨fun lid' => ?_, hi.unique⟩
    show server.isLocked lid' = true ↔ ∃ clt, Holds s.log clt lid'
    rw [hflag, ← hi.flag]
    by_cases h : lid' = lid
    · subst h
      simp [hl]
    · simp [h]
  | false =>
    obtain rfl : granted = true := by rw [hres, hl]; rfl
    have hfree : ∀ c, ¬ Holds s.log c lid := by
      intro c hc
      have := (hi.flag lid).mpr ⟨c, hc⟩
      rw [hl] at this
      cases this
    refine ⟨fun lid' => ?_, fun lid' c c' hc hc' => ?_⟩
    · show server.isLocked lid' = true ↔ ∃ c, Holds (s.log ++ [.acquired clt lid r]) c lid'
      simp only [hflag, holds_acquired, Bool.or_eq_true, decide_eq_true_eq, hi.flag]
      constructor
      · rintro (⟨c, hc⟩ | h)
        · exact ⟨c, .inr hc⟩
        · exact ⟨clt, .inl ⟨rfl, h⟩⟩
      · rintro ⟨c, ⟨-, h⟩ | hc⟩
        · exact .inr h
        · exact .inl ⟨c, hc⟩
    · rcases holds_acquired.mp hc with ⟨hc, hl⟩ | hc
      · rcases holds_acquired.mp hc' with ⟨hc', -⟩ | hc'
        · rw [hc, hc']
        · exact absurd (hl ▸ hc') (hfree c')
      · rcases holds_acquired.mp hc' with ⟨-, hl⟩ | hc'
        · exact absurd (hl ▸ hc) (hfree c)
        · exact hi.unique lid' c c' hc hc'

/-- The release of a lock by its holder leaves it with no holder. -/
theorem Inv.release {s : Sys τ κ} (hi : Inv s) {clt : κ} {lid : LockId} (woken : List τ)
    (hclt : Holds s.log clt lid) : Inv (s.next (.release clt lid woken)) := by
  have hholds : ∀ c lid', Holds (s.log ++ [.released clt lid s.server.nacquire]) c lid' ↔
      Holds s.log c lid' ∧ lid' ≠ lid := by
    intro c lid'
    rw [holds_released]
    refine and_congr_right (fun hc => not_congr ⟨And.right, fun hl => ⟨?_, hl⟩⟩)
    -- the holder of `lid` is the client that releases it
    subst hl
    exact hi.unique lid' c clt hc hclt
  refine ⟨fun lid' => ?_, fun lid' c c' hc hc' => ?_⟩
  · show (s.server.release lid).isLocked lid' = true ↔ ∃ c, Holds (s.log ++ _) c lid'
    simp only [hholds, isLocked_release, Bool.and_eq_true, decide_eq_true_eq, hi.flag,
      exists_and_right]
  · exact hi.unique lid' c c' ((hholds c lid').mp hc).1 ((hholds c' lid').mp hc').1

theorem inv_step {s s' : Sys τ κ} {a : Act τ κ} (hi : Inv s) (h : Guarded Disciplined Step s a s') :
    Inv s' := by
  obtain ⟨hguard, hen, rfl⟩ := h
  cases a with
  | acquire th clt lid => exact hi.finish th clt lid _ (acquire_spec _ _).1 (acquire_spec _ _).2
  | wakeup th => exact ⟨hi.flag, hi.unique⟩
  | recheck th =>
    obtain ⟨clt, lid, r, hp⟩ := hen
    simp only [Sys.next, hp]
    exact hi.finish th clt lid r (recheck_spec _ _).1 (recheck_spec _ _).2
  | release clt lid woken => exact hi.release woken hguard

theorem Run.inv {t : List (Act τ κ)} {s : Sys τ κ} (h : Run t s) : Inv s := by
  have hstart : Inv (Sys.start : Sys τ κ) := by
    refine ⟨fun lid => ?_, fun lid clt _ hc => absurd hc (not_holds_nil clt lid)⟩
    simp [Sys.start, init, isLocked, StdMap.get, not_holds_nil]
    rfl
  exact Trace.invariant hstart (fun _ _ _ hi hs => inv_step hi hs) h

/-- **Mutual exclusion.**  In every run of the lock server in which only holders release, whatever
the order of the critical sections, the wake-ups and the clients, two clients that hold the same lock
are the same. -/
theorem mutual_exclusion {t : List (Act τ κ)} {s : Sys τ κ} (h : Run t s) (lid : LockId)
    {clt clt' : κ} (hclt : Holds s.log clt lid) (hclt' : Holds s.log clt' lid) : clt = clt' :=
  h.inv.unique lid clt clt' hclt hclt'

/-- A waiter that gets the lock after its holder has released it. -/
theorem mutual_exclusion_after_waiting :
    ∃ (t : List (Act ℕ ℕ)) (s : Sys ℕ ℕ), Run t s ∧ Holds s.log 2 7 ∧
      ∀ clt, Holds s.log clt 7 → clt = 2 := by
  have h1 := Run.next (τ := ℕ) (κ := ℕ) .nil (.acquire 0 1 7) trivial rfl
  -- the second client sleeps until the release of the first one wakes it
  have h2 := h1.next (.acquire 1 2 7) trivial rfl
  have h3 := h2.next (.release 1 7 [1]) ⟨[], 0, [], by decide, by simp⟩ ⟨by decide, by simp⟩
  have h4 := h3.next (.recheck 1) trivial ⟨2, 7, 0, by decide⟩
  refine ⟨_, _, h4, ?_, fun clt hclt => mutual_exclusion h4 7 hclt ?_⟩
  all_goals exact ⟨[.acquired 1 7 0, .released 1 7 0], 0, [], by decide, by simp⟩

/-! ## Wake-ups are not lost -/

/-- The thread has been woken on the entry of `lid` and has not looked at it since. -/
def Phase.wokenOn {κ : Type} (lid : LockId) : Phase κ → Bool
  | .woken _ lid' _ => lid' == lid
  | _ => false

/-- A thread sleeps on a lock only while the lock is taken, or while another thread has been woken on
it. -/
def Attended (s : Sys τ κ) : Prop :=
  ∀ lid th, (s.phase th).sleepsOn lid = true →
    s.server.isLocked lid = true ∨ ∃ th', (s.phase th').wokenOn lid = true

/-- A critical section of `acquire` takes the lock or finds it taken, and its thread was woken on no
other one. -/
theorem Attended.finish {s : Sys τ κ} (hi : Attended s) {th : τ} (clt : κ) {lid : LockId} (r : Int32)
    {res : Bool × LockServer} (hth : ∀ lid', (s.phase th).wokenOn lid' = true → lid' = lid)
    (hflag : ∀ lid', res.2.isLocked lid' = (s.server.isLocked lid' || decide (lid' = lid))) :
    Attended (s.finish th clt lid r res) := by
  intro lid' th₁ hsleep
  show res.2.isLocked lid' = true ∨ _
  rw [hflag]
  by_cases hl : lid' = lid
  · exact .inl (by simp [hl])
  have hphase : ∀ th₂, th₂ ≠ th → (s.finish th clt lid r res).phase th₂ = s.phase th₂ :=
    fun th₂ h => Function.update_of_ne h _ _
  have hne : th₁ ≠ th := by
    rintro rfl
    have hself : (s.finish th₁ clt lid r res).phase th₁ = if res.1 then .idle else .asleep clt lid r :=
      Function.update_self _ _ _
    rw [hself] at hsleep
    split_ifs at hsleep
    · cases hsleep
    · exact hl (beq_iff_eq.1 hsleep).symm
  rw [hphase th₁ hne] at hsleep
  rcases hi lid' th₁ hsleep with h | ⟨th₂, h⟩
  · exact .inl (by simp [h])
  · refine .inr ⟨th₂, ?_⟩
    rw [hphase th₂ (fun heq => hl (hth lid' (heq ▸ h)))]
    exact h

/-- A wake-up, by a signal or by itself, turns sleepers into woken threads. -/
theorem Phase.wokenOn_wake (p : Phase κ) (lid : LockId) :
    p.wake.wokenOn lid = (p.wokenOn lid || p.sleepsOn lid) := by
  cases p <;> simp [wake, wokenOn, sleepsOn]

theorem Phase.sleepsOn_wake (p : Phase κ) (lid : LockId) : p.wake.sleepsOn lid = false := by
  cases p <;> rfl

/-- **`release` hands the lock on**: whoever still sleeps on it, its signal has woken another one. -/
theorem Attended.release {s : Sys τ κ} (hi : Attended s) (clt : κ) {lid : LockId} {woken : List τ}
    (hen : s.Enabled (.release clt lid woken)) : Attended (s.next (.release clt lid woken)) := by
  obtain ⟨hwoken, hsome⟩ := hen
  have hphase : ∀ th, (s.next (.release clt lid woken)).phase th =
      if th ∈ woken then (s.phase th).wake else s.phase th := fun _ => rfl
  intro lid' th hsleep
  have hbefore : (s.phase th).sleepsOn lid' = true := by
    rw [hphase] at hsleep
    split_ifs at hsleep with hmem
    · rw [Phase.sleepsOn_wake] at hsleep
      cases hsleep
    · exact hsleep
  by_cases hl : lid' = lid
  · subst hl
    obtain ⟨th', hth'⟩ := List.exists_mem_of_ne_nil woken (hsome ⟨th, hbefore⟩)
    refine .inr ⟨th', ?_⟩
    rw [hphase, if_pos hth', Phase.wokenOn_wake, hwoken th' hth', Bool.or_true]
  · rcases hi lid' th hbefore with h | ⟨th', h⟩
    · left
      show (s.server.release lid).isLocked lid' = true
      rw [isLocked_release, h]
      simp [hl]
    · refine .inr ⟨th', ?_⟩
      rw [hphase]
      split_ifs
      · rw [Phase.wokenOn_wake, h, Bool.true_or]
      · exact h

theorem Attended.wakeup {s : Sys τ κ} (hi : Attended s) (th : τ) :
    Attended (s.next (.wakeup th)) := by
  have hself : (s.next (.wakeup th)).phase th = (s.phase th).wake := Function.update_self _ _ _
  have hphase : ∀ th', th' ≠ th → (s.next (.wakeup th)).phase th' = s.phase th' :=
    fun th' h => Function.update_of_ne h _ _
  intro lid th₁ hsleep
  have hne : th₁ ≠ th := by
    rintro rfl
    rw [hself, Phase.sleepsOn_wake] at hsleep
    cases hsleep
  rw [hphase th₁ hne] at hsleep
  rcases hi lid th₁ hsleep with h | ⟨th₂, h⟩
  · exact .inl h
  · refine .inr ⟨th₂, ?_⟩
    by_cases heq : th₂ = th
    · subst heq
      rw [hself, Phase.wokenOn_wake, h, Bool.true_or]
    · rwa [hphase th₂ heq]

theorem attended_step {s s' : Sys τ κ} {a : Act τ κ} (hi : Attended s) (h : Step s a s') :
    Attended s' := by
  obtain ⟨hen, rfl⟩ := h
  cases a with
  | acquire th clt lid =>
    have hidle : s.phase th = .idle := hen
    exact hi.finish clt _ (by simp [hidle, Phase.wokenOn]) (acquire_spec _ _).2
  | wakeup th => exact hi.wakeup th
  | recheck th =>
    obtain ⟨clt, lid, r, hp⟩ := hen
    simp only [Sys.next, hp]
    refine hi.finish clt r ?_ (recheck_spec _ _).2
    intro lid' hlid'
    rw [hp] at hlid'
    exact (beq_iff_eq.1 hlid').symm
  | release clt lid woken => exact hi.release clt hen

/-- **No lost wake-up.**  In every run of the lock server, whatever the order of the calls and
wake-ups and whoever releases: when a thread sleeps on a lock that is free, another one has been woken
on the entry and has not looked at it yet. -/
theorem no_lost_wakeup {t : List (Act τ κ)} {s : Sys τ κ} (h : Trace Step Sys.start t s) :
    ¬ ∃ lid, s.server.isLocked lid = false ∧ (∃ th, (s.phase th).sleepsOn lid = true) ∧
      ∀ th, (s.phase th).wokenOn lid = false := by
  rintro ⟨lid, hfree, ⟨th, hsleep⟩, hnone⟩
  have hstart : Attended (Sys.start : Sys τ κ) := by
    intro lid th hsleep
    cases hsleep
  have hinv : Attended s := Trace.invariant hstart (fun _ _ _ hi hs => attended_step hi hs) h
  rcases hinv lid th hsleep with hlocked | ⟨th', hwoken⟩
  · rw [hfree] at hlocked
    cases hlocked
  · rw [hnone th'] at hwoken
    cases hwoken

/-- Two waiters, a release by a client that does not hold the lock, and a newcomer that overtakes the
woken waiter before the holder releases again. -/
theorem no_lost_wakeup_overtaken :
    ∃ (t : List (Act ℕ ℕ)) (s : Sys ℕ ℕ), Trace Step Sys.start t s ∧ t.length = 7 ∧
      (s.phase 2).sleepsOn 7 = true ∧
      ¬ ∃ lid, s.server.isLocked lid = false ∧ (∃ th, (s.phase th).sleepsOn lid = true) ∧
        ∀ th, (s.phase th).wokenOn lid = false := by
  have h1 : Trace Step (Sys.start : Sys ℕ ℕ) [.acquire 0 1 7] _ := Trace.snoc .nil ⟨rfl, rfl⟩
  have h2 := h1.snoc (a := Act.acquire 1 2 7) ⟨rfl, rfl⟩
  have h3 := h2.snoc (a := Act.acquire 2 3 7) ⟨rfl, rfl⟩
  have h4 := h3.snoc (a := Act.release 9 7 [1]) ⟨⟨by decide, by simp⟩, rfl⟩
  -- the newcomer takes the lock, so that the woken waiter sleeps again
  have h5 := h4.snoc (a := Act.acquire 3 4 7) ⟨rfl, rfl⟩
  have h6 := h5.snoc (a := Act.recheck 1) ⟨⟨2, 7, 0, by decide⟩, rfl⟩
  have h7 := h6.snoc (a := Act.release 4 7 [1]) ⟨⟨by decide, by simp⟩, rfl⟩
  exact ⟨_, _, h7, rfl, by decide, no_lost_wakeup h7⟩

end LockServer
