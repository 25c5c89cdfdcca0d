/-
# The descriptors of `select` (`rpc/pollmgr.cc`, class `SelectAIO`)

`SelectAio` keeps two sets of descriptors, those to be watched for reading and for writing, and in
`highfds_` the largest descriptor in them: `select` looks at the descriptors up to `highfds_`, and so
does the loop that collects the ready ones.  `watch_fd` raises `highfds_`; `unwatch_fd` scans the sets
for a new maximum when the largest descriptor is left in neither.

* A descriptor is a number, and an `fd_set` a finite set of them.
* The reading end of the pipe, `pipefd_[0]`, is in `rfds_` from the start.  What is written to the pipe
  and read from it only wakes `select` up, and is left out.
* `unwatch_fd` stops the process on other flags than the three that name an interest; `watch_fd` takes
  every other flag for both.

`Tracks`: the pipe is watched and `highfds_` is the greatest watched descriptor.
-/
import Yfs.Trace

/-- `poll_flag`. -/
inductive PollFlag
  | CB_NONE
  | CB_RDONLY
  | CB_WRONLY
  | CB_RDWR
  | CB_MASK
  deriving DecidableEq, Repr

/-- The flag names an interest. -/
def PollFlag.Proper (flag : PollFlag) : Prop :=
  flag = .CB_RDONLY ∨ flag = .CB_WRONLY ∨ flag = .CB_RDWR

instance (flag : PollFlag) : Decidable flag.Proper := inferInstanceAs (Decidable (_ ∨ _ ∨ _))

/-- The fields of a `SelectAio`; `pipe` is `pipefd_[0]`. -/
structure SelectAio where
  rfds : Finset ℕ
  wfds : Finset ℕ
  highfds : ℕ
  pipe : ℕ
  deriving DecidableEq

namespace SelectAio

/-! ## The operations -/

/-- The constructor, with the pipe that it opens. -/
def init (pipe : ℕ) : SelectAio := ⟨{pipe}, ∅, pipe, pipe⟩

/-- `watch_fd`. -/
def watchFd (s : SelectAio) (fd : ℕ) (flag : PollFlag) : SelectAio :=
  let s := if s.highfds ≤ fd then { s with highfds := fd } else s
  match flag with
  | .CB_RDONLY => { s with rfds := insert fd s.rfds }
  | .CB_WRONLY => { s with wfds := insert fd s.wfds }
  | _ => { s with rfds := insert fd s.rfds, wfds := insert fd s.wfds }

/-- `is_watched`. -/
def isWatched (s : SelectAio) (fd : ℕ) (flag : PollFlag) : Bool :=
  match flag with
  | .CB_RDONLY => fd ∈ s.rfds
  | .CB_WRONLY => fd ∈ s.wfds
  | _ => fd ∈ s.rfds ∧ fd ∈ s.wfds

/-- The scan of `unwatch_fd` for the largest descriptor up to `n`. -/
def newh (s : SelectAio) (n : ℕ) : ℕ :=
  (List.range (n + 1)).foldl
    (fun newh i => if i ∈ s.rfds then i else if i ∈ s.wfds then i else newh) s.pipe

/-- The flag-dependent part of `unwatch_fd`; `none` is `VERIFY(0)`. -/
def clear (s : SelectAio) (fd : ℕ) : PollFlag → Option SelectAio
  | .CB_RDONLY => some { s with rfds := s.rfds.erase fd }
  | .CB_WRONLY => some { s with wfds := s.wfds.erase fd }
  | .CB_RDWR => some { s with rfds := s.rfds.erase fd, wfds := s.wfds.erase fd }
  | .CB_NONE => none
  | .CB_MASK => none

/-- `unwatch_fd`. -/
def unwatchFd (s : SelectAio) (fd : ℕ) (flag : PollFlag) : Option (Bool × SelectAio) :=
  (s.clear fd flag).map (fun s =>
    if fd ∉ s.rfds ∧ fd ∉ s.wfds then
      (true, if fd = s.highfds then { s with highfds := s.newh s.highfds } else s)
    else (false, s))

/-- What `select(nfds, ..)` leaves of a set: descriptors below `nfds` that are ready, and those it does
not look at. -/
def select (nfds : ℕ) (fds : Finset ℕ) (ready : ℕ → Bool) : Finset ℕ :=
  fds.filter (fun fd => fd < nfds → ready fd = true)

/-- The loop of `wait_ready` over the descriptors in `fds`. -/
def collect (s : SelectAio) (trfds twfds : Finset ℕ) (fds : List ℕ) : List ℕ × List ℕ :=
  fds.foldl
    (fun acc fd =>
      if fd = s.pipe ∧ fd ∈ trfds then acc
      else
        (if fd ∈ trfds then acc.1 ++ [fd] else acc.1, if fd ∈ twfds then acc.2 ++ [fd] else acc.2))
    ([], [])

/-- `wait_ready` when `select` finds the descriptors in `r` readable and those in `w` writable: the
readable and the writable ones. -/
def waitReady (s : SelectAio) (r w : ℕ → Bool) : List ℕ × List ℕ :=
  s.collect (select (s.highfds + 1) s.rfds r) (select (s.highfds + 1) s.wfds w)
    (List.range (s.highfds + 1))

/-- A call of `watch_fd` or `unwatch_fd`. -/
inductive Call
  | watch (fd : ℕ) (flag : PollFlag)
  | unwatch (fd : ℕ) (flag : PollFlag)
  deriving DecidableEq, Repr

namespace Call

def fd : Call → ℕ
  | watch fd _ => fd
  | unwatch fd _ => fd

def flag : Call → PollFlag
  | watch _ flag => flag
  | unwatch _ flag => flag

end Call

/-- The state after a call. -/
def call (s : SelectAio) : Call → Option SelectAio
  | .watch fd flag => some (s.watchFd fd flag)
  | .unwatch fd flag => (s.unwatchFd fd flag).map Prod.snd

def Step (s : SelectAio) (c : Call) (s' : SelectAio) : Prop := s.call c = some s'

/-! ## What the operations do to the sets -/

/-- The descriptor is in one of the sets. -/
def Watched (s : SelectAio) (fd : ℕ) : Prop := fd ∈ s.rfds ∨ fd ∈ s.wfds

instance (s : SelectAio) (fd : ℕ) : Decidable (s.Watched fd) := inferInstanceAs (Decidable (_ ∨ _))

section Operations

variable {s s' : SelectAio} {fd i : ℕ} {flag : PollFlag} {ok : Bool}

@[simp] theorem pipe_watchFd : (s.watchFd fd flag).pipe = s.pipe := by
  unfold watchFd
  cases flag <;> dsimp only <;> split_ifs <;> rfl

@[simp] theorem highfds_watchFd : (s.watchFd fd flag).highfds = max s.highfds fd := by
  unfold watchFd
  rw [max_def]
  cases flag <;> dsimp only <;> split_ifs <;> rfl

/-- `watch_fd` adds its descriptor and no other. -/
theorem watched_watchFd : (s.watchFd fd flag).Watched i ↔ s.Watched i ∨ i = fd := by
  unfold watchFd Watched
  cases flag <;> dsimp only <;> split_ifs <;> simp only [Finset.mem_insert] <;> tauto

theorem mem_rfds_watchFd (h : i ∈ s.rfds) : i ∈ (s.watchFd fd flag).rfds := by
  unfold watchFd
  cases flag <;> dsimp only <;> split_ifs <;> simp [h]

theorem mem_wfds_of_watchFd (hi : i ≠ fd) (h : i ∈ (s.watchFd fd flag).wfds) : i ∈ s.wfds := by
  unfold watchFd at h
  cases flag <;> dsimp only at h <;> split_ifs at h <;> simpa [hi] using h

/-- What the flag clears. -/
theorem clear_spec (h : s.clear fd flag = some s') :
    s'.pipe = s.pipe ∧ s'.highfds = s.highfds ∧ s'.rfds ⊆ s.rfds ∧ s'.wfds ⊆ s.wfds ∧
      ∀ i, i ≠ fd → (i ∈ s.rfds → i ∈ s'.rfds) ∧ (i ∈ s.wfds → i ∈ s'.wfds) := by
  cases flag with
  | CB_NONE => cases h
  | CB_MASK => cases h
  | CB_RDONLY =>
    obtain rfl := Option.some.inj h
    exact ⟨rfl, rfl, Finset.erase_subset .., subset_rfl, fun i hi =>
      ⟨fun hm => Finset.mem_erase.2 ⟨hi, hm⟩, id⟩⟩
  | CB_WRONLY =>
    obtain rfl := Option.some.inj h
    exact ⟨rfl, rfl, subset_rfl, Finset.erase_subset .., fun i hi =>
      ⟨id, fun hm => Finset.mem_erase.2 ⟨hi, hm⟩⟩⟩
  | CB_RDWR =>
    obtain rfl := Option.some.inj h
    exact ⟨rfl, rfl, Finset.erase_subset .., Finset.erase_subset .., fun i hi =>
      ⟨fun hm => Finset.mem_erase.2 ⟨hi, hm⟩, fun hm => Finset.mem_erase.2 ⟨hi, hm⟩⟩⟩

/-- A turn of the scan. -/
theorem turn_eq (s : SelectAio) (i newh : ℕ) :
    (if i ∈ s.rfds then i else if i ∈ s.wfds then i else newh) = if s.Watched i then i else newh := by
  by_cases hr : i ∈ s.rfds
  · rw [if_pos hr, if_pos (.inl hr)]
  · by_cases hw : i ∈ s.wfds
    · rw [if_neg hr, if_pos hw, if_pos (.inr hw)]
    · rw [if_neg hr, if_neg hw, if_neg (show ¬ s.Watched i from not_or.2 ⟨hr, hw⟩)]

theorem newh_zero (s : SelectAio) : s.newh 0 = if s.Watched 0 then 0 else s.pipe :=
  s.turn_eq 0 s.pipe

theorem newh_succ (s : SelectAio) (n : ℕ) :
    s.newh (n + 1) = if s.Watched (n + 1) then n + 1 else s.newh n := by
  rw [newh, List.range_succ, List.foldl_append]
  exact s.turn_eq (n + 1) (s.newh n)

/-- **The scan finds the largest descriptor** of the sets up to its bound, or keeps the pipe. -/
theorem newh_spec (s : SelectAio) (n : ℕ) :
    (s.newh n = s.pipe ∧ ∀ i ≤ n, ¬ s.Watched i) ∨
      IsGreatest {i | i ≤ n ∧ s.Watched i} (s.newh n) := by
  induction n with
  | zero =>
    rw [newh_zero]
    split_ifs with hw
    · exact .inr ⟨⟨le_rfl, hw⟩, fun i hi => hi.1⟩
    · refine .inl ⟨rfl, fun i hi => ?_⟩
      rwa [Nat.le_zero.1 hi]
  | succ n ih =>
    rw [newh_succ]
    split_ifs with hw
    · exact .inr ⟨⟨le_rfl, hw⟩, fun i hi => hi.1⟩
    · rcases ih with ⟨hpipe, hnone⟩ | ⟨⟨hle, hmem⟩, hmax⟩
      · refine .inl ⟨hpipe, fun i hi => ?_⟩
        rcases Nat.le_succ_iff.1 hi with hi | rfl
        · exact hnone i hi
        · exact hw
      · refine .inr ⟨⟨Nat.le_succ_of_le hle, hmem⟩, ?_⟩
        rintro i ⟨hi, hiw⟩
        rcases Nat.le_succ_iff.1 hi with hi | rfl
        · exact hmax ⟨hi, hiw⟩
        · exact absurd hiw hw

/-- `unwatch_fd` clears, and looks for a new maximum when the largest descriptor is left in neither
set. -/
theorem unwatchFd_cases (h : s.unwatchFd fd flag = some (ok, s')) :
    ∃ s₁, s.clear fd flag = some s₁ ∧ (ok = true ↔ ¬ s₁.Watched fd) ∧
      (s' = s₁ ∧ (fd = s.highfds → s₁.Watched fd) ∨
        s' = { s₁ with highfds := s₁.newh s.highfds } ∧ fd = s.highfds ∧ ¬ s₁.Watched fd) := by
  obtain ⟨s₁, hs₁, heq⟩ := Option.map_eq_some_iff.1 h
  have hhigh := (clear_spec hs₁).2.1
  refine ⟨s₁, hs₁, ?_⟩
  split_ifs at heq with hnot hmax
  · obtain ⟨rfl, rfl⟩ := Prod.mk.inj heq
    have hw : ¬ s₁.Watched fd := not_or.2 hnot
    refine ⟨by simp [hw], .inr ⟨by rw [hhigh], hmax.trans hhigh, hw⟩⟩
  · obtain ⟨rfl, rfl⟩ := Prod.mk.inj heq
    have hw : ¬ s₁.Watched fd := not_or.2 hnot
    refine ⟨by simp [hw], .inl ⟨rfl, fun hfd => absurd (hfd.trans hhigh.symm) hmax⟩⟩
  · obtain ⟨rfl, rfl⟩ := Prod.mk.inj heq
    have hw : s₁.Watched fd := by
      by_contra hn
      exact hnot (not_or.1 hn)
    exact ⟨by simp [hw], .inl ⟨rfl, fun _ => hw⟩⟩

/-- `unwatch_fd` adds no descriptor. -/
theorem watched_of_unwatchFd (h : s.unwatchFd fd flag = some (ok, s')) (hi : s'.Watched i) :
    s.Watched i := by
  obtain ⟨s₁, hclear, -, hcases⟩ := unwatchFd_cases h
  obtain ⟨-, -, hr, hw, -⟩ := clear_spec hclear
  rcases hcases with ⟨rfl, -⟩ | ⟨rfl, -⟩
  · exact hi.imp (fun hm => hr hm) (fun hm => hw hm)
  · exact hi.imp (fun hm => hr hm) (fun hm => hw hm)

/-- `unwatch_fd(fd, CB_RDWR)` leaves the descriptor in neither set. -/
theorem not_watched_of_unwatchFd (h : s.unwatchFd fd .CB_RDWR = some (ok, s')) : ¬ s'.Watched fd := by
  obtain ⟨s₁, hclear, -, hcases⟩ := unwatchFd_cases h
  obtain rfl := Option.some.inj hclear
  rcases hcases with ⟨rfl, -⟩ | ⟨rfl, -⟩
  all_goals
    rintro (hm | hm)
    · exact Finset.notMem_erase fd _ hm
    · exact Finset.notMem_erase fd _ hm

/-! ## The ready descriptors -/

/-- The loop of `wait_ready` keeps the order of the descriptors. -/
theorem collect_eq (s : SelectAio) (trfds twfds : Finset ℕ) (fds : List ℕ) (hw : s.pipe ∉ twfds) :
    s.collect trfds twfds fds =
      (fds.filter (fun fd => fd ∈ trfds ∧ fd ≠ s.pipe), fds.filter (fun fd => fd ∈ twfds)) := by
  unfold collect
  induction fds using List.reverseRecOn with
  | nil => rfl
  | append_singleton fds fd ih =>
    rw [List.foldl_append, ih, List.filter_append, List.filter_append]
    simp only [List.foldl_cons, List.foldl_nil]
    by_cases hpipe : fd = s.pipe
    · subst hpipe
      by_cases hr : s.pipe ∈ trfds <;> simp [hr, hw]
    · by_cases hr : fd ∈ trfds <;> by_cases hw' : fd ∈ twfds <;> simp [hpipe, hr, hw']

/-- The loop reports descriptors of its two sets only. -/
theorem mem_collect {trfds twfds : Finset ℕ} {fds : List ℕ} :
    (fd ∈ (s.collect trfds twfds fds).1 → fd ∈ trfds) ∧
      (fd ∈ (s.collect trfds twfds fds).2 → fd ∈ twfds) := by
  unfold collect
  induction fds using List.reverseRecOn with
  | nil => simp
  | append_singleton fds i ih =>
    rw [List.foldl_append]
    simp only [List.foldl_cons, List.foldl_nil]
    split_ifs with hpipe hr hw hw
    · exact ih
    · simp only [List.mem_append, List.mem_singleton]
      exact ⟨fun h => h.elim ih.1 (fun h => h ▸ hr), fun h => h.elim ih.2 (fun h => h ▸ hw)⟩
    · simp only [List.mem_append, List.mem_singleton]
      exact ⟨fun h => h.elim ih.1 (fun h => h ▸ hr), ih.2⟩
    · simp only [List.mem_append, List.mem_singleton]
      exact ⟨ih.1, fun h => h.elim ih.2 (fun h => h ▸ hw)⟩
    · exact ih

/-- `wait_ready` reports watched descriptors only. -/
theorem watched_of_mem_waitReady {r w : ℕ → Bool}
    (h : fd ∈ (s.waitReady r w).1 ∨ fd ∈ (s.waitReady r w).2) : s.Watched fd := by
  rcases h with h | h
  · exact .inl (Finset.mem_filter.1 (mem_collect.1 h)).1
  · exact .inr (Finset.mem_filter.1 (mem_collect.2 h)).1

/-- The pipe is watched, for reading only, and `highfds_` is the greatest watched descriptor. -/
structure Tracks (s : SelectAio) : Prop where
  pipe_mem : s.pipe ∈ s.rfds
  pipe_notMem : s.pipe ∉ s.wfds
  greatest : IsGreatest {fd | s.Watched fd} s.highfds

theorem tracks_init (pipe : ℕ) : Tracks (init pipe) := by
  refine ⟨Finset.mem_singleton_self _, Finset.notMem_empty _, .inl (Finset.mem_singleton_self _), ?_⟩
  intro fd hfd
  rcases hfd with hfd | hfd
  · exact (Finset.mem_singleton.1 hfd).le
  · exact absurd hfd (Finset.notMem_empty fd)

/-- `wait_ready` reports the watched descriptors that are ready, in order, and no others. -/
theorem waitReady_eq (h : Tracks s) (r w : ℕ → Bool) :
    s.waitReady r w =
      ((List.range (s.highfds + 1)).filter (fun fd => fd ∈ s.rfds ∧ r fd = true ∧ fd ≠ s.pipe),
        (List.range (s.highfds + 1)).filter (fun fd => fd ∈ s.wfds ∧ w fd = true)) := by
  rw [waitReady, collect_eq]
  · congr 1
    all_goals
      refine List.filter_congr (fun fd hfd => ?_)
      have hle := Nat.le_of_lt_succ (List.mem_range.1 hfd)
      simp [select, hle, and_assoc]
  · intro hmem
    exact h.pipe_notMem (Finset.mem_filter.1 hmem).1

/-- No watched descriptor is beyond the range of `select`. -/
theorem mem_waitReady (h : Tracks s) (r w : ℕ → Bool) (hfd : fd ≠ s.pipe) :
    (fd ∈ (s.waitReady r w).1 ↔ fd ∈ s.rfds ∧ r fd = true) ∧
      (fd ∈ (s.waitReady r w).2 ↔ fd ∈ s.wfds ∧ w fd = true) := by
  have hrange : ∀ i, s.Watched i → i < s.highfds + 1 := fun i hi => Nat.lt_succ_of_le (h.greatest.2 hi)
  rw [waitReady_eq h]
  simp only [List.mem_filter, List.mem_range, decide_eq_true_eq]
  constructor
  · exact ⟨fun hm => ⟨hm.2.1, hm.2.2.1⟩, fun hm => ⟨hrange fd (.inl hm.1), hm.1, hm.2, hfd⟩⟩
  · exact ⟨fun hm => hm.2, fun hm => ⟨hrange fd (.inr hm.1), hm⟩⟩

/-! ## The maximum -/

theorem Tracks.watchFd (h : Tracks s) (hfd : fd ≠ s.pipe) : Tracks (s.watchFd fd flag) := by
  refine ⟨?_, ?_, ?_, ?_⟩
  · rw [pipe_watchFd]
    exact mem_rfds_watchFd h.pipe_mem
  · rw [pipe_watchFd]
    exact fun hmem => h.pipe_notMem (mem_wfds_of_watchFd hfd.symm hmem)
  · show (s.watchFd fd flag).Watched _
    rw [watched_watchFd, highfds_watchFd]
    rcases max_choice s.highfds fd with heq | heq
    · rw [heq]
      exact .inl h.greatest.1
    · exact .inr heq
  · intro i hi
    rw [highfds_watchFd]
    rcases watched_watchFd.1 hi with hi | rfl
    · exact le_max_of_le_left (h.greatest.2 hi)
    · exact le_max_right _ _

theorem Tracks.unwatchFd (h : Tracks s) (hfd : fd ≠ s.pipe)
    (hs : s.unwatchFd fd flag = some (ok, s')) : Tracks s' := by
  obtain ⟨s₁, hclear, -, hcases⟩ := unwatchFd_cases hs
  obtain ⟨hpipe, hhigh, hr, hw, hother⟩ := clear_spec hclear
  have hmem : s₁.pipe ∈ s₁.rfds := by
    rw [hpipe]
    exact (hother s.pipe hfd.symm).1 h.pipe_mem
  have hnot : s₁.pipe ∉ s₁.wfds := by
    rw [hpipe]
    exact fun hm => h.pipe_notMem (hw hm)
  have hsub : ∀ i, s₁.Watched i → s.Watched i := fun i hi => hi.imp (fun hm => hr hm) (fun hm => hw hm)
  rcases hcases with ⟨rfl, hkeep⟩ | ⟨rfl, hmax, hgone⟩
  · -- the largest descriptor is still watched
    refine ⟨hmem, hnot, ?_, ?_⟩
    · show s'.Watched _
      rw [hhigh]
      by_cases heq : fd = s.highfds
      · rw [← heq]
        exact hkeep heq
      · exact h.greatest.1.imp (hother _ (Ne.symm heq)).1 (hother _ (Ne.symm heq)).2
    · intro i hi
      rw [hhigh]
      exact h.greatest.2 (hsub i hi)
  · -- it is gone: the scan finds the largest of the others, the pipe among them
    refine ⟨hmem, hnot, ?_⟩
    have hle : ∀ i, s₁.Watched i → i ≤ s.highfds := fun i hi => h.greatest.2 (hsub i hi)
    rcases newh_spec s₁ s.highfds with ⟨-, hnone⟩ | ⟨⟨-, hin⟩, hgreatest⟩
    · exact absurd (.inl hmem) (hnone s₁.pipe (hle _ (.inl hmem)))
    · exact ⟨hin, fun i hi => hgreatest ⟨hle i hi, hi⟩⟩

end Operations

/-- **Every call keeps the maximum**, when it is for another descriptor than the pipe. -/
theorem Tracks.step {s s' : SelectAio} {c : Call} (h : Tracks s) (hc : c.fd ≠ s.pipe)
    (hs : s.Step c s') : Tracks s' ∧ s'.pipe = s.pipe := by
  cases c with
  | watch fd flag =>
    obtain rfl := Option.some.inj hs
    exact ⟨h.watchFd hc, pipe_watchFd⟩
  | unwatch fd flag =>
    obtain ⟨⟨ok, s₁⟩, hun, rfl⟩ := Option.map_eq_some_iff.1 hs
    refine ⟨h.unwatchFd hc hun, ?_⟩
    obtain ⟨s₂, hclear, -, ⟨rfl, -⟩ | ⟨rfl, -⟩⟩ := unwatchFd_cases hun
    · exact (clear_spec hclear).1
    · exact (clear_spec hclear).1

/-- `unwatch_fd` with one of the three flags returns. -/
theorem exists_unwatchFd (s : SelectAio) (fd : ℕ) {flag : PollFlag} (h : flag.Proper) :
    ∃ ok s', s.unwatchFd fd flag = some (ok, s') ∧ (ok = true ↔ fd ∉ s'.rfds ∧ fd ∉ s'.wfds) := by
  have hsome : ∃ s₁, s.clear fd flag = some s₁ := by
    rcases h with rfl | rfl | rfl
    all_goals exact ⟨_, rfl⟩
  obtain ⟨s₁, hs₁⟩ := hsome
  have hun : ∃ ok s', s.unwatchFd fd flag = some (ok, s') := by
    rw [unwatchFd, hs₁]
    exact ⟨_, _, rfl⟩
  obtain ⟨ok, s', hs'⟩ := hun
  refine ⟨ok, s', hs', ?_⟩
  obtain ⟨s₂, -, hok, ⟨rfl, -⟩ | ⟨rfl, -⟩⟩ := unwatchFd_cases hs'
  · rw [hok]
    exact not_or
  · rw [hok]
    exact not_or

/-- A sequence of calls for descriptors other than the pipe. -/
theorem tracks_run {pipe : ℕ} {t : List Call} {s : SelectAio} (hcalls : ∀ c ∈ t, c.fd ≠ pipe)
    (h : Trace Step (init pipe) t s) : Tracks s ∧ s.pipe = pipe := by
  refine Trace.history (I := fun t s => (∀ c ∈ t, c.fd ≠ pipe) → Tracks s ∧ s.pipe = pipe) ?_ ?_ h hcalls
  · exact fun _ => ⟨tracks_init pipe, rfl⟩
  · intro t s c s' ih hs hc
    obtain ⟨htracks, hpipe⟩ := ih (fun c' hc' => hc c' (List.mem_append_left _ hc'))
    have hne : c.fd ≠ s.pipe := by
      rw [hpipe]
      exact hc c (by simp)
    obtain ⟨htracks', hpipe'⟩ := htracks.step hne hs
    exact ⟨htracks', hpipe'.trans hpipe⟩

end SelectAio
