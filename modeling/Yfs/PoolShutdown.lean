/-
# The thread pool from its first job to its destructor (`fifo.h`, `thr_pool.cc`, `thr_pool.h`)

`ThrPool` hands jobs to `sz` workers through a `fifo` with room for `100 * sz` entries.  Workers wait on
`non_empty_c_` and the callers of `enq` on `has_space_c_`; every change of the queue signals the other
side, and a signal wakes one thread.  The destructor pushes one job without a function for every worker,
a poison pill, and joins the threads.

A critical section of `m_` is one step: a turn of the loop in `enq` or `deq`, from the start or from a
wake-up to the return or the next wait.  What a signal wakes is part of the step, and threads may also
wake up by themselves.

* A call of `addObjJob` is a number, and so is the job it makes; a pill is `none`.
* The caller `none` of `enq` is the destructor, which waits for room whatever `blockadd_` says.  As its
  comment demands, it is called when no other thread is inside the pool, and none enters afterwards.
* Jobs end by themselves (`finish`).
* `enqueued` and `taken` record what has gone into the queue and out of it, `accepted` and `refused` the
  calls that have returned `true` and `false`, `executed` the jobs that have ended, and `pills` how many
  pills each worker has taken.

The main result is `orderly_of_trace`.  Its invariant says who has to be up: when a worker sleeps, there
are at least as many woken workers as entries in the queue, since a worker falls asleep on an empty queue
only and every push wakes one more.  Pills come last in the queue, so that the workers leave when all
jobs have been taken.
-/
import Yfs.ThrPool
import Yfs.Trace

/-- A sum over the values of a function that has changed at one place. -/
theorem sum_update_add {ι α : Type*} [Fintype ι] [DecidableEq ι] (f : ι → α) (i : ι) (a : α)
    (g : α → ℕ) : ∑ j, g (Function.update f i a j) + g (f i) = ∑ j, g (f j) + g a := by
  have hrest : ∑ j ∈ Finset.univ.erase i, g (Function.update f i a j) =
      ∑ j ∈ Finset.univ.erase i, g (f j) := by
    refine Finset.sum_congr rfl ?_
    intro j hj
    rw [Function.update_of_ne (Finset.ne_of_mem_erase hj)]
  rw [← Finset.add_sum_erase _ _ (Finset.mem_univ i), hrest, Function.update_self,
    ← Finset.add_sum_erase Finset.univ (fun j => g (f j)) (Finset.mem_univ i)]
  omega

/-- The number of indices with a property, in the same way. -/
theorem card_filter_update {ι α : Type*} [Fintype ι] [DecidableEq ι] (f : ι → α) (i : ι) (a : α)
    (p : α → Prop) [DecidablePred p] :
    (Finset.univ.filter (fun j => p (Function.update f i a j))).card + (if p (f i) then 1 else 0) =
      (Finset.univ.filter (fun j => p (f j))).card + if p a then 1 else 0 := by
  rw [Finset.card_filter, Finset.card_filter]
  exact sum_update_add f i a (fun x => if p x then 1 else 0)

namespace ThrPool

/-- Where a worker stands: before `deq`, asleep in it, woken up, in a job, or at its end. -/
inductive Worker
  | ready
  | asleep
  | woken
  | running (n : ℕ)
  | exited
  deriving DecidableEq, Repr

/-- The worker is about to look at the queue. -/
def Worker.looks (w : Worker) : Bool := w == .ready || w == .woken

/-- What a worker may still do before it looks at the queue and finds it empty. -/
def Worker.work : Worker → ℕ
  | ready | woken => 1
  | running _ => 2
  | asleep | exited => 0

/-- What a worker does with an entry of the queue. -/
def Worker.after : Option ℕ → Worker
  | some n => .running n
  | none => .exited

/-- Where a caller of `enq` stands: outside, before its critical section, asleep in it, woken up. -/
inductive Caller
  | out
  | enq (e : Option ℕ)
  | asleep (e : Option ℕ)
  | woken (e : Option ℕ)
  deriving DecidableEq, Repr

namespace Caller

/-- The entry that the caller is about to push. -/
def tries : Caller → Option (Option ℕ)
  | enq e | woken e => some e
  | out | asleep _ => none

/-- The entry of the call. -/
def item : Caller → Option (Option ℕ)
  | enq e | asleep e | woken e => some e
  | out => none

def sleeps : Caller → Bool
  | asleep _ => true
  | _ => false

def wake : Caller → Caller
  | asleep e => woken e
  | c => c

def work : Caller → ℕ
  | enq _ | woken _ => 1
  | out | asleep _ => 0

end Caller

/-- Where the destructor stands: not called, after `k` pills, after `i` joins. -/
inductive Dtor
  | idle
  | pills (k : ℕ)
  | joins (i : ℕ)
  deriving DecidableEq, Repr

namespace Dtor

/-- The number of pills that have been pushed. -/
def pushed (sz : ℕ) : Dtor → ℕ
  | idle => 0
  | pills k => k
  | joins _ => sz

/-- The first loop of the destructor after `k` turns. -/
def after (sz k : ℕ) : Dtor := if k < sz then pills k else joins 0

/-- The destructor as a caller of `enq`. -/
def caller : Dtor → Caller
  | pills _ => .enq none
  | idle | joins _ => .out

/-- The pills and joins to come. -/
def work (sz : ℕ) : Dtor → ℕ
  | idle => 0
  | pills k => 7 * (sz - k) + sz
  | joins i => sz - i

end Dtor

/-- A pool with its workers and the threads that use it. -/
structure Sys (sz : ℕ) (τ : Type) where
  jobq : Fifo (Option ℕ)
  blockadd : Bool
  workers : Fin sz → Worker
  callers : Option τ → Caller
  dtor : Dtor
  calls : ℕ
  enqueued : List (Option ℕ)
  taken : List (Option ℕ)
  accepted : List ℕ
  refused : List ℕ
  executed : List ℕ
  pills : Fin sz → ℕ

/-- The critical sections and wake-ups. -/
inductive Act (sz : ℕ) (τ : Type)
  | call (t : τ)
  | destroy
  | enq (c : Option τ)
  | deq (w : Fin sz)
  | finish (w : Fin sz)
  | join
  | wakeWorker (w : Fin sz)
  | wakeCaller (c : Option τ)
  deriving DecidableEq, Repr

/-- A wake-up without a signal. -/
def Act.spurious {sz : ℕ} {τ : Type} : Act sz τ → Bool
  | wakeWorker _ | wakeCaller _ => true
  | _ => false

/-- The thread that `pthread_cond_signal` wakes: one of those asleep, if there is one. -/
def Signals {ι : Type} (asleep : ι → Prop) : Option ι → Prop
  | some i => asleep i
  | none => ∀ i, ¬ asleep i

namespace Sys

variable {sz : ℕ} {τ : Type}

/-- The constructor. -/
def init (sz : ℕ) (τ : Type) (blocking : Bool) : Sys sz τ where
  jobq := ⟨[], 100 * sz⟩
  blockadd := blocking
  workers := fun _ => .ready
  callers := fun _ => .out
  dtor := .idle
  calls := 0
  enqueued := []
  taken := []
  accepted := []
  refused := []
  executed := []
  pills := fun _ => 0

/-- `pthread_cond_signal(&non_empty_c_)`. -/
def signalNonEmpty (workers : Fin sz → Worker) : Option (Fin sz) → Fin sz → Worker
  | none => workers
  | some w => Function.update workers w .woken

section Steps

variable [DecidableEq τ]

/-- `pthread_cond_signal(&has_space_c_)`. -/
def signalHasSpace (callers : Option τ → Caller) : Option (Option τ) → Option τ → Caller
  | none => callers
  | some c => Function.update callers c (callers c).wake

/-- One step. -/
inductive Step : Sys sz τ → Act sz τ → Sys sz τ → Prop
  /-- `addObjJob` is called -/
  | call {s : Sys sz τ} {t : τ} (hout : s.callers (some t) = .out) (hd : s.dtor = .idle) :
      Step s (.call t) { s with
        callers := Function.update s.callers (some t) (.enq (some s.calls))
        calls := s.calls + 1 }
  /-- `enq` pushes the job and returns `true` -/
  | push {s : Sys sz τ} {t : τ} {e : Option ℕ} {jobq : Fifo (Option ℕ)} {o : Option (Fin sz)}
      (hc : (s.callers (some t)).tries = some e) (hq : s.jobq.enq e = some jobq)
      (ho : Signals (fun w => s.workers w = .asleep) o) :
      Step s (.enq (some t)) { s with
        jobq := jobq
        enqueued := s.enqueued ++ [e]
        accepted := s.accepted ++ e.toList
        callers := Function.update s.callers (some t) .out
        workers := signalNonEmpty s.workers o }
  /-- `enq` pushes a pill, and the destructor goes on -/
  | pushPill {s : Sys sz τ} {e : Option ℕ} {jobq : Fifo (Option ℕ)} {o : Option (Fin sz)}
      (hc : (s.callers none).tries = some e) (hq : s.jobq.enq e = some jobq)
      (ho : Signals (fun w => s.workers w = .asleep) o) :
      Step s (.enq none) { s with
        jobq := jobq
        enqueued := s.enqueued ++ [e]
        dtor := .after sz (s.dtor.pushed sz + 1)
        callers := Function.update s.callers none (Dtor.after sz (s.dtor.pushed sz + 1)).caller
        workers := signalNonEmpty s.workers o }
  | block {s : Sys sz τ} {c : Option τ} {e : Option ℕ} (hc : (s.callers c).tries = some e)
      (hq : s.jobq.enq e = none) (hb : c = none ∨ s.blockadd = true) :
      Step s (.enq c) { s with callers := Function.update s.callers c (.asleep e) }
  /-- `enq` returns `false` -/
  | refuse {s : Sys sz τ} {t : τ} {e : Option ℕ} (hc : (s.callers (some t)).tries = some e)
      (hq : s.jobq.enq e = none) (hb : s.blockadd = false) :
      Step s (.enq (some t)) { s with
        callers := Function.update s.callers (some t) .out
        refused := s.refused ++ e.toList }
  | take {s : Sys sz τ} {w : Fin sz} {e : Option ℕ} {jobq : Fifo (Option ℕ)}
      {o : Option (Option τ)} (hw : (s.workers w).looks = true) (hq : s.jobq.deq = some (e, jobq))
      (ho : Signals (fun c => (s.callers c).sleeps = true) o) :
      Step s (.deq w) { s with
        jobq := jobq
        taken := s.taken ++ [e]
        workers := Function.update s.workers w (.after e)
        pills := if e = none then Function.update s.pills w (s.pills w + 1) else s.pills
        callers := if jobq.max ≠ 0 ∧ jobq.q.length < jobq.max then signalHasSpace s.callers o
          else s.callers }
  | wait {s : Sys sz τ} {w : Fin sz} (hw : (s.workers w).looks = true) (hq : s.jobq.deq = none) :
      Step s (.deq w) { s with workers := Function.update s.workers w .asleep }
  | finish {s : Sys sz τ} {w : Fin sz} {n : ℕ} (hw : s.workers w = .running n) :
      Step s (.finish w) { s with
        workers := Function.update s.workers w .ready
        executed := s.executed ++ [n] }
  | destroy {s : Sys sz τ} (hd : s.dtor = .idle) (hout : ∀ t, s.callers (some t) = .out) :
      Step s .destroy { s with
        dtor := .after sz 0
        callers := Function.update s.callers none (Dtor.after sz 0).caller }
  | join {s : Sys sz τ} {w : Fin sz} (hd : s.dtor = .joins w) (hw : s.workers w = .exited) :
      Step s .join { s with dtor := .joins (w + 1) }
  | wakeWorker {s : Sys sz τ} {w : Fin sz} (hw : s.workers w = .asleep) :
      Step s (.wakeWorker w) { s with workers := Function.update s.workers w .woken }
  | wakeCaller {s : Sys sz τ} {c : Option τ} (hc : (s.callers c).sleeps = true) :
      Step s (.wakeCaller c) { s with
        callers := Function.update s.callers c (s.callers c).wake }

end Steps

/-! ## Callers -/

theorem item_of_tries {c : Caller} {e : Option ℕ} (h : c.tries = some e) : c.item = some e := by
  cases c <;> simp_all [Caller.tries, Caller.item]

theorem item_wake (c : Caller) : c.wake.item = c.item := by
  cases c <;> rfl

theorem pushed_after {k : ℕ} (h : k ≤ sz) : (Dtor.after sz k).pushed sz = k := by
  unfold Dtor.after
  split_ifs with hk
  · rfl
  · show sz = k
    omega

/-- The calls of `addObjJob` have different jobs, and none while the destructor runs, which calls `enq`
as long as pills are missing. -/
structure Calling (s : Sys sz τ) : Prop where
  job : ∀ t e, (s.callers (some t)).item = some e →
    ∃ n, e = some n ∧ n < s.calls ∧ n ∉ s.accepted ++ s.refused
  distinct : ∀ t t' e, (s.callers (some t)).item = some e → (s.callers (some t')).item = some e →
    t = t'
  known : ∀ n ∈ s.accepted ++ s.refused, n < s.calls
  nodup : (s.accepted ++ s.refused).Nodup
  outside : s.dtor ≠ .idle → ∀ t, (s.callers (some t)).item = none
  dtor : (s.callers none).item = s.dtor.caller.item
  below : ∀ k, s.dtor = .pills k → k < sz

theorem calling_init (blocking : Bool) : Calling (init sz τ blocking) := by
  constructor <;> simp [init, Caller.item, Dtor.caller]

section Calling

variable {s s' : Sys sz τ}

/-- A step that changes where callers stand, and not what they are about to push. -/
theorem Calling.congr (h : Calling s) (hc : ∀ c, (s'.callers c).item = (s.callers c).item)
    (hd : s'.dtor = s.dtor) (hn : s'.calls = s.calls) (ha : s'.accepted = s.accepted)
    (hr : s'.refused = s.refused) : Calling s' := by
  constructor
  · intro t e he
    rw [hc] at he
    rw [hn, ha, hr]
    exact h.job t e he
  · intro t t' e he he'
    rw [hc] at he he'
    exact h.distinct t t' e he he'
  · rw [hn, ha, hr]
    exact h.known
  · rw [ha, hr]
    exact h.nodup
  · intro hidle t
    rw [hc]
    exact h.outside (hd ▸ hidle) t
  · rw [hc, hd]
    exact h.dtor
  · rw [hd]
    exact h.below

/-- While the destructor pushes, the others are outside. -/
theorem Calling.pilling {e : Option ℕ} (h : Calling s) (he : (s.callers none).item = some e) :
    e = none ∧ (∃ k, s.dtor = .pills k ∧ k < sz) ∧ ∀ t, (s.callers (some t)).item = none := by
  have hd := h.dtor
  rw [he] at hd
  cases hp : s.dtor with
  | pills k =>
    rw [hp] at hd
    exact ⟨Option.some.inj hd, ⟨k, rfl, h.below k hp⟩, h.outside (by simp [hp])⟩
  | idle =>
    rw [hp] at hd
    cases hd
  | joins i =>
    rw [hp] at hd
    cases hd

theorem Calling.idle {t : τ} {e : Option ℕ} (h : Calling s)
    (he : (s.callers (some t)).item = some e) : s.dtor = .idle := by
  by_contra hidle
  rw [h.outside hidle t] at he
  cases he

variable [DecidableEq τ]

theorem item_signalHasSpace (callers : Option τ → Caller) (o : Option (Option τ)) (c : Option τ) :
    (signalHasSpace callers o c).item = (callers c).item := by
  cases o with
  | none => rfl
  | some c' =>
    by_cases hc : c = c'
    · subst hc
      rw [signalHasSpace, Function.update_self, item_wake]
    · rw [signalHasSpace, Function.update_of_ne hc]

/-- A call of `addObjJob` returns. -/
theorem Calling.back {t : τ} {n : ℕ} (h : Calling s)
    (ht : (s.callers (some t)).item = some (some n))
    (hc : s'.callers = Function.update s.callers (some t) .out) (hd : s'.dtor = s.dtor)
    (hn : s'.calls = s.calls)
    (hp : (s'.accepted ++ s'.refused).Perm (n :: (s.accepted ++ s.refused))) : Calling s' := by
  obtain ⟨n', he, hlt, hnot⟩ := h.job t _ ht
  obtain rfl : n = n' := Option.some.inj he
  -- the callers that are still there
  have hitem : ∀ t' e, (s'.callers (some t')).item = some e →
      t' ≠ t ∧ (s.callers (some t')).item = some e := by
    intro t' e he'
    rw [hc] at he'
    by_cases htt : t' = t
    · subst htt
      simp [Caller.item] at he'
    · rw [Function.update_of_ne (by simpa using htt)] at he'
      exact ⟨htt, he'⟩
  constructor
  · intro t' e he'
    obtain ⟨hne, he'⟩ := hitem t' e he'
    obtain ⟨m, rfl, hm, hmem⟩ := h.job t' e he'
    refine ⟨m, rfl, hn ▸ hm, ?_⟩
    rw [hp.mem_iff, List.mem_cons]
    rintro (rfl | hmem')
    · exact hne (h.distinct t' t _ he' ht)
    · exact hmem hmem'
  · intro t₁ t₂ e h₁ h₂
    exact h.distinct t₁ t₂ e (hitem t₁ e h₁).2 (hitem t₂ e h₂).2
  · intro m hm
    rw [hn]
    rcases List.mem_cons.1 (hp.mem_iff.1 hm) with rfl | hm
    · exact hlt
    · exact h.known m hm
  · exact hp.nodup_iff.2 (List.nodup_cons.2 ⟨hnot, h.nodup⟩)
  · intro hidle t'
    have hout := h.outside (hd ▸ hidle) t
    rw [ht] at hout
    cases hout
  · rw [hc, Function.update_of_ne (by simp), hd]
    exact h.dtor
  · rw [hd]
    exact h.below

/-- The destructor begins, or goes on to the next pill. -/
theorem Calling.pill {k : ℕ} (h : Calling s) (hout : ∀ t, (s.callers (some t)).item = none)
    (hc : s'.callers = Function.update s.callers none (Dtor.after sz k).caller)
    (hd : s'.dtor = .after sz k) (ha : s'.accepted = s.accepted) (hr : s'.refused = s.refused)
    (hn : s'.calls = s.calls) : Calling s' := by
  have hsome : ∀ t, s'.callers (some t) = s.callers (some t) := by
    intro t
    rw [hc, Function.update_of_ne (by simp)]
  constructor
  · intro t e he
    rw [hsome, hout t] at he
    cases he
  · intro t t' e he
    rw [hsome, hout t] at he
    cases he
  · rw [ha, hr, hn]
    exact h.known
  · rw [ha, hr]
    exact h.nodup
  · intro _ t
    rw [hsome]
    exact hout t
  · rw [hc, Function.update_self, hd]
  · intro k' hk'
    rw [hd, Dtor.after] at hk'
    split_ifs at hk' with hk
    obtain rfl : k = k' := Dtor.pills.inj hk'
    exact hk

theorem calling_step {a : Act sz τ} (h : Calling s) (hstep : Step s a s') : Calling s' := by
  cases hstep with
  | @call t hout hd =>
    have hitem : ∀ t' e, (Function.update s.callers (some t) (.enq (some s.calls)) (some t')).item =
        some e → (t' = t ∧ e = some s.calls) ∨ (t' ≠ t ∧ (s.callers (some t')).item = some e) := by
      intro t' e he
      by_cases htt : t' = t
      · subst htt
        rw [Function.update_self] at he
        exact .inl ⟨rfl, (Option.some.inj he).symm⟩
      · rw [Function.update_of_ne (by simpa using htt)] at he
        exact .inr ⟨htt, he⟩
    constructor
    · intro t' e he
      rcases hitem t' e he with ⟨rfl, rfl⟩ | ⟨-, he⟩
      · exact ⟨s.calls, rfl, Nat.lt_succ_self _, fun hmem => (h.known _ hmem).false⟩
      · obtain ⟨n, rfl, hn, hnot⟩ := h.job t' e he
        exact ⟨n, rfl, Nat.lt_succ_of_lt hn, hnot⟩
    · intro t₁ t₂ e h₁ h₂
      rcases hitem t₁ e h₁ with ⟨rfl, rfl⟩ | ⟨-, hold₁⟩
      · rcases hitem t₂ _ h₂ with ⟨rfl, -⟩ | ⟨-, hold₂⟩
        · rfl
        · obtain ⟨n, hn, hlt, -⟩ := h.job t₂ _ hold₂
          exact absurd (Option.some.inj hn) hlt.ne'
      · rcases hitem t₂ e h₂ with ⟨rfl, rfl⟩ | ⟨-, hold₂⟩
        · obtain ⟨n, hn, hlt, -⟩ := h.job t₁ _ hold₁
          exact absurd (Option.some.inj hn) hlt.ne'
        · exact h.distinct t₁ t₂ e hold₁ hold₂
    · exact fun n hn => Nat.lt_succ_of_lt (h.known n hn)
    · exact h.nodup
    · exact fun hidle => absurd hd hidle
    · exact h.dtor
    · exact h.below
  | @push t e jobq o hc hq ho =>
    obtain ⟨n, rfl, -⟩ := h.job t e (item_of_tries hc)
    refine h.back (item_of_tries hc) rfl rfl rfl ?_
    show (s.accepted ++ [n] ++ s.refused).Perm _
    rw [List.append_assoc]
    exact List.perm_middle
  | @refuse t e hc hq hb =>
    obtain ⟨n, rfl, -⟩ := h.job t e (item_of_tries hc)
    refine h.back (item_of_tries hc) rfl rfl rfl ?_
    show (s.accepted ++ (s.refused ++ [n])).Perm _
    rw [← List.append_assoc]
    exact List.perm_append_singleton _ _
  | @pushPill e jobq o hc hq ho =>
    exact h.pill (h.pilling (item_of_tries hc)).2.2 rfl rfl rfl rfl rfl
  | @destroy hd hout => exact h.pill (fun t => by rw [hout t]; rfl) rfl rfl rfl rfl rfl
  | @block c e hc hq hb =>
    refine h.congr (fun c' => ?_) rfl rfl rfl rfl
    by_cases hcc : c' = c
    · subst hcc
      rw [item_of_tries hc]
      dsimp only
      rw [Function.update_self]
      rfl
    · dsimp only
      rw [Function.update_of_ne hcc]
  | @take w e jobq o hw hq ho =>
    refine h.congr (fun c => ?_) rfl rfl rfl rfl
    dsimp only
    split_ifs
    · exact item_signalHasSpace _ _ _
    · rfl
  | @wakeCaller c hc =>
    exact h.congr (item_signalHasSpace s.callers (some c)) rfl rfl rfl rfl
  | wait | finish | wakeWorker => exact h.congr (fun _ => rfl) rfl rfl rfl rfl
  | @join w hd hw =>
    refine ⟨h.job, h.distinct, h.known, h.nodup, fun _ => h.outside (by simp [hd]), ?_, by simp⟩
    rw [h.dtor, hd]
    rfl

end Calling

/-! ## The queue -/

/-- What has gone through the queue: first the accepted jobs, then the pills. -/
structure Queued (s : Sys sz τ) : Prop where
  max : s.jobq.max = 100 * sz
  bound : s.jobq.q.length ≤ 100 * sz
  order : s.enqueued = s.taken ++ s.jobq.q
  content : s.enqueued = s.accepted.map some ++ List.replicate (s.dtor.pushed sz) none
  pushed : s.dtor.pushed sz ≤ sz

theorem queued_init (blocking : Bool) : Queued (init sz τ blocking) := by
  constructor <;> simp [init, Dtor.pushed]

section Queued

variable {s s' : Sys sz τ}

theorem Queued.room {e : Option ℕ} {jobq : Fifo (Option ℕ)} (h : Queued s) (hsz : 0 < sz)
    (hq : s.jobq.enq e = some jobq) :
    jobq.q = s.jobq.q ++ [e] ∧ jobq.max = 100 * sz ∧ jobq.q.length ≤ 100 * sz := by
  have hroom := Fifo.room_of_enq hq
  have hjobq := Fifo.q_of_enq hq
  rw [h.max] at hroom
  refine ⟨hjobq, (Fifo.max_of_enq hq).trans h.max, ?_⟩
  rw [hjobq, List.length_append, List.length_singleton]
  omega

variable [DecidableEq τ]

theorem queued_step {a : Act sz τ} (h : Queued s) (hcalls : Calling s) (hsz : 0 < sz)
    (hstep : Step s a s') : Queued s' := by
  cases hstep with
  | @push t e jobq o hc hq ho =>
    obtain ⟨n, rfl, -⟩ := hcalls.job t e (item_of_tries hc)
    have hidle := hcalls.idle (item_of_tries hc)
    obtain ⟨hjobq, hmax, hlen⟩ := h.room hsz hq
    have hcontent := h.content
    rw [hidle] at hcontent
    refine ⟨hmax, hlen, ?_, ?_, h.pushed⟩
    · show s.enqueued ++ [some n] = s.taken ++ jobq.q
      rw [hjobq, ← List.append_assoc, ← h.order]
    · show s.enqueued ++ [some n] = (s.accepted ++ [n]).map some ++ List.replicate (s.dtor.pushed sz) none
      rw [hcontent, hidle]
      simp [Dtor.pushed]
  | @pushPill e jobq o hc hq ho =>
    obtain ⟨rfl, ⟨k, hk, hlt⟩, -⟩ := hcalls.pilling (item_of_tries hc)
    obtain ⟨hjobq, hmax, hlen⟩ := h.room hsz hq
    have hpushed : s.dtor.pushed sz = k := by rw [hk]; rfl
    have hafter : (Dtor.after sz (s.dtor.pushed sz + 1)).pushed sz = k + 1 := by
      rw [hpushed]
      exact pushed_after hlt
    refine ⟨hmax, hlen, ?_, ?_, ?_⟩
    · show s.enqueued ++ [none] = s.taken ++ jobq.q
      rw [hjobq, ← List.append_assoc, ← h.order]
    · show s.enqueued ++ [none] = s.accepted.map some ++ List.replicate _ none
      rw [hafter, h.content, hpushed, List.append_assoc, List.replicate_succ']
    · show (Dtor.after sz _).pushed sz ≤ sz
      omega
  | @take w e jobq o hw hq ho =>
    have hjobq := Fifo.q_of_deq hq
    have hbound := h.bound
    rw [hjobq, List.length_cons] at hbound
    refine ⟨(Fifo.max_of_deq hq).trans h.max, by dsimp only; omega, ?_, h.content, h.pushed⟩
    show s.enqueued = s.taken ++ [e] ++ jobq.q
    rw [h.order, hjobq, List.append_assoc, List.singleton_append]
  | @destroy hd hout =>
    have hafter : (Dtor.after sz 0).pushed sz = 0 := pushed_after (Nat.zero_le sz)
    have hcontent := h.content
    rw [hd] at hcontent
    refine ⟨h.max, h.bound, h.order, ?_, by rw [hafter]; exact Nat.zero_le sz⟩
    show s.enqueued = s.accepted.map some ++ List.replicate ((Dtor.after sz 0).pushed sz) none
    rw [hcontent, hafter]
    rfl
  | @join w hd hw =>
    have hcontent := h.content
    rw [hd] at hcontent
    exact ⟨h.max, h.bound, h.order, hcontent, le_rfl⟩
  | _ => exact ⟨h.max, h.bound, h.order, h.content, h.pushed⟩

end Queued

/-! ## The workers -/

/-- The number of workers in a phase. -/
def count (s : Sys sz τ) (p : Worker) : ℕ := (Finset.univ.filter (fun w => s.workers w = p)).card

/-- What the workers have done and are about to do. -/
structure Serving (s : Sys sz τ) : Prop where
  wake : (∃ w, s.workers w = .asleep) → s.jobq.q.length ≤ s.count .woken
  jobs : ∀ n, s.taken.count (some n) = s.executed.count n + s.count (.running n)
  exits : s.taken.count none = s.count .exited
  eaten : ∀ w, s.pills w = if s.workers w = .exited then 1 else 0
  joined : ∀ i, s.dtor = .joins i → i ≤ sz ∧ ∀ w : Fin sz, w.val < i → s.workers w = .exited

theorem serving_init (blocking : Bool) : Serving (init sz τ blocking) := by
  constructor <;> simp [init, count]

section Serving

variable {s s' : Sys sz τ}

/-- The workers in a phase after one of them has changed. -/
theorem count_update {w : Fin sz} {p : Worker} (hs' : s'.workers = Function.update s.workers w p)
    (p' : Worker) : (s'.count p' + if s.workers w = p' then 1 else 0) =
      s.count p' + if p = p' then 1 else 0 := by
  unfold count
  rw [hs']
  exact card_filter_update s.workers w p (fun x => x = p')

/-- A worker moves about in the loop of `deq`. -/
theorem Serving.shift {w : Fin sz} {p : Worker} (h : Serving s)
    (hs' : s'.workers = Function.update s.workers w p) (ht : s'.taken = s.taken)
    (he : s'.executed = s.executed) (hp : s'.pills = s.pills)
    (hd : ∀ i, s'.dtor = .joins i → s.dtor = .joins i ∨ i = 0)
    (hold : s.workers w ≠ .exited ∧ ∀ n, s.workers w ≠ .running n)
    (hnew : p ≠ .exited ∧ ∀ n, p ≠ .running n)
    (hwake : (∃ w, s'.workers w = .asleep) → s'.jobq.q.length ≤ s'.count .woken) :
    Serving s' := by
  have hexited : ∀ w', s'.workers w' = .exited ↔ s.workers w' = .exited := by
    intro w'
    rw [hs']
    by_cases hw : w' = w
    · subst hw
      rw [Function.update_self]
      exact iff_of_false hnew.1 hold.1
    · rw [Function.update_of_ne hw]
  refine ⟨hwake, ?_, ?_, ?_, ?_⟩
  · intro n
    have hcount := count_update hs' (.running n)
    rw [if_neg (hold.2 n), if_neg (hnew.2 n)] at hcount
    rw [ht, he, h.jobs n]
    omega
  · have hcount := count_update hs' .exited
    rw [if_neg hold.1, if_neg hnew.1] at hcount
    rw [ht, h.exits]
    omega
  · intro w'
    simp only [hp, h.eaten w', hexited]
  · intro i hi
    rcases hd i hi with hi | rfl
    · obtain ⟨hle, hall⟩ := h.joined i hi
      exact ⟨hle, fun w' hw' => (hexited w').2 (hall w' hw')⟩
    · exact ⟨Nat.zero_le sz, fun w' hw' => absurd hw' (Nat.not_lt_zero _)⟩

/-- `enq` has pushed an entry and signals: the sleepers stay covered. -/
theorem Serving.signal {o : Option (Fin sz)} {e : Option ℕ} (h : Serving s)
    (ho : Signals (fun w => s.workers w = .asleep) o)
    (hs' : s'.workers = signalNonEmpty s.workers o) (hq : s'.jobq.q = s.jobq.q ++ [e])
    (ht : s'.taken = s.taken) (he : s'.executed = s.executed) (hp : s'.pills = s.pills)
    (hd : ∀ i, s'.dtor = .joins i → s.dtor = .joins i ∨ i = 0) : Serving s' := by
  cases o with
  | none =>
    have hcount : ∀ p, s'.count p = s.count p := fun p => by rw [count, count, hs', signalNonEmpty]
    refine ⟨?_, ?_, ?_, ?_, ?_⟩
    · rintro ⟨w, hw⟩
      rw [hs'] at hw
      exact absurd hw (ho w)
    · intro n
      rw [ht, he, hcount, h.jobs n]
    · rw [ht, hcount, h.exits]
    · intro w
      rw [hp, hs', h.eaten w]
      rfl
    · intro i hi
      rw [hs']
      rcases hd i hi with hi | rfl
      · exact h.joined i hi
      · exact ⟨Nat.zero_le sz, fun w hw => absurd hw (Nat.not_lt_zero _)⟩
  | some w =>
    have hw : s.workers w = .asleep := ho
    refine h.shift hs' ht he hp hd (by simp [hw]) (by simp) ?_
    intro _
    -- one more entry, and one more worker that is up
    have hcount := count_update hs' .woken
    have hlen := h.wake ⟨w, hw⟩
    rw [hw, if_neg (by simp), if_pos rfl] at hcount
    rw [hq, List.length_append, List.length_singleton]
    omega

theorem looks_iff (p : Worker) : p.looks = true ↔ p = .ready ∨ p = .woken := by
  cases p <;> simp [Worker.looks]

/-- A worker takes the entry at the front. -/
theorem Serving.take {w : Fin sz} {e : Option ℕ} {jobq : Fifo (Option ℕ)} (h : Serving s)
    (hw : (s.workers w).looks = true) (hq : s.jobq.q = e :: jobq.q)
    (hs' : s'.workers = Function.update s.workers w (.after e)) (hjobq : s'.jobq = jobq)
    (ht : s'.taken = s.taken ++ [e]) (he : s'.executed = s.executed)
    (hp : s'.pills = if e = none then Function.update s.pills w (s.pills w + 1) else s.pills)
    (hd : s'.dtor = s.dtor) : Serving s' := by
  have hlooks := (looks_iff _).1 hw
  have hnot : s.workers w ≠ .exited ∧ s.workers w ≠ .asleep ∧ ∀ n, s.workers w ≠ .running n := by
    rcases hlooks with hw | hw <;> simp [hw]
  have hnew : Worker.after e ≠ .asleep ∧ Worker.after e ≠ .woken := by
    cases e <;> simp [Worker.after]
  refine ⟨?_, ?_, ?_, ?_, ?_⟩
  · rintro ⟨w', hw'⟩
    rw [hs'] at hw'
    have hne : w' ≠ w := by
      rintro rfl
      rw [Function.update_self] at hw'
      exact hnew.1 hw'
    rw [Function.update_of_ne hne] at hw'
    have hlen := h.wake ⟨w', hw'⟩
    have hcount := count_update hs' .woken
    rw [if_neg hnew.2] at hcount
    rw [hq, List.length_cons] at hlen
    rw [hjobq]
    split_ifs at hcount <;> omega
  · intro n
    have hcount := count_update hs' (.running n)
    rw [if_neg (hnot.2.2 n)] at hcount
    rw [ht, List.count_append, h.jobs n, he]
    cases e with
    | none => simpa [Worker.after] using hcount.symm
    | some m =>
      by_cases hm : m = n
      · subst hm
        simp [Worker.after] at hcount ⊢
        omega
      · simp [Worker.after, hm] at hcount ⊢
        omega
  · have hcount := count_update hs' .exited
    rw [if_neg hnot.1] at hcount
    rw [ht, List.count_append, h.exits]
    cases e with
    | none =>
      simp [Worker.after] at hcount ⊢
      omega
    | some m =>
      simp [Worker.after] at hcount ⊢
      omega
  · intro w'
    rw [hp, hs']
    by_cases hww : w' = w
    · subst hww
      have heaten := h.eaten w'
      rw [if_neg hnot.1] at heaten
      cases e <;> simp [Worker.after, heaten]
    · have heaten := h.eaten w'
      cases e <;> simp [hww, heaten]
  · intro i hi
    obtain ⟨hle, hall⟩ := h.joined i (hd ▸ hi)
    refine ⟨hle, fun w' hw' => ?_⟩
    have hne : w' ≠ w := by
      rintro rfl
      exact hnot.1 (hall w' hw')
    rw [hs', Function.update_of_ne hne]
    exact hall w' hw'

/-- A job ends. -/
theorem Serving.finish {w : Fin sz} {n : ℕ} (h : Serving s) (hw : s.workers w = .running n)
    (hs' : s'.workers = Function.update s.workers w .ready) (hjobq : s'.jobq = s.jobq)
    (ht : s'.taken = s.taken) (he : s'.executed = s.executed ++ [n]) (hp : s'.pills = s.pills)
    (hd : s'.dtor = s.dtor) : Serving s' := by
  have hkeep : ∀ p, p ≠ .ready → p ≠ .running n → ∀ w', s'.workers w' = p ↔ s.workers w' = p := by
    intro p h1 h2 w'
    rw [hs']
    by_cases hww : w' = w
    · subst hww
      rw [Function.update_self, hw]
      exact iff_of_false (Ne.symm h1) (Ne.symm h2)
    · rw [Function.update_of_ne hww]
  have hcount : ∀ p, p ≠ .ready → p ≠ .running n → s'.count p = s.count p := by
    intro p h1 h2
    unfold count
    simp only [hkeep p h1 h2]
  refine ⟨?_, ?_, ?_, ?_, ?_⟩
  · rintro ⟨w', hw'⟩
    rw [hcount _ (by simp) (by simp), hjobq]
    exact h.wake ⟨w', (hkeep .asleep (by simp) (by simp) w').1 hw'⟩
  · intro m
    rw [ht, he, List.count_append, h.jobs m]
    by_cases hm : n = m
    · subst hm
      have hrun := count_update hs' (.running n)
      rw [if_pos hw, if_neg (by simp)] at hrun
      simp
      omega
    · rw [hcount _ (by simp) (by simpa using Ne.symm hm)]
      simp [hm]
  · rw [ht, h.exits, hcount _ (by simp) (by simp)]
  · intro w'
    simp only [hp, h.eaten w', hkeep .exited (by simp) (by simp)]
  · intro i hi
    obtain ⟨hle, hall⟩ := h.joined i (hd ▸ hi)
    exact ⟨hle, fun w' hw' => (hkeep .exited (by simp) (by simp) w').2 (hall w' hw')⟩

theorem joins_after {k i : ℕ} (h : Dtor.after sz k = .joins i) : i = 0 := by
  unfold Dtor.after at h
  split_ifs at h
  exact (Dtor.joins.inj h).symm

variable [DecidableEq τ]

theorem serving_step {a : Act sz τ} (h : Serving s) (hstep : Step s a s') : Serving s' := by
  cases hstep with
  | push hc hq ho =>
    exact h.signal ho rfl (Fifo.q_of_enq hq) rfl rfl rfl (fun i hi => .inl hi)
  | pushPill hc hq ho =>
    exact h.signal ho rfl (Fifo.q_of_enq hq) rfl rfl rfl (fun i hi => .inr (joins_after hi))
  | take hw hq ho => exact h.take hw (Fifo.q_of_deq hq) rfl rfl rfl rfl rfl rfl
  | @wait w hw hq =>
    have hlooks := (looks_iff _).1 hw
    refine h.shift rfl rfl rfl rfl (fun i hi => .inl hi) ?_ (by simp) ?_
    · rcases hlooks with hw | hw <;> simp [hw]
    · intro _
      show s.jobq.q.length ≤ _
      rw [Fifo.empty_of_deq hq]
      exact Nat.zero_le _
  | finish hw => exact h.finish hw rfl rfl rfl rfl rfl rfl
  | @wakeWorker w hw =>
    refine h.shift rfl rfl rfl rfl (fun i hi => .inl hi) (by simp [hw]) (by simp) ?_
    intro _
    have hcount : ({ s with workers := Function.update s.workers w .woken }.count .woken + _) = _ :=
      count_update (s := s) rfl .woken
    have hlen := h.wake ⟨w, hw⟩
    rw [hw, if_neg (by simp), if_pos rfl] at hcount
    show s.jobq.q.length ≤ _
    omega
  | destroy hd hout =>
    refine ⟨h.wake, h.jobs, h.exits, h.eaten, ?_⟩
    intro i hi
    obtain rfl := joins_after hi
    exact ⟨Nat.zero_le sz, fun w hw => absurd hw (Nat.not_lt_zero _)⟩
  | @join w hd hw =>
    refine ⟨h.wake, h.jobs, h.exits, h.eaten, ?_⟩
    intro i hi
    obtain rfl : w.val + 1 = i := Dtor.joins.inj hi
    refine ⟨w.isLt, fun w' hw' => ?_⟩
    rcases Nat.lt_succ_iff_lt_or_eq.1 hw' with hlt | heq
    · exact (h.joined _ hd).2 w' hlt
    · rw [Fin.ext heq]
      exact hw
  | call | block | refuse | wakeCaller => exact ⟨h.wake, h.jobs, h.exits, h.eaten, h.joined⟩

end Serving

/-! ## Runs -/

/-- The destructor sleeps only while the queue is full. -/
def Waiting (s : Sys sz τ) : Prop :=
  (s.callers none).sleeps = true → s.jobq.q.length = 100 * sz

theorem item_of_sleeps {c : Caller} (h : c.sleeps = true) : ∃ e, c.item = some e := by
  cases c with
  | asleep e => exact ⟨e, rfl⟩
  | _ => cases h

theorem not_sleeps_caller (d : Dtor) : d.caller.sleeps = false := by
  cases d <;> rfl

/-- What the runs keep. -/
structure Inv (s : Sys sz τ) : Prop where
  calling : Calling s
  queued : Queued s
  serving : Serving s
  waiting : Waiting s

theorem inv_init (blocking : Bool) : Inv (init sz τ blocking) :=
  ⟨calling_init blocking, queued_init blocking, serving_init blocking,
    by simp [Waiting, init, Caller.sleeps]⟩

section Invariant

variable {s s' : Sys sz τ} [DecidableEq τ]

theorem waiting_step {a : Act sz τ} (h : Waiting s) (hcalls : Calling s) (hqueue : Queued s)
    (hstep : Step s a s') : Waiting s' := by
  have hother : ∀ t p, Function.update s.callers (some t) p none = s.callers none :=
    fun t p => Function.update_of_ne (by simp) _ _
  cases hstep with
  | call | refuse =>
    intro hs
    dsimp only at hs
    rw [hother] at hs
    exact h hs
  | @push t e jobq o hc hq ho =>
    intro hs
    dsimp only at hs
    rw [hother] at hs
    obtain ⟨e', he'⟩ := item_of_sleeps hs
    have hout := (hcalls.pilling he').2.2 t
    rw [item_of_tries hc] at hout
    cases hout
  | pushPill hc hq ho =>
    intro hs
    dsimp only at hs
    rw [Function.update_self, not_sleeps_caller] at hs
    cases hs
  | destroy hd hout =>
    intro hs
    dsimp only at hs
    rw [Function.update_self, not_sleeps_caller] at hs
    cases hs
  | @block c e hc hq hb =>
    intro hs
    cases c with
    | some t =>
      dsimp only at hs
      rw [hother] at hs
      exact h hs
    | none =>
      have hfull := Fifo.full_of_enq hq
      have hbound := hqueue.bound
      rw [hqueue.max] at hfull
      show s.jobq.q.length = 100 * sz
      omega
  | @wakeCaller c hc =>
    intro hs
    dsimp only at hs
    cases c with
    | some t =>
      rw [hother] at hs
      exact h hs
    | none =>
      rw [Function.update_self] at hs
      cases hp : s.callers none <;> simp [hp, Caller.wake, Caller.sleeps] at hs hc
  | @take w e jobq o hw hq ho =>
    intro hs
    have hroom : jobq.max ≠ 0 ∧ jobq.q.length < jobq.max := by
      have hbound := hqueue.bound
      rw [Fifo.q_of_deq hq, List.length_cons] at hbound
      rw [Fifo.max_of_deq hq, hqueue.max]
      omega
    dsimp only at hs
    rw [if_pos hroom] at hs
    -- the destructor is the only sleeper, so that the signal wakes it
    exfalso
    by_cases hsleep : (s.callers none).sleeps = true
    · cases o with
      | none => exact ho none hsleep
      | some c =>
        cases c with
        | none =>
          rw [signalHasSpace, Function.update_self] at hs
          cases hp : s.callers none <;> simp [hp, Caller.wake, Caller.sleeps] at hs hsleep
        | some t =>
          obtain ⟨e', he'⟩ := item_of_sleeps hsleep
          obtain ⟨e'', he''⟩ := item_of_sleeps (show (s.callers (some t)).sleeps = true from ho)
          rw [(hcalls.pilling he').2.2 t] at he''
          cases he''
    · refine hsleep ?_
      cases o with
      | none => exact hs
      | some c =>
        cases c with
        | none =>
          rw [signalHasSpace, Function.update_self] at hs
          cases hp : s.callers none <;> simp [hp, Caller.wake, Caller.sleeps] at hs
        | some t => rwa [signalHasSpace, hother] at hs
  | wait | finish | join | wakeWorker => exact h

theorem inv_step {a : Act sz τ} (h : Inv s) (hsz : 0 < sz) (hstep : Step s a s') : Inv s' :=
  ⟨calling_step h.calling hstep, queued_step h.queued h.calling hsz hstep,
    serving_step h.serving hstep, waiting_step h.waiting h.calling h.queued hstep⟩

end Invariant

section Orderly

variable {s : Sys sz τ}

theorem Queued.count_none (h : Queued s) :
    s.taken.count none + s.jobq.q.count none = s.dtor.pushed sz := by
  rw [← List.count_append, ← h.order, h.content, List.count_append, List.count_replicate_self,
    List.count_eq_zero.2 (by simp), zero_add]

theorem Queued.count_some (h : Queued s) (n : ℕ) :
    s.taken.count (some n) + s.jobq.q.count (some n) = s.accepted.count n := by
  rw [← List.count_append, ← h.order, h.content, List.count_append,
    List.count_map_of_injective _ _ (Option.some_injective ℕ)]
  simp [List.count_replicate]

/-- The last entry of the queue is a pill when all pills have been pushed. -/
theorem Queued.pill_mem (h : Queued s) (hsz : 0 < sz) (hpushed : s.dtor.pushed sz = sz)
    (hq : s.jobq.q ≠ []) : 0 < s.jobq.q.count none := by
  have hlast : s.enqueued.getLast? = some none := by
    rw [h.content, hpushed, List.getLast?_append, List.getLast?_replicate, if_neg (by omega)]
    rfl
  rw [h.order, List.getLast?_append, List.getLast?_eq_some_getLast hq] at hlast
  have hmem : none ∈ s.jobq.q := by
    rw [← (show s.jobq.q.getLast hq = none by simpa using hlast)]
    exact List.getLast_mem hq
  exact List.count_pos_iff.2 hmem

/-- **No lost wake-up**: while there is an entry in the queue, some worker is up. -/
theorem Inv.exists_up (h : Inv s) (hsz : 0 < sz) (hq : s.jobq.q ≠ []) :
    ∃ w, s.workers w ≠ .asleep ∧ s.workers w ≠ .exited := by
  by_contra hno
  push Not at hno
  by_cases hasleep : ∃ w, s.workers w = .asleep
  · have hlen := h.serving.wake hasleep
    have hzero : s.count .woken = 0 := by
      rw [count, Finset.card_eq_zero, Finset.filter_eq_empty_iff]
      intro w _ hw
      have hexit := hno w (by simp [hw])
      rw [hw] at hexit
      cases hexit
    have hpos := List.length_pos_iff.2 hq
    omega
  · -- all workers have taken a pill, and there were no more
    push Not at hasleep
    have hall : s.count .exited = sz := by
      rw [count, Finset.filter_true_of_mem (fun w _ => hno w (hasleep w)), Finset.card_univ,
        Fintype.card_fin]
    have hexits := h.serving.exits
    have hcount := h.queued.count_none
    have hpushed := h.queued.pushed
    have hpill := h.queued.pill_mem hsz (by omega) hq
    omega

/-- What holds in every state of the pool. -/
structure Orderly (s : Sys sz τ) : Prop where
  /-- jobs are taken in the order they were enqueued -/
  order : s.taken ++ s.jobq.q = s.enqueued
  bound : s.jobq.q.length ≤ 100 * sz
  /-- no job is executed twice, and only jobs whose call has returned `true` are -/
  once : ∀ n, s.executed.count n ≤ 1 ∧ (n ∈ s.executed → n ∈ s.accepted)
  refused : ∀ n ∈ s.refused, some n ∉ s.taken ∧ n ∉ s.executed
  onePill : ∀ w, s.pills w ≤ 1
  /-- when the joins are complete, every accepted job has been executed and every worker has taken its
  pill -/
  complete : s.dtor = .joins sz →
    (∀ n ∈ s.accepted, s.executed.count n = 1) ∧ ∀ w, s.pills w = 1
  /-- a queue that is not empty does not leave all workers asleep -/
  awake : s.jobq.q ≠ [] → ∃ w, s.workers w ≠ .asleep ∧ s.workers w ≠ .exited

theorem Inv.accepted_nodup (h : Inv s) : s.accepted.Nodup :=
  (List.nodup_append.1 h.calling.nodup).1

theorem Inv.orderly (h : Inv s) (hsz : 0 < sz) : Orderly s := by
  have hexecuted : ∀ n, s.executed.count n ≤ s.accepted.count n := by
    intro n
    have hjobs := h.serving.jobs n
    have hcount := h.queued.count_some n
    omega
  refine ⟨h.queued.order.symm, h.queued.bound, ?_, ?_, ?_, ?_, h.exists_up hsz⟩
  · intro n
    have hle := hexecuted n
    refine ⟨hle.trans (List.nodup_iff_count_le_one.1 h.accepted_nodup n), fun hmem => ?_⟩
    have hpos := List.count_pos_iff.2 hmem
    exact List.count_pos_iff.1 (by omega)
  · intro n hn
    -- a call returns once
    have hnot : n ∉ s.accepted := fun hacc =>
      (List.nodup_append.1 h.calling.nodup).2.2 n hacc n hn rfl
    have hzero := List.count_eq_zero.2 hnot
    have hcount := h.queued.count_some n
    have hle := hexecuted n
    exact ⟨List.count_eq_zero.1 (by omega), List.count_eq_zero.1 (by omega)⟩
  · intro w
    rw [h.serving.eaten w]
    split_ifs <;> omega
  · intro hdone
    have hexit : ∀ w, s.workers w = .exited := fun w => (h.serving.joined sz hdone).2 w w.isLt
    have hempty : s.jobq.q = [] := by
      by_contra hq
      obtain ⟨w, -, hw⟩ := h.exists_up hsz hq
      exact hw (hexit w)
    refine ⟨fun n hn => ?_, fun w => by rw [h.serving.eaten w, if_pos (hexit w)]⟩
    have hrun : s.count (.running n) = 0 := by
      rw [count, Finset.card_eq_zero, Finset.filter_eq_empty_iff]
      intro w _ hw
      rw [hexit w] at hw
      cases hw
    have hjobs := h.serving.jobs n
    have hcount := h.queued.count_some n
    rw [hempty, List.count_nil, List.count_eq_one_of_mem h.accepted_nodup hn] at hcount
    omega

end Orderly

/-! ## The end of the destructor -/

/-- A bound for the steps that are left for the threads, apart from wake-ups without a signal: a pill to
be pushed, an entry of the queue and a running job each entail a few. -/
def work (s : Sys sz τ) : ℕ :=
  s.dtor.work sz + 4 * s.jobq.q.length + ∑ w, (s.workers w).work + (s.callers none).work

section Progress

variable {s s' : Sys sz τ}

theorem sum_work_update (w : Fin sz) (p : Worker) :
    ∑ v, (Function.update s.workers w p v).work + (s.workers w).work =
      ∑ v, (s.workers v).work + p.work :=
  sum_update_add s.workers w p Worker.work

/-- A signal adds the work of one worker at most. -/
theorem sum_work_signal {o : Option (Fin sz)} (ho : Signals (fun w => s.workers w = .asleep) o) :
    ∑ v, (signalNonEmpty s.workers o v).work ≤ ∑ v, (s.workers v).work + 1 := by
  cases o with
  | none => exact Nat.le_succ _
  | some w =>
    have hsum := sum_work_update (s := s) w .woken
    rw [show s.workers w = .asleep from ho] at hsum
    exact hsum.le

theorem work_after {k : ℕ} (h : k < sz) :
    (Dtor.after sz (k + 1)).work sz + (Dtor.after sz (k + 1)).caller.work + 6 ≤
      (Dtor.pills k).work sz := by
  unfold Dtor.after
  split_ifs with hk
  · simp only [Dtor.work, Dtor.caller, Caller.work]
    omega
  · simp only [Dtor.work, Dtor.caller, Caller.work]
    omega

theorem work_looks {p : Worker} (h : p.looks = true) : p.work = 1 := by
  rcases (looks_iff p).1 h with rfl | rfl <;> rfl

theorem work_tries {c : Caller} {e : Option ℕ} (h : c.tries = some e) : c.work = 1 := by
  cases c <;> simp_all [Caller.tries, Caller.work]

variable [DecidableEq τ]

theorem work_signalHasSpace (callers : Option τ → Caller) (o : Option (Option τ)) :
    (signalHasSpace callers o none).work ≤ (callers none).work + 1 := by
  cases o with
  | none => exact Nat.le_succ _
  | some c =>
    cases c with
    | none =>
      rw [signalHasSpace, Function.update_self]
      cases callers none <;> simp [Caller.wake, Caller.work]
    | some t =>
      rw [signalHasSpace, Function.update_of_ne (by simp)]
      exact Nat.le_succ _

/-- **Every step of the shutdown reduces the work**, and a wake-up without a signal adds one at most. -/
theorem work_step {a : Act sz τ} (h : Inv s) (hd : s.dtor ≠ .idle) (hstep : Step s a s') :
    s'.dtor ≠ .idle ∧ s'.work + 1 ≤ s.work + 2 * if a.spurious then 1 else 0 := by
  have hout := h.calling.outside hd
  cases hstep with
  | call _ hidle => exact absurd hidle hd
  | destroy hidle => exact absurd hidle hd
  | @push t e jobq o hc hq ho =>
    have hitem := item_of_tries hc
    rw [hout t] at hitem
    cases hitem
  | @refuse t e hc hq hb =>
    have hitem := item_of_tries hc
    rw [hout t] at hitem
    cases hitem
  | @pushPill e jobq o hc hq ho =>
    obtain ⟨-, ⟨k, hk, hlt⟩, -⟩ := h.calling.pilling (item_of_tries hc)
    have hafter := work_after hlt
    have hsum := sum_work_signal ho
    have hlen : jobq.q.length = s.jobq.q.length + 1 := by simp [Fifo.q_of_enq hq]
    have hcaller := work_tries hc
    rw [hk]
    refine ⟨?_, ?_⟩
    · show Dtor.after sz _ ≠ .idle
      unfold Dtor.after
      split_ifs <;> simp
    · simp only [work, Function.update_self, hk, Dtor.pushed, Act.spurious] at *
      omega
  | @block c e hc hq hb =>
    refine ⟨hd, ?_⟩
    cases c with
    | some t =>
      have hitem := item_of_tries hc
      rw [hout t] at hitem
      cases hitem
    | none =>
      have hcaller := work_tries hc
      have hasleep : (Caller.asleep e).work = 0 := rfl
      simp only [work, Function.update_self, Act.spurious, hasleep]
      omega
  | @take w e jobq o hw hq ho =>
    refine ⟨hd, ?_⟩
    have hsum := sum_work_update (s := s) w (.after e)
    have hlooks := work_looks hw
    have hlen : s.jobq.q.length = jobq.q.length + 1 := by simp [Fifo.q_of_deq hq]
    have hafter : (Worker.after e).work ≤ 2 := by cases e <;> simp [Worker.after, Worker.work]
    have hcaller : ((if jobq.max ≠ 0 ∧ jobq.q.length < jobq.max then signalHasSpace s.callers o
        else s.callers) none).work ≤ (s.callers none).work + 1 := by
      split_ifs
      · exact work_signalHasSpace s.callers o
      · exact Nat.le_succ _
    simp only [work, Act.spurious]
    omega
  | @wait w hw hq =>
    refine ⟨hd, ?_⟩
    have hsum := sum_work_update (s := s) w .asleep
    have hlooks := work_looks hw
    have hasleep : Worker.asleep.work = 0 := rfl
    simp only [work, Act.spurious]
    omega
  | @finish w n hw =>
    refine ⟨hd, ?_⟩
    have hsum := sum_work_update (s := s) w .ready
    have hrunning : (s.workers w).work = 2 := by rw [hw]; rfl
    have hready : Worker.ready.work = 1 := rfl
    simp only [work, Act.spurious]
    omega
  | @join w hjoins hw =>
    refine ⟨by simp, ?_⟩
    have hlt := w.isLt
    simp only [work, Act.spurious, hjoins, Dtor.work]
    omega
  | @wakeWorker w hw =>
    refine ⟨hd, ?_⟩
    have hsum := sum_work_update (s := s) w .woken
    have hwoken : Worker.woken.work = 1 := rfl
    simp only [work, Act.spurious, if_true]
    omega
  | @wakeCaller c hc =>
    refine ⟨hd, ?_⟩
    have hcaller := work_signalHasSpace s.callers (some c)
    rw [signalHasSpace] at hcaller
    simp only [work, Act.spurious, if_true]
    omega

theorem exists_signal {ι : Type} (asleep : ι → Prop) : ∃ o, Signals asleep o := by
  by_cases h : ∃ i, asleep i
  · obtain ⟨i, hi⟩ := h
    exact ⟨some i, hi⟩
  · exact ⟨none, fun i hi => h ⟨i, hi⟩⟩

/-- A worker that is up can go on. -/
theorem exists_step_worker {w : Fin sz} (hasleep : s.workers w ≠ .asleep)
    (hexited : s.workers w ≠ .exited) : ∃ a s', a.spurious = false ∧ Step s a s' := by
  have hlooks : (s.workers w).looks = true → ∃ a s', a.spurious = false ∧ Step s a s' := by
    intro hw
    cases hq : s.jobq.deq with
    | none => exact ⟨.deq w, _, rfl, .wait hw hq⟩
    | some r =>
      obtain ⟨e, jobq⟩ := r
      obtain ⟨o, ho⟩ := exists_signal (fun c => (s.callers c).sleeps = true)
      exact ⟨.deq w, _, rfl, .take hw hq ho⟩
  cases hw : s.workers w with
  | asleep => exact absurd hw hasleep
  | exited => exact absurd hw hexited
  | ready => exact hlooks (by rw [hw]; rfl)
  | woken => exact hlooks (by rw [hw]; rfl)
  | running n => exact ⟨.finish w, _, rfl, .finish hw⟩

/-- The destructor can go on when it has an entry to push. -/
theorem exists_step_pill {e : Option ℕ} (hc : (s.callers none).tries = some e) :
    ∃ a s', a.spurious = false ∧ Step s a s' := by
  cases hq : s.jobq.enq e with
  | none => exact ⟨.enq none, _, rfl, .block hc hq (.inl rfl)⟩
  | some jobq =>
    obtain ⟨o, ho⟩ := exists_signal (fun w => s.workers w = .asleep)
    exact ⟨.enq none, _, rfl, .pushPill hc hq ho⟩

/-- **The destructor is never stuck**: until the joins are complete, some thread can go on. -/
theorem Inv.exists_step (h : Inv s) (hsz : 0 < sz) (hd : s.dtor ≠ .idle) (hdone : s.dtor ≠ .joins sz) :
    ∃ a s', a.spurious = false ∧ Step s a s' := by
  -- an entry in the queue is enough
  have hqueue : s.jobq.q ≠ [] → ∃ a s', a.spurious = false ∧ Step s a s' := by
    intro hq
    obtain ⟨w, hasleep, hexited⟩ := h.exists_up hsz hq
    exact exists_step_worker hasleep hexited
  cases hp : s.dtor with
  | idle => exact absurd hp hd
  | pills k =>
    have hitem := h.calling.dtor
    rw [hp] at hitem
    cases hc : s.callers none with
    | out =>
      rw [hc] at hitem
      cases hitem
    | enq e => exact exists_step_pill (e := e) (by rw [hc]; rfl)
    | woken e => exact exists_step_pill (e := e) (by rw [hc]; rfl)
    | asleep e =>
      have hfull := h.waiting (by rw [hc]; rfl)
      refine hqueue (fun hq => ?_)
      rw [hq, List.length_nil] at hfull
      omega
  | joins i =>
    obtain ⟨hle, -⟩ := h.serving.joined i hp
    have hlt : i < sz := by
      refine lt_of_le_of_ne hle ?_
      rintro rfl
      exact hdone hp
    by_cases hw : s.workers ⟨i, hlt⟩ = .exited
    · exact ⟨.join, _, rfl, .join (w := ⟨i, hlt⟩) hp hw⟩
    · -- a worker is left, and so is its pill
      have hcount : s.count .exited < sz := by
        have hcard := Finset.card_lt_univ_of_notMem
          (show (⟨i, hlt⟩ : Fin sz) ∉ Finset.univ.filter (fun w => s.workers w = .exited) by simpa using hw)
        rwa [Fintype.card_fin] at hcard
      have hexits := h.serving.exits
      have hpills := h.queued.count_none
      rw [hp] at hpills
      have hpushed : (Dtor.joins i).pushed sz = sz := rfl
      refine hqueue (fun hq => ?_)
      rw [hq, List.count_nil] at hpills
      omega

/-- The destructor comes to its end: its runs have a bounded length, up to wake-ups without a signal, and
none of them ends before the joins are complete. -/
def Completes (s : Sys sz τ) : Prop :=
  ∀ t s', Trace Step s t s' →
    t.length ≤ s.work + 2 * t.countP Act.spurious ∧
    (s'.dtor ≠ .joins sz → ∃ a s'', a.spurious = false ∧ Step s' a s'')

theorem Inv.completes (h : Inv s) (hsz : 0 < sz) (hd : s.dtor ≠ .idle) : Completes s := by
  intro t s' ht
  have hrun : Inv s' ∧ s'.dtor ≠ .idle ∧
      s'.work + t.length ≤ s.work + 2 * t.countP Act.spurious := by
    refine Trace.history (I := fun t s' => Inv s' ∧ s'.dtor ≠ .idle ∧
      s'.work + t.length ≤ s.work + 2 * t.countP Act.spurious) ⟨h, hd, le_rfl⟩ ?_ ht
    rintro t s₁ a s₂ ⟨h₁, hd₁, hle⟩ hstep
    obtain ⟨hd₂, hwork⟩ := work_step h₁ hd₁ hstep
    refine ⟨inv_step h₁ hsz hstep, hd₂, ?_⟩
    rw [List.length_append, List.countP_append, List.length_singleton, List.countP_singleton]
    omega
  exact ⟨by omega, hrun.1.exists_step hsz hrun.2.1⟩

/-- **The pool runs every accepted job exactly once**, in the order of the queue, and its destructor
comes to its end. -/
theorem orderly_of_trace {blocking : Bool} {t : List (Act sz τ)} {s : Sys sz τ} (hsz : 0 < sz)
    (h : Trace Step (init sz τ blocking) t s) : Orderly s ∧ (s.dtor ≠ .idle → Completes s) := by
  have hinv : Inv s :=
    Trace.invariant (inv_init blocking) (fun _ _ _ hs hstep => inv_step hs hsz hstep) h
  exact ⟨hinv.orderly hsz, hinv.completes hsz⟩

/-- A pool of one worker: a job runs while the destructor starts, and the worker sleeps until the pill
comes. -/
theorem orderly_one_worker : ∃ (t : List (Act 1 Unit)) (s : Sys 1 Unit),
    Trace Step (init 1 Unit false) t s ∧ s.dtor = .joins 1 ∧ s.accepted = [0] ∧
      s.executed.count 0 = 1 ∧ s.pills 0 = 1 ∧ Completes s := by
  have h1 := Trace.snoc (.nil : Trace Step (init 1 Unit false) [] _) (.call (t := ()) rfl rfl)
  have h2 := h1.snoc (.push (t := ()) (o := none) rfl rfl (fun w hw => by cases hw))
  have h3 := h2.snoc (.take (w := 0) (o := none) rfl rfl (by intro c hc; cases c <;> cases hc))
  have h4 := h3.snoc (.destroy rfl (fun t => rfl))
  have h5 := h4.snoc (.finish (w := 0) rfl)
  have h6 := h5.snoc (.wait (w := 0) rfl rfl)
  have h7 := h6.snoc (.pushPill (o := some 0) rfl rfl rfl)
  have h8 := h7.snoc (.take (w := 0) (o := none) rfl rfl (by intro c hc; cases c <;> cases hc))
  have h9 := h8.snoc (.join (w := 0) rfl rfl)
  obtain ⟨horderly, hcompletes⟩ := orderly_of_trace (by decide) h9
  have hdone := horderly.complete rfl
  exact ⟨_, _, h9, rfl, rfl, hdone.1 0 List.mem_cons_self, hdone.2 0, hcompletes (by simp)⟩

end Progress

end Sys

end ThrPool
