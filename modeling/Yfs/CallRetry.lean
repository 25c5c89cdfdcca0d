/-
# The retry loop of a call (`rpc/rpc.cc`, `rpcc::call1`)

`call1` sends its request, waits for the reply with `pthread_cond_timedwait`, doubles the time it waits,
and sends the request again when its connection has died.  A deadline that would lie beyond the final
one is replaced by it, and `finaldeadline.tv_sec = 0` then marks the wait as the last one.

* One turn of the loop up to the return or the wait is a step (`turn`), and so is every return of
  `pthread_cond_timedwait`: with `ETIMEDOUT`, once the deadline has passed (`timedOut`), or without
  (`woken`), because of a reply or for no reason.  `gotPdu` stands for whoever sets `ca.done`.
* The clock's readings are labels and never go back.  Whether a connection can be had and whether it has
  died are labels too.
* `turns`, `calls` and `spurious` record what has been waited for.  An addition that leaves `time_t` ends
  in `undef`.

A wait that ends without a reply ends no earlier than its deadline, so the time that has passed at least
doubles as the interval does, and the interval stays below the timeout (`Inv`).  The loop keeps its
promises if and only if the final deadline is not within the first second of the epoch, where
`tv_sec` is zero from the start (`onTime_iff`).
-/
import Yfs.Timespec
import Yfs.Trace

/-- Where `call1` is. -/
inductive RetryPhase
  /-- before `if(transmit)` -/
  | top
  /-- in `pthread_cond_timedwait` -/
  | waiting
  /-- behind the loop -/
  | left
  | undef
  deriving DecidableEq, Repr

/-- A turn of the loop that computes a deadline: `curr_to` and `nextdeadline`. -/
structure RetryTurn where
  currTo : ℤ
  nextdeadline : Timespec
  deriving DecidableEq, Repr

/-- The variables of the loop; `ch` and `done` say that `ch` is not null and that `ca.done` is set. -/
structure CallRetry where
  phase : RetryPhase
  currTo : ℤ
  nextdeadline : Timespec
  finaldeadline : Timespec
  transmit : Bool
  ch : Bool
  done : Bool
  /-- the latest reading of the clock -/
  clock : Timespec
  turns : List RetryTurn
  /-- the calls of `pthread_cond_timedwait` -/
  calls : ℕ
  /-- how often it has returned without a reply before the deadline -/
  spurious : ℕ
  /-- the deadline of the latest wait that has ended with `ETIMEDOUT` -/
  expired : Option Timespec
  deriving DecidableEq, Repr

/-- The steps of `call1`, and a reply. -/
inductive RetryAct
  | turn (connected : Bool) (now : Timespec)
  | woken
  | timedOut (now : Timespec) (dead : Bool)
  | gotPdu
  deriving DecidableEq, Repr

namespace CallRetry

open Timespec

/-- `to_min`. -/
def toMin : ℤ := 1000

/-- `curr_to.to <<= 1`. -/
def shl (n : ℤ) : ℤ := (n * 2).bmod (2 ^ 32)

/-- Before the loop: the clock says `now`, and `finaldeadline` has been computed from it. -/
def init (now finaldeadline : Timespec) : CallRetry where
  phase := .top
  currTo := toMin
  nextdeadline := ⟨0, 0⟩
  finaldeadline := finaldeadline
  transmit := true
  ch := false
  done := false
  clock := now
  turns := []
  calls := 0
  spurious := 0
  expired := none

/-- `while (!ca.done)` before a call of `pthread_cond_timedwait`. -/
def test (s : CallRetry) : CallRetry :=
  if s.done then { s with phase := .left } else { s with phase := .waiting, calls := s.calls + 1 }

/-- `if(transmit)`: `get_refconn` leaves `ch` as it is when there is no connection. -/
def send (s : CallRetry) (connected : Bool) : CallRetry :=
  { s with ch := if s.transmit then s.ch || connected else s.ch, transmit := false }

/-- The turn with the deadline `next`, or with the final one when that is earlier. -/
def wait (s : CallRetry) (next : Timespec) : CallRetry :=
  let last := 0 < cmpTimespec next s.finaldeadline
  let deadline := if last then s.finaldeadline else next
  test { s with
    nextdeadline := deadline
    finaldeadline := if last then { s.finaldeadline with tvSec := 0 } else s.finaldeadline
    turns := s.turns ++ [⟨s.currTo, deadline⟩] }

/-- The state after a step; `none` when the step is not next. -/
def next (retrans : Bool) (s : CallRetry) : RetryAct → Option CallRetry
  | .turn connected now =>
    if s.phase = .top then
      let s := s.send connected
      if s.finaldeadline.tvSec = 0 then some { s with phase := .left }
      else
        match addTimespec now s.currTo with
        | none => some { s with phase := .undef }
        | some next => some ({ s with clock := now }.wait next)
    else none
  | .woken =>
    if s.phase = .waiting then
      some (if s.done then s.test else { s with spurious := s.spurious + 1 }.test)
    else none
  | .timedOut now dead =>
    if s.phase = .waiting then
      let s := { s with clock := now, expired := some s.nextdeadline }
      if s.done then some { s with phase := .left }
      else
        some { s with
          phase := .top
          transmit := s.transmit || (retrans && (!s.ch || dead))
          currTo := shl s.currTo }
    else none
  | .gotPdu => if s.phase = .left then none else some { s with done := true }

/-- The clock does not go back, and `ETIMEDOUT` is returned when the deadline has passed. -/
def Answers (s : CallRetry) : RetryAct → Prop
  | .turn _ now => now.Normal ∧ s.clock.instant ≤ now.instant
  | .timedOut now _ =>
    now.Normal ∧ s.clock.instant ≤ now.instant ∧ s.nextdeadline.instant ≤ now.instant
  | .woken => True
  | .gotPdu => True

def Step (retrans : Bool) (s : CallRetry) (a : RetryAct) (s' : CallRetry) : Prop :=
  s.Answers a ∧ s.next retrans a = some s'

/-- The sum of the clock's reading and `curr_to` fits in a `time_t`. -/
def Fits (s : CallRetry) : RetryAct → Prop
  | .turn _ now => s.finaldeadline.tvSec ≠ 0 → addTimespec now s.currTo ≠ none
  | _ => True

/-! ## What the loop keeps -/

/-- The loop of a call with the timeout `timeout`, which has started at `start`. -/
structure OnTime (start final : Timespec) (timeout : ℤ) (s : CallRetry) : Prop where
  waits : s.turns.length ≤ 22
  calls : s.calls ≤ 22 + s.spurious
  deadlines : ∀ w ∈ s.turns, cmpTimespec w.nextdeadline final ≤ 0 ∧
    w.nextdeadline.instant ≤ start.instant + timeout * 1000000
  currTo : ∀ (i : ℕ) (w : RetryTurn), s.turns[i]? = some w →
    w.currTo = 1000 * 2 ^ i ∧ 0 < w.currTo ∧ w.currTo < 2 ^ 31
  defined : s.phase ≠ .undef
  left : s.phase = .left →
    s.done = true ∨ s.expired = some final ∧ final.instant ≤ s.clock.instant

/-- The nanoseconds of the first `n` intervals. -/
def elapsed (n : ℕ) : ℤ := 1000000000 * (2 ^ n - 1)

theorem elapsed_succ (n : ℕ) : elapsed (n + 1) = elapsed n + 1000 * 2 ^ n * 1000000 := by
  unfold elapsed
  rw [pow_succ]
  ring

/-- Twenty-one intervals at most fit into a timeout. -/
theorem le_of_elapsed {n : ℕ} {timeout : ℤ} (hlt : timeout < 2 ^ 31)
    (h : elapsed n ≤ timeout * 1000000) : n ≤ 21 := by
  by_contra hn
  have hpow : (2 : ℤ) ^ 22 ≤ 2 ^ n := pow_le_pow_right₀ (by decide) (by omega)
  unfold elapsed at h
  norm_num at hpow hlt
  linarith

theorem shl_of_lt {c : ℤ} (h0 : 0 ≤ c) (h : c * 2 < 2 ^ 31) : shl c = c * 2 := by
  unfold shl
  rw [Int.bmod_def]
  omega

/-- The first twenty-two intervals are positive `int`s. -/
theorem interval_bounds {n : ℕ} (h : n ≤ 21) :
    (0 : ℤ) < 1000 * 2 ^ n ∧ (1000 : ℤ) * 2 ^ n < 2 ^ 31 := by
  have hpow : (2 : ℤ) ^ n ≤ 2 ^ 21 := pow_le_pow_right₀ (by decide) h
  have hpos : (0 : ℤ) < 2 ^ n := by positivity
  norm_num at hpow
  refine ⟨by linarith, ?_⟩
  norm_num
  linarith

/-- A loop that starts with a final deadline, and not in the first second of the epoch. -/
structure Starts (start final : Timespec) (timeout : ℤ) : Prop where
  normal : start.Normal
  nonneg : 0 ≤ timeout
  lt : timeout < 2 ^ 31
  sum : addTimespec start timeout = some final
  sec : final.tvSec ≠ 0

section Invariant

variable {start final : Timespec} {timeout : ℤ} {s s' : CallRetry}

theorem Starts.near (h : Starts start final timeout) : final.Near :=
  (instant_addTimespec h.normal h.nonneg h.sum).1

theorem Starts.instant_eq (h : Starts start final timeout) :
    final.instant = start.instant + timeout * 1000000 :=
  (instant_addTimespec h.normal h.nonneg h.sum).2

/-- What holds wherever `call1` is. -/
structure Base (start final : Timespec) (timeout : ℤ) (s : CallRetry) : Prop where
  length : s.turns.length ≤ 22
  deadlines : ∀ w ∈ s.turns, cmpTimespec w.nextdeadline final ≤ 0 ∧
    w.nextdeadline.instant ≤ start.instant + timeout * 1000000
  currTo : ∀ (i : ℕ) (w : RetryTurn), s.turns[i]? = some w →
    w.currTo = 1000 * 2 ^ i ∧ 0 < w.currTo ∧ w.currTo < 2 ^ 31
  running : s.finaldeadline.tvSec ≠ 0 → s.finaldeadline = final ∧ s.turns.length ≤ 21

/-- Before a turn: the intervals so far have passed, or the final deadline. -/
structure AtTop (start final : Timespec) (s : CallRetry) : Prop where
  running : s.finaldeadline.tvSec ≠ 0 →
    s.currTo = 1000 * 2 ^ s.turns.length ∧ start.instant + elapsed s.turns.length ≤ s.clock.instant
  last : s.finaldeadline.tvSec = 0 → s.expired = some final ∧ final.instant ≤ s.clock.instant

/-- In a wait: its deadline is no earlier than all intervals so far, or it is the final one. -/
structure InWait (start final : Timespec) (s : CallRetry) : Prop where
  running : s.finaldeadline.tvSec ≠ 0 →
    s.currTo * 2 = 1000 * 2 ^ s.turns.length ∧
      start.instant + elapsed s.turns.length ≤ s.nextdeadline.instant
  last : s.finaldeadline.tvSec = 0 → s.nextdeadline = final

structure Inv (start final : Timespec) (timeout : ℤ) (s : CallRetry) : Prop where
  base : Base start final timeout s
  calls : s.calls ≤ s.turns.length + s.spurious
  top : s.phase = .top → AtTop start final s
  waiting : s.phase = .waiting → InWait start final s
  left : s.phase = .left →
    s.done = true ∨ s.expired = some final ∧ final.instant ≤ s.clock.instant
  defined : s.phase ≠ .undef

theorem Inv.onTime (h : Inv start final timeout s) : OnTime start final timeout s := by
  have hlen := h.base.length
  have hcalls := h.calls
  exact ⟨hlen, by omega, h.base.deadlines, h.base.currTo, h.defined, h.left⟩

theorem inv_init (h : Starts start final timeout) : Inv start final timeout (init start final) := by
  refine ⟨⟨by simp [init], by simp [init], by simp [init], fun _ => ⟨rfl, by simp [init]⟩⟩, le_refl _,
    fun _ => ⟨fun _ => ⟨rfl, ?_⟩, fun h0 => absurd h0 h.sec⟩, fun hp => ?_, fun hp => ?_, fun hp => ?_⟩
  · show start.instant + elapsed 0 ≤ start.instant
    simp [elapsed]
  all_goals cases hp

/-- Only the turns and the final deadline matter to what holds everywhere. -/
theorem Base.congr (hb : Base start final timeout s) (ht : s'.turns = s.turns)
    (hf : s'.finaldeadline = s.finaldeadline) : Base start final timeout s' := by
  obtain ⟨hlength, hdeadlines, hcurrTo, hrunning⟩ := hb
  rw [← ht] at hlength hdeadlines hcurrTo hrunning
  rw [← hf] at hrunning
  exact ⟨hlength, hdeadlines, hcurrTo, hrunning⟩

/-- The loop is left with `ca.done` set or when the final deadline has passed. -/
theorem inv_left (hb : Base start final timeout s) (hcalls : s.calls ≤ s.turns.length + s.spurious)
    (hend : s.done = true ∨ s.expired = some final ∧ final.instant ≤ s.clock.instant) :
    Inv start final timeout { s with phase := .left } := by
  refine ⟨hb.congr rfl rfl, hcalls, ?_, ?_, fun _ => hend, ?_⟩
  all_goals
    intro hp
    cases hp

/-- The test of `ca.done`, with a call of `pthread_cond_timedwait` to account for. -/
theorem inv_test (hb : Base start final timeout s) (hw : InWait start final s)
    (hcalls : s.calls + 1 ≤ s.turns.length + s.spurious) : Inv start final timeout s.test := by
  unfold test
  split_ifs with hdone
  · exact inv_left hb (by omega) (.inl hdone)
  · refine ⟨hb.congr rfl rfl, hcalls, ?_,
      fun _ => ⟨hw.running, hw.last⟩, ?_, ?_⟩
    all_goals
      intro hp
      cases hp

/-- The turns after one more. -/
theorem Base.deadlines_snoc (hb : Base start final timeout s) {c : ℤ} {d : Timespec}
    (hd : cmpTimespec d final ≤ 0 ∧ d.instant ≤ start.instant + timeout * 1000000) :
    ∀ w ∈ s.turns ++ [⟨c, d⟩], cmpTimespec w.nextdeadline final ≤ 0 ∧
      w.nextdeadline.instant ≤ start.instant + timeout * 1000000 := by
  intro w hw
  rcases List.mem_append.1 hw with hw | hw
  · exact hb.deadlines w hw
  · obtain rfl := List.mem_singleton.1 hw
    exact hd

theorem Base.currTo_snoc (hb : Base start final timeout s) (hlen : s.turns.length ≤ 21) {d : Timespec}
    (i : ℕ) (w : RetryTurn) (hw : (s.turns ++ [⟨1000 * 2 ^ s.turns.length, d⟩])[i]? = some w) :
    w.currTo = 1000 * 2 ^ i ∧ 0 < w.currTo ∧ w.currTo < 2 ^ 31 := by
  rcases lt_trichotomy i s.turns.length with hi | rfl | hi
  · rw [List.getElem?_append_left hi] at hw
    exact hb.currTo i w hw
  · rw [List.getElem?_append_right le_rfl, Nat.sub_self] at hw
    obtain rfl := Option.some.inj hw
    exact ⟨rfl, interval_bounds hlen⟩
  · rw [List.getElem?_eq_none (by simp only [List.length_append, List.length_singleton]; omega)] at hw
    cases hw

/-- **A turn of the loop.**  The interval doubles, and the deadline is an interval later than the clock
or the final one. -/
theorem inv_wait (hs : Starts start final timeout) (hb : Base start final timeout s)
    (hsec : s.finaldeadline.tvSec ≠ 0) (hcurr : s.currTo = 1000 * 2 ^ s.turns.length)
    (hclock : start.instant + elapsed s.turns.length ≤ s.clock.instant) (hnormal : s.clock.Normal)
    (hcalls : s.calls ≤ s.turns.length + s.spurious) {d : Timespec}
    (hd : addTimespec s.clock s.currTo = some d) : Inv start final timeout (s.wait d) := by
  obtain ⟨hfinal, hlen⟩ := hb.running hsec
  have hcpos : 0 ≤ s.currTo := by
    rw [hcurr]
    positivity
  obtain ⟨hnear, hinst⟩ := instant_addTimespec hnormal hcpos hd
  have hlen' : (s.turns ++ [(⟨s.currTo, d⟩ : RetryTurn)]).length = s.turns.length + 1 := by simp
  unfold wait
  by_cases hlast : 0 < cmpTimespec d s.finaldeadline
  · -- the last wait, up to the final deadline
    simp only [hlast, if_true]
    apply inv_test
    · refine ⟨?_, ?_, ?_, fun h0 => absurd rfl h0⟩
      · simp only [List.length_append, List.length_singleton]
        omega
      · rw [hfinal]
        exact hb.deadlines_snoc ⟨(cmpTimespec_eq_zero.2 rfl).le, hs.instant_eq.le⟩
      · rw [hcurr]
        exact hb.currTo_snoc hlen
    · exact ⟨fun h0 => absurd rfl h0, fun _ => hfinal⟩
    · simp only [List.length_append, List.length_singleton]
      omega
  · -- the deadline is not beyond the final one, so all intervals fit into the timeout
    have hle : d.instant ≤ final.instant := by
      rw [← hfinal]
      exact instant_le_of_cmp_nonpos hnear (hfinal ▸ hs.near) (not_lt.1 hlast)
    have hreach : start.instant + elapsed (s.turns.length + 1) ≤ d.instant := by
      rw [elapsed_succ, hinst, hcurr]
      linarith
    have hfit : s.turns.length + 1 ≤ 21 := by
      refine le_of_elapsed hs.lt ?_
      have := hs.instant_eq
      linarith
    simp only [hlast, if_false]
    apply inv_test
    · refine ⟨?_, ?_, ?_, fun _ => ⟨hfinal, ?_⟩⟩
      · simp only [List.length_append, List.length_singleton]
        omega
      · refine hb.deadlines_snoc ⟨?_, ?_⟩
        · rw [← hfinal]
          exact not_lt.1 hlast
        · rw [← hs.instant_eq]
          exact hle
      · rw [hcurr]
        exact hb.currTo_snoc hlen
      · rw [hlen']
        exact hfit
    · refine ⟨fun _ => ⟨?_, ?_⟩, fun h0 => absurd h0 hsec⟩
      · show s.currTo * 2 = 1000 * 2 ^ (s.turns ++ [(⟨s.currTo, d⟩ : RetryTurn)]).length
        rw [hlen', hcurr, pow_succ]
        ring
      · show start.instant + elapsed (s.turns ++ [(⟨s.currTo, d⟩ : RetryTurn)]).length ≤ d.instant
        rw [hlen']
        exact hreach
    · simp only [List.length_append, List.length_singleton]
      omega

theorem inv_step {retrans : Bool} {a : RetryAct} (hs : Starts start final timeout)
    (h : Inv start final timeout s) (hfits : s.Fits a) (hstep : s.Step retrans a s') :
    Inv start final timeout s' := by
  obtain ⟨hans, hnext⟩ := hstep
  have hb := h.base
  cases a with
  | turn connected now =>
    simp only [next] at hnext
    split_ifs at hnext with hp hsec
    · -- the final deadline has passed
      obtain rfl := Option.some.inj hnext
      exact inv_left (s := s.send connected) (hb.congr rfl rfl) h.calls (.inr ((h.top hp).last hsec))
    · have hsec' : s.finaldeadline.tvSec ≠ 0 := hsec
      obtain ⟨hcurr, hclock⟩ := (h.top hp).running hsec'
      split at hnext
      · rename_i hnone
        exact absurd hnone (hfits hsec')
      · rename_i d hd
        obtain rfl := Option.some.inj hnext
        exact inv_wait (s := { s.send connected with clock := now }) hs
          (hb.congr rfl rfl) hsec' hcurr (hclock.trans hans.2) hans.1 h.calls hd
  | woken =>
    simp only [next] at hnext
    split_ifs at hnext with hp hdone
    · obtain rfl := Option.some.inj hnext
      rw [test, if_pos hdone]
      exact inv_left hb h.calls (.inl hdone)
    · obtain rfl := Option.some.inj hnext
      have hw := h.waiting hp
      refine inv_test (hb.congr rfl rfl) ⟨hw.running, hw.last⟩ ?_
      have hcalls := h.calls
      show s.calls + 1 ≤ s.turns.length + (s.spurious + 1)
      omega
  | timedOut now dead =>
    simp only [next] at hnext
    split_ifs at hnext with hp hdone
    · obtain rfl := Option.some.inj hnext
      exact inv_left (s := { s with clock := now, expired := some s.nextdeadline }) (hb.congr rfl rfl)
        h.calls (.inl hdone)
    · obtain rfl := Option.some.inj hnext
      obtain ⟨-, -, hpassed⟩ := hans
      have hw := h.waiting hp
      refine ⟨hb.congr rfl rfl, h.calls, fun _ => ⟨fun hsec => ?_, ?_⟩,
        ?_, ?_, ?_⟩
      · obtain ⟨hcurr, hreach⟩ := hw.running hsec
        obtain ⟨hpos, hlt⟩ := interval_bounds (hb.running hsec).2
        refine ⟨?_, hreach.trans hpassed⟩
        show shl s.currTo = 1000 * 2 ^ s.turns.length
        rw [shl_of_lt (by linarith) (by rwa [hcurr]), hcurr]
      · intro hsec
        have heq := hw.last hsec
        exact ⟨congrArg some heq, heq ▸ hpassed⟩
      all_goals
        intro hp'
        cases hp'
  | gotPdu =>
    simp only [next] at hnext
    split_ifs at hnext with hp
    obtain rfl := Option.some.inj hnext
    refine ⟨hb.congr rfl rfl, h.calls, fun hp' => ?_, fun hp' => ?_,
      fun hp' => absurd hp' hp, h.defined⟩
    · have ht := h.top hp'
      exact ⟨ht.running, ht.last⟩
    · have hw := h.waiting hp'
      exact ⟨hw.running, hw.last⟩

end Invariant

/-! ## The loop ends on time -/

/-- **The retry loop ends on time** in all runs of a call, whatever the clock, the connections and the
replies, if and only if its final deadline is not in the first second of the epoch. -/
theorem onTime_iff {start final : Timespec} {timeout : ℤ} (retrans : Bool) (hn : start.Normal)
    (h0 : 0 ≤ timeout) (hlt : timeout < 2 ^ 31) (hsum : addTimespec start timeout = some final) :
    (∀ t s, Trace (Guarded Fits (Step retrans)) (init start final) t s →
      OnTime start final timeout s) ↔ final.tvSec ≠ 0 := by
  constructor
  · intro h hsec
    -- the loop is left before its first wait
    have hstep : Guarded Fits (Step retrans) (init start final) (.turn true start)
        { (init start final).send true with phase := .left } := by
      refine ⟨fun hne => absurd hsec hne, ⟨hn, le_rfl⟩, ?_⟩
      simp only [next]
      rw [if_pos (show (init start final).phase = .top from rfl),
        if_pos (show ((init start final).send true).finaldeadline.tvSec = 0 from hsec)]
    rcases (h _ _ (Trace.single hstep)).left rfl with hdone | ⟨hexp, -⟩
    · cases hdone
    · cases hexp
  · intro hsec t s htrace
    have hstarts : Starts start final timeout := ⟨hn, h0, hlt, hsum, hsec⟩
    have hinv := Trace.invariant (inv_init hstarts)
      (fun s a s' hi hs => inv_step hstarts hi hs.1 hs.2) htrace
    exact hinv.onTime

/-- A call with the longest timeout, at the start of the year 2000. -/
theorem onTime_longest :
    addTimespec ⟨946684800, 0⟩ 2147483647 = some ⟨948832283, 647000000⟩ ∧
      ∀ t s, Trace (Guarded Fits (Step false)) (init ⟨946684800, 0⟩ ⟨948832283, 647000000⟩) t s →
        OnTime ⟨946684800, 0⟩ ⟨948832283, 647000000⟩ 2147483647 s := by
  have hsum : addTimespec ⟨946684800, 0⟩ 2147483647 = some ⟨948832283, 647000000⟩ :=
    (addTimespec_eq_some_iff (by decide) (by decide)).2 (by decide)
  exact ⟨hsum, (onTime_iff false (by decide) (by decide) (by decide) hsum).2 (by decide)⟩

/-- A call with a timeout of half a second while the clock is at the epoch: the loop is left without a
wait. -/
theorem left_at_epoch :
    addTimespec ⟨0, 0⟩ 500 = some ⟨0, 500000000⟩ ∧
      ∃ s, Trace (Guarded Fits (Step false)) (init ⟨0, 0⟩ ⟨0, 500000000⟩) [.turn true ⟨0, 0⟩] s ∧
        s.phase = .left ∧ s.turns = [] ∧ s.done = false ∧ ¬ OnTime ⟨0, 0⟩ ⟨0, 500000000⟩ 500 s := by
  refine ⟨(addTimespec_eq_some_iff (by decide) (by decide)).2 (by decide), ?_⟩
  refine ⟨{ (init ⟨0, 0⟩ ⟨0, 500000000⟩).send true with phase := .left }, ?_, rfl, rfl, rfl, ?_⟩
  · exact Trace.single ⟨fun hne => absurd rfl hne, ⟨by decide, by decide⟩, rfl⟩
  · intro h
    rcases h.left rfl with hdone | ⟨hexp, -⟩
    · cases hdone
    · cases hexp

end CallRetry
