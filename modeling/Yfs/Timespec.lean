/-
# Deadlines (`rpc/rpc.cc`, `cmp_timespec` and `add_timespec`)

`add_timespec` adds milliseconds to an instant and carries whole seconds over from the nanoseconds;
`cmp_timespec` compares the seconds, then the nanoseconds.

* Seconds are a `time_t` of 64 bits: an addition that leaves this range has no result.  The failing
  `VERIFY` has none either.
* `b / 1000` and `b % 1000` round towards zero.  For a clock's nanoseconds, below `10 ^ 9`, the sum with
  `(b % 1000) * 1000000` fits in a `long`.

The loop of `add_timespec` goes on while the nanoseconds are *more* than a second.  A sum with exactly
`10 ^ 9` nanoseconds is left as it is: it stands for the right instant, but no clock spells it so, and
`cmp_timespec` takes it for earlier than the same instant in its normal form.
-/
import Mathlib

/-- `struct timespec`. -/
structure Timespec where
  tvSec : ℤ
  tvNsec : ℤ
  deriving DecidableEq, Repr

namespace Timespec

/-- A `time_t`, of 64 bits. -/
def TimeT (n : ℤ) : Prop := -2 ^ 63 ≤ n ∧ n < 2 ^ 63

instance (n : ℤ) : Decidable (TimeT n) := inferInstanceAs (Decidable (_ ∧ _))

/-- The result of an addition in `time_t`. -/
def timeT (n : ℤ) : Option ℤ := if TimeT n then some n else none

/-- `cmp_timespec`. -/
def cmpTimespec (a b : Timespec) : ℤ :=
  if b.tvSec < a.tvSec then 1
  else if a.tvSec < b.tvSec then -1
  else if b.tvNsec < a.tvNsec then 1
  else if a.tvNsec < b.tvNsec then -1
  else 0

/-- `while (tv_nsec > 1000000000)`. -/
def carry (sec nsec : ℤ) : Option Timespec :=
  if 1000000000 < nsec then (timeT (sec + 1)).bind (fun sec => carry sec (nsec - 1000000000))
  else some ⟨sec, nsec⟩
termination_by nsec.toNat

/-- `add_timespec`. -/
def addTimespec (a : Timespec) (b : ℤ) : Option Timespec :=
  (timeT (a.tvSec + b.tdiv 1000)).bind (fun sec =>
    let nsec := a.tvNsec + b.tmod 1000 * 1000000
    if 0 ≤ nsec then carry sec nsec else none)

/-! ## Instants -/

/-- Nanoseconds since the epoch. -/
def instant (a : Timespec) : ℤ := a.tvSec * 1000000000 + a.tvNsec

/-- The instant as a clock gives it. -/
def Normal (a : Timespec) : Prop := 0 ≤ a.tvNsec ∧ a.tvNsec < 1000000000

/-- The same, or with a whole second of nanoseconds. -/
def Near (a : Timespec) : Prop := 0 ≤ a.tvNsec ∧ a.tvNsec ≤ 1000000000

instance (a : Timespec) : Decidable a.Normal := inferInstanceAs (Decidable (_ ∧ _))

theorem Normal.near {a : Timespec} (h : a.Normal) : a.Near := ⟨h.1, h.2.le⟩

/-- The nanoseconds of a sum before the carry. -/
def nsecSum (a : Timespec) (b : ℤ) : ℤ := a.tvNsec + b % 1000 * 1000000

/-- The sum has its second carried over, and its seconds fit in a `time_t`. -/
def Carries (a : Timespec) (b : ℤ) : Prop :=
  a.nsecSum b ≠ 1000000000 ∧ TimeT (a.tvSec + b / 1000) ∧
    TimeT (a.tvSec + b / 1000 + a.nsecSum b / 1000000000)

instance (a : Timespec) (b : ℤ) : Decidable (a.Carries b) := inferInstanceAs (Decidable (_ ∧ _ ∧ _))

/-- `add_timespec(a, b, &result)` gives `a` plus `b` milliseconds, spelled as a clock does. -/
def AddsExactly (a : Timespec) (b : ℤ) (r : Timespec) : Prop :=
  a.addTimespec b = some r ∧ r.Normal ∧ r.instant = a.instant + b * 1000000

theorem timeT_eq_some {n m : ℤ} : timeT n = some m ↔ TimeT n ∧ m = n := by
  unfold timeT
  split_ifs with h
  · simp [h, eq_comm]
  · simp [h]

/-! ## The sum -/

/-- No second to carry. -/
theorem carry_of_le {nsec : ℤ} (sec : ℤ) (h : nsec ≤ 1000000000) :
    carry sec nsec = some ⟨sec, nsec⟩ := by
  rw [carry, if_neg (by omega)]

/-- One second to carry. -/
theorem carry_of_gt {nsec : ℤ} (sec : ℤ) (h : 1000000000 < nsec) (h' : nsec ≤ 2000000000) :
    carry sec nsec = (timeT (sec + 1)).map (fun sec => ⟨sec, nsec - 1000000000⟩) := by
  rw [carry, if_pos h]
  cases timeT (sec + 1) with
  | none => rfl
  | some sec' => exact carry_of_le sec' (by omega)

section Sum

variable {a r : Timespec} {b : ℤ}

theorem nsecSum_nonneg (ha : a.Normal) : 0 ≤ a.nsecSum b := by
  obtain ⟨h0, -⟩ := ha
  have := Int.emod_nonneg b (show (1000 : ℤ) ≠ 0 by decide)
  unfold nsecSum
  omega

theorem nsecSum_lt (ha : a.Normal) : a.nsecSum b < 2000000000 := by
  obtain ⟨-, hlt⟩ := ha
  have := Int.emod_lt_of_pos b (show (0 : ℤ) < 1000 by decide)
  unfold nsecSum
  omega

/-- `add_timespec` of a clock's instant and a delay that is not negative. -/
theorem addTimespec_eq (ha : a.Normal) (hb : 0 ≤ b) :
    a.addTimespec b = (timeT (a.tvSec + b / 1000)).bind (fun sec => carry sec (a.nsecSum b)) := by
  unfold addTimespec
  rw [Int.tdiv_eq_ediv_of_nonneg hb, Int.tmod_eq_emod_of_nonneg hb]
  have hpos : 0 ≤ a.tvNsec + b % 1000 * 1000000 := nsecSum_nonneg ha
  simp only [hpos, if_true]
  rfl

/-- **The sum.**  The seconds are added in `time_t`, and a second is carried over when the nanoseconds
are more than one. -/
theorem addTimespec_eq_some_iff (ha : a.Normal) (hb : 0 ≤ b) :
    a.addTimespec b = some r ↔
      TimeT (a.tvSec + b / 1000) ∧
        (a.nsecSum b ≤ 1000000000 ∧ r = ⟨a.tvSec + b / 1000, a.nsecSum b⟩ ∨
          1000000000 < a.nsecSum b ∧ TimeT (a.tvSec + b / 1000 + 1) ∧
            r = ⟨a.tvSec + b / 1000 + 1, a.nsecSum b - 1000000000⟩) := by
  have hlt := nsecSum_lt (b := b) ha
  rw [addTimespec_eq ha hb, Option.bind_eq_some_iff]
  simp only [timeT_eq_some]
  by_cases hle : a.nsecSum b ≤ 1000000000
  · simp only [carry_of_le _ hle, Option.some.injEq]
    constructor
    · rintro ⟨sec, ⟨ht, rfl⟩, rfl⟩
      exact ⟨ht, .inl ⟨hle, rfl⟩⟩
    · rintro ⟨ht, ⟨-, rfl⟩ | ⟨hgt, -⟩⟩
      · exact ⟨_, ⟨ht, rfl⟩, rfl⟩
      · omega
  · have hgt : 1000000000 < a.nsecSum b := by omega
    simp only [carry_of_gt _ hgt hlt.le, Option.map_eq_some_iff, timeT_eq_some]
    constructor
    · rintro ⟨sec, ⟨ht, rfl⟩, sec', ⟨ht', rfl⟩, rfl⟩
      exact ⟨ht, .inr ⟨hgt, ht', rfl⟩⟩
    · rintro ⟨ht, ⟨hle', -⟩ | ⟨-, ht', rfl⟩⟩
      · omega
      · exact ⟨_, ⟨ht, rfl⟩, _, ⟨ht', rfl⟩, rfl⟩

/-- Whatever its spelling, the sum stands for the right instant. -/
theorem instant_addTimespec (ha : a.Normal) (hb : 0 ≤ b) (h : a.addTimespec b = some r) :
    r.Near ∧ r.instant = a.instant + b * 1000000 := by
  have hpos := nsecSum_nonneg (b := b) ha
  have hlt := nsecSum_lt (b := b) ha
  have hdiv := Int.mul_ediv_add_emod b 1000
  rcases ((addTimespec_eq_some_iff ha hb).1 h).2 with ⟨hle, rfl⟩ | ⟨hgt, -, rfl⟩
  · refine ⟨⟨hpos, hle⟩, ?_⟩
    unfold instant nsecSum
    linarith
  · refine ⟨⟨by show 0 ≤ a.nsecSum b - 1000000000; omega, ?_⟩, ?_⟩
    · show a.nsecSum b - 1000000000 ≤ 1000000000
      omega
    · unfold instant nsecSum
      linarith

/-- **When a sum is in its normal form.** -/
theorem exists_addsExactly_iff (ha : a.Normal) (hb : 0 ≤ b) :
    (∃ r, AddsExactly a b r) ↔ Carries a b := by
  have hpos := nsecSum_nonneg (b := b) ha
  have hlt := nsecSum_lt (b := b) ha
  constructor
  · rintro ⟨r, hadd, hnormal, -⟩
    obtain ⟨ht, ⟨hle, rfl⟩ | ⟨hgt, ht', rfl⟩⟩ := (addTimespec_eq_some_iff ha hb).1 hadd
    · have hn : a.nsecSum b < 1000000000 := hnormal.2
      refine ⟨hn.ne, ht, ?_⟩
      rwa [Int.ediv_eq_zero_of_lt hpos hn, add_zero]
    · refine ⟨hgt.ne', ht, ?_⟩
      rwa [show a.nsecSum b / 1000000000 = 1 by omega]
  · rintro ⟨hne, ht, ht'⟩
    by_cases hle : a.nsecSum b ≤ 1000000000
    · have hadd : a.addTimespec b = some ⟨a.tvSec + b / 1000, a.nsecSum b⟩ :=
        (addTimespec_eq_some_iff ha hb).2 ⟨ht, .inl ⟨hle, rfl⟩⟩
      exact ⟨_, hadd, ⟨hpos, lt_of_le_of_ne hle hne⟩, (instant_addTimespec ha hb hadd).2⟩
    · rw [show a.nsecSum b / 1000000000 = 1 by omega] at ht'
      have hadd : a.addTimespec b = some ⟨a.tvSec + b / 1000 + 1, a.nsecSum b - 1000000000⟩ :=
        (addTimespec_eq_some_iff ha hb).2 ⟨ht, .inr ⟨by omega, ht', rfl⟩⟩
      refine ⟨_, hadd, ⟨?_, ?_⟩, (instant_addTimespec ha hb hadd).2⟩
      · show 0 ≤ a.nsecSum b - 1000000000
        omega
      · show a.nsecSum b - 1000000000 < 1000000000
        omega

end Sum

/-! ## The order -/

/-- The sign of `cmp_timespec` says which of the two instants is later. -/
structure Compares (a b : Timespec) : Prop where
  later : 0 < cmpTimespec a b ↔ b.instant < a.instant
  equal : cmpTimespec a b = 0 ↔ a.instant = b.instant
  earlier : cmpTimespec a b < 0 ↔ a.instant < b.instant

section Order

variable {a b : Timespec}

/-- `cmp_timespec` tells two spellings apart. -/
theorem cmpTimespec_eq_zero : cmpTimespec a b = 0 ↔ a = b := by
  rcases a with ⟨s, n⟩
  rcases b with ⟨s', n'⟩
  simp only [cmpTimespec, Timespec.mk.injEq]
  constructor
  · intro h
    split_ifs at h <;> omega
  · rintro ⟨rfl, rfl⟩
    simp

/-- What `cmp_timespec` does not find later is not later. -/
theorem instant_le_of_cmp_nonpos (ha : a.Near) (hb : b.Near) (h : cmpTimespec a b ≤ 0) :
    a.instant ≤ b.instant := by
  obtain ⟨-, ha⟩ := ha
  obtain ⟨hb, -⟩ := hb
  unfold cmpTimespec at h
  unfold instant
  split_ifs at h <;> omega

/-- What it finds later is not earlier. -/
theorem instant_le_of_cmp_pos (ha : a.Near) (hb : b.Near) (h : 0 < cmpTimespec a b) :
    b.instant ≤ a.instant := by
  obtain ⟨ha, -⟩ := ha
  obtain ⟨-, hb⟩ := hb
  unfold cmpTimespec at h
  unfold instant
  split_ifs at h <;> omega

/-- **When the order is right**: unless the two are different spellings of one instant. -/
theorem compares_iff (ha : a.Near) (hb : b.Near) :
    Compares a b ↔ (a.instant = b.instant → a = b) := by
  constructor
  · intro h heq
    exact cmpTimespec_eq_zero.1 (h.equal.2 heq)
  · intro h
    have hzero : cmpTimespec a b = 0 ↔ a.instant = b.instant := by
      rw [cmpTimespec_eq_zero]
      exact ⟨fun hab => by rw [hab], h⟩
    rcases lt_trichotomy (cmpTimespec a b) 0 with hneg | hz | hpos
    · have hle := instant_le_of_cmp_nonpos ha hb hneg.le
      have hne : a.instant ≠ b.instant := fun he => hneg.ne (hzero.2 he)
      refine ⟨?_, hzero, ?_⟩ <;> omega
    · have heq := hzero.1 hz
      refine ⟨?_, hzero, ?_⟩ <;> omega
    · have hle := instant_le_of_cmp_pos ha hb hpos
      have hne : a.instant ≠ b.instant := fun he => hpos.ne' (hzero.2 he)
      refine ⟨?_, hzero, ?_⟩ <;> omega

/-- A clock spells an instant in one way. -/
theorem eq_of_instant_eq (ha : a.Normal) (hb : b.Normal) (h : a.instant = b.instant) : a = b := by
  obtain ⟨ha0, ha⟩ := ha
  obtain ⟨hb0, hb⟩ := hb
  rcases a with ⟨s, n⟩
  rcases b with ⟨s', n'⟩
  unfold instant at h
  simp only at ha0 ha hb0 hb h
  simp only [Timespec.mk.injEq]
  omega

theorem compares_of_normal (ha : a.Normal) (hb : b.Normal) : Compares a b :=
  (compares_iff ha.near hb.near).2 (eq_of_instant_eq ha hb)

end Order

/-- **Deadlines are normalised and ordered exactly when their nanoseconds do not add up to a whole
second** (and their seconds fit in a `time_t`). -/
theorem deadlines_iff {a₁ a₂ : Timespec} {b₁ b₂ : ℤ} (h₁ : a₁.Normal) (h₂ : a₂.Normal) (hb₁ : 0 ≤ b₁)
    (hb₂ : 0 ≤ b₂) :
    (∃ r₁ r₂, AddsExactly a₁ b₁ r₁ ∧ AddsExactly a₂ b₂ r₂ ∧
        (0 < cmpTimespec r₁ r₂ ↔ a₂.instant + b₂ * 1000000 < a₁.instant + b₁ * 1000000) ∧
        (cmpTimespec r₁ r₂ = 0 ↔ a₁.instant + b₁ * 1000000 = a₂.instant + b₂ * 1000000) ∧
        (cmpTimespec r₁ r₂ < 0 ↔ a₁.instant + b₁ * 1000000 < a₂.instant + b₂ * 1000000)) ↔
      Carries a₁ b₁ ∧ Carries a₂ b₂ := by
  constructor
  · rintro ⟨r₁, r₂, hadd₁, hadd₂, -⟩
    exact ⟨(exists_addsExactly_iff h₁ hb₁).1 ⟨r₁, hadd₁⟩, (exists_addsExactly_iff h₂ hb₂).1 ⟨r₂, hadd₂⟩⟩
  · rintro ⟨hc₁, hc₂⟩
    obtain ⟨r₁, hadd₁⟩ := (exists_addsExactly_iff h₁ hb₁).2 hc₁
    obtain ⟨r₂, hadd₂⟩ := (exists_addsExactly_iff h₂ hb₂).2 hc₂
    obtain ⟨hlater, hequal, hearlier⟩ := compares_of_normal hadd₁.2.1 hadd₂.2.1
    rw [hadd₁.2.2, hadd₂.2.2] at hlater hequal hearlier
    exact ⟨r₁, r₂, hadd₁, hadd₂, hlater, hequal, hearlier⟩

/-- Two deadlines, one of them with a second to carry. -/
theorem deadlines_carried :
    ∃ r₁ r₂, AddsExactly ⟨5, 999999999⟩ 1500 r₁ ∧ AddsExactly ⟨6, 0⟩ 1000 r₂ ∧
      (0 < cmpTimespec r₁ r₂ ↔
        instant ⟨6, 0⟩ + 1000 * 1000000 < instant ⟨5, 999999999⟩ + 1500 * 1000000) ∧
      (cmpTimespec r₁ r₂ = 0 ↔
        instant ⟨5, 999999999⟩ + 1500 * 1000000 = instant ⟨6, 0⟩ + 1000 * 1000000) ∧
      (cmpTimespec r₁ r₂ < 0 ↔
        instant ⟨5, 999999999⟩ + 1500 * 1000000 < instant ⟨6, 0⟩ + 1000 * 1000000) :=
  (@deadlines_iff ⟨5, 999999999⟩ ⟨6, 0⟩ 1500 1000 (by decide) (by decide) (by decide) (by decide)).2
    ⟨by decide, by decide⟩

/-- Half a second and 500 milliseconds: the nanoseconds are not carried, and the sum counts as earlier
than the same instant. -/
theorem second_not_carried :
    addTimespec ⟨0, 500000000⟩ 500 = some ⟨0, 1000000000⟩ ∧ ¬ Normal ⟨0, 1000000000⟩ ∧
      addTimespec ⟨1, 0⟩ 0 = some ⟨1, 0⟩ ∧ instant ⟨0, 1000000000⟩ = instant ⟨1, 0⟩ ∧
      cmpTimespec ⟨0, 1000000000⟩ ⟨1, 0⟩ = -1 ∧
      ¬ ∃ r, AddsExactly ⟨0, 500000000⟩ 500 r := by
  refine ⟨?_, by decide, ?_, by decide, by decide, ?_⟩
  · rw [addTimespec_eq_some_iff (by decide) (by decide)]
    decide
  · rw [addTimespec_eq_some_iff (by decide) (by decide)]
    decide
  · rw [exists_addsExactly_iff (by decide) (by decide)]
    decide

end Timespec
