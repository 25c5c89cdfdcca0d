/-
# Finite maps with an inserting index operator

A model of `std::map`: a map is a partial function, and reading it through `operator[]` returns the
default value of a missing key *and inserts it*.  `get` is the value `operator[]` returns, `touch` the
map it leaves behind.
-/
import Mathlib

/-- A map from keys to values; `none` is a missing key. -/
abbrev StdMap (K V : Type*) := K → Option V

namespace StdMap

variable {K V : Type*}

section Index

variable [Inhabited V]

/-- The value of `m[k]`: the default value when `k` is missing. -/
def get (m : StdMap K V) (k : K) : V := (m k).getD default

theorem get_of_some {m : StdMap K V} {k : K} {v : V} (h : m k = some v) : get m k = v := by
  rw [get, h, Option.getD_some]

theorem get_of_none {m : StdMap K V} {k : K} (h : m k = none) : get m k = default := by
  rw [get, h, Option.getD_none]

variable [DecidableEq K]

/-- The map after evaluating `m[k]`: a missing `k` has been inserted with the default value. -/
def touch (m : StdMap K V) (k : K) : StdMap K V :=
  match m k with
  | some _ => m
  | none => Function.update m k (some default)

theorem touch_of_some {m : StdMap K V} {k : K} {v : V} (h : m k = some v) : touch m k = m := by
  rw [touch, h]

theorem touch_of_none {m : StdMap K V} {k : K} (h : m k = none) :
    touch m k = Function.update m k (some default) := by
  rw [touch, h]

/-- After a read through `operator[]` the key is present, with the value that was read. -/
@[simp] theorem touch_self (m : StdMap K V) (k : K) : touch m k k = some (get m k) := by
  cases h : m k with
  | none => rw [touch_of_none h, Function.update_self, get_of_none h]
  | some v => rw [touch_of_some h, h, get_of_some h]

/-- Other keys are not affected. -/
theorem touch_of_ne (m : StdMap K V) {k k' : K} (hk : k' ≠ k) : touch m k k' = m k' := by
  cases h : m k with
  | none => rw [touch_of_none h, Function.update_of_ne hk]
  | some v => rw [touch_of_some h]

/-- A read through `operator[]` changes no value that a later read returns. -/
@[simp] theorem get_touch (m : StdMap K V) (k k' : K) : get (touch m k) k' = get m k' := by
  by_cases hk : k' = k
  · subst hk
    rw [get_of_some (touch_self m k')]
  · rw [get, touch_of_ne m hk, get]

theorem touch_eq_none_iff (m : StdMap K V) (k k' : K) :
    touch m k k' = none ↔ m k' = none ∧ k' ≠ k := by
  by_cases hk : k' = k
  · subst hk
    simp
  · rw [touch_of_ne m hk]
    simp [hk]

theorem touch_eq_update (m : StdMap K V) (k : K) :
    touch m k = Function.update m k (some (get m k)) := by
  funext j
  by_cases hj : j = k
  · subst hj
    rw [touch_self, Function.update_self]
  · rw [touch_of_ne _ hj, Function.update_of_ne hj]

/-- Reads through `operator[]` commute. -/
theorem touch_comm (m : StdMap K V) (k k' : K) : touch (touch m k) k' = touch (touch m k') k := by
  by_cases hk : k = k'
  · rw [hk]
  · funext j
    by_cases hj : j = k
    · subst hj
      rw [touch_self, touch_of_ne _ hk, touch_self, get_touch]
    · by_cases hj' : j = k'
      · subst hj'
        rw [touch_self, touch_of_ne _ hj, touch_self, get_touch]
      · rw [touch_of_ne _ hj', touch_of_ne _ hj, touch_of_ne _ hj, touch_of_ne _ hj']

end Index

section Update

variable [DecidableEq K]

/-- `m[k] = v`. -/
def set (m : StdMap K V) (k : K) (v : V) : StdMap K V := Function.update m k (some v)

/-- `m.erase(k)`. -/
def erase (m : StdMap K V) (k : K) : StdMap K V := Function.update m k none

@[simp] theorem set_self (m : StdMap K V) (k : K) (v : V) : set m k v k = some v :=
  Function.update_self ..

theorem set_of_ne (m : StdMap K V) {k k' : K} (v : V) (hk : k' ≠ k) : set m k v k' = m k' :=
  Function.update_of_ne hk ..

theorem set_set (m : StdMap K V) (k : K) (v w : V) : set (set m k v) k w = set m k w :=
  Function.update_idem ..

@[simp] theorem get_set_self [Inhabited V] (m : StdMap K V) (k : K) (v : V) :
    get (set m k v) k = v :=
  get_of_some (set_self m k v)

theorem get_set_of_ne [Inhabited V] (m : StdMap K V) {k k' : K} (v : V) (hk : k' ≠ k) :
    get (set m k v) k' = get m k' := by
  rw [get, set_of_ne m v hk, get]

@[simp] theorem erase_self (m : StdMap K V) (k : K) : erase m k k = none :=
  Function.update_self ..

theorem erase_of_ne (m : StdMap K V) {k k' : K} (hk : k' ≠ k) : erase m k k' = m k' :=
  Function.update_of_ne hk ..

theorem get_erase_self [Inhabited V] (m : StdMap K V) (k : K) : get (erase m k) k = default :=
  get_of_none (erase_self m k)

theorem get_erase_of_ne [Inhabited V] (m : StdMap K V) {k k' : K} (hk : k' ≠ k) :
    get (erase m k) k' = get m k' := by
  rw [get, erase_of_ne m hk, get]

end Update

end StdMap
