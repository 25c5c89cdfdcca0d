/-
# The thread pool (`fifo.h`, `thr_pool.cc`)

A `ThrPool` is a bounded FIFO queue of jobs and a fixed number of worker threads.  `addJob` appends a
job to the queue, and with `blockadd_` false it refuses when the queue is full; `do_worker` takes the
job at the front and runs it to its end before it takes the next one.  The queue is guarded by its own
mutex, so `enq` and `deq` are single steps; a `deq` of an empty queue and a blocking `enq` of a full
one wait, that is, they are no step yet.

A pool neither loses nor copies jobs: `jobs`, the queued and the running ones together, is a multiset
that `addJob` extends by one job, `takeJob` leaves alone and `finish` takes one job away from.
-/
import Mathlib

/-! ## The queue -/

/-- `fifo<T>`: the elements and the capacity, `0` for none. -/
structure Fifo (α : Type) where
  q : List α
  max : ℕ

namespace Fifo

variable {α : Type}

/-- `enq`, the loop body up to the signal; `none` when the queue is full. -/
def enq (f : Fifo α) (e : α) : Option (Fifo α) :=
  if f.max = 0 ∨ f.q.length < f.max then some { f with q := f.q ++ [e] } else none

/-- `deq`; `none` when the queue is empty. -/
def deq (f : Fifo α) : Option (α × Fifo α) :=
  match f.q with
  | [] => none
  | e :: q => some (e, { f with q := q })

theorem q_of_enq {f f' : Fifo α} {e : α} (h : f.enq e = some f') : f'.q = f.q ++ [e] := by
  unfold enq at h
  split at h
  · cases h
    rfl
  · cases h

theorem q_of_deq {f f' : Fifo α} {e : α} (h : f.deq = some (e, f')) : f.q = e :: f'.q := by
  unfold deq at h
  split at h
  · cases h
  · rename_i hq
    cases h
    exact hq

theorem max_of_enq {f f' : Fifo α} {e : α} (h : f.enq e = some f') : f'.max = f.max := by
  unfold enq at h
  split at h
  · cases h
    rfl
  · cases h

theorem max_of_deq {f f' : Fifo α} {e : α} (h : f.deq = some (e, f')) : f'.max = f.max := by
  unfold deq at h
  split at h
  · cases h
  · cases h
    rfl

/-- There was room for the entry. -/
theorem room_of_enq {f f' : Fifo α} {e : α} (h : f.enq e = some f') :
    f.max = 0 ∨ f.q.length < f.max := by
  unfold enq at h
  split at h
  · assumption
  · cases h

theorem full_of_enq {f : Fifo α} {e : α} (h : f.enq e = none) : f.max ≤ f.q.length := by
  unfold enq at h
  split at h
  · cases h
  · omega

theorem empty_of_deq {f : Fifo α} (h : f.deq = none) : f.q = [] := by
  unfold deq at h
  split at h
  · assumption
  · cases h

end Fifo

/-! ## The workers -/

/-- A pool of `sz` workers: the queue, and the job that each of them runs. -/
structure ThrPool (sz : ℕ) (J : Type) where
  jobq : Fifo J
  running : Fin sz → Option J

namespace ThrPool

variable {sz : ℕ} {J : Type}

/-- The constructor. -/
def init : ThrPool sz J where
  jobq := ⟨[], 100 * sz⟩
  running := fun _ => none

/-- `addJob` with `blockadd_` false; `none` when it returns `false`. -/
def addJob (p : ThrPool sz J) (j : J) : Option (ThrPool sz J) :=
  (p.jobq.enq j).map fun jobq => { p with jobq := jobq }

/-- `takeJob`, called by a worker that has finished its last job. -/
def takeJob (p : ThrPool sz J) (w : Fin sz) : Option (ThrPool sz J) :=
  match p.running w, p.jobq.deq with
  | none, some (j, jobq) => some { jobq := jobq, running := Function.update p.running w (some j) }
  | _, _ => none

/-- The job of the worker returns. -/
def finish (p : ThrPool sz J) (w : Fin sz) : ThrPool sz J :=
  { p with running := Function.update p.running w none }

/-- A worker without a job takes the one at the front of the queue, and nothing else changes. -/
theorem takeJob_cases {p p' : ThrPool sz J} {w : Fin sz} (h : p.takeJob w = some p') :
    ∃ j, p.running w = none ∧ p.jobq.q = j :: p'.jobq.q ∧
      p'.running = Function.update p.running w (some j) := by
  unfold takeJob at h
  split at h
  · rename_i j jobq hrun hdeq
    cases h
    exact ⟨j, hrun, Fifo.q_of_deq hdeq, rfl⟩
  · cases h

theorem addJob_cases {p p' : ThrPool sz J} {j : J} (h : p.addJob j = some p') :
    p'.jobq.q = p.jobq.q ++ [j] ∧ p'.running = p.running := by
  obtain ⟨jobq, henq, rfl⟩ := Option.map_eq_some_iff.mp h
  exact ⟨Fifo.q_of_enq henq, rfl⟩

/-! ## The jobs in the pool -/

/-- What a worker runs, as a multiset. -/
def load (o : Option J) : Multiset J := (o.toList : Multiset J)

@[simp] theorem load_none : load (none : Option J) = 0 := rfl

@[simp] theorem load_some (j : J) : load (some j) = {j} := rfl

/-- The jobs in the pool, queued or running. -/
def jobs (p : ThrPool sz J) : Multiset J := (p.jobq.q : Multiset J) + ∑ w, load (p.running w)

theorem mem_jobs {p : ThrPool sz J} {j : J} :
    j ∈ p.jobs ↔ j ∈ p.jobq.q ∨ ∃ w, p.running w = some j := by
  simp only [jobs, Multiset.mem_add, Multiset.mem_coe, Multiset.mem_sum, Finset.mem_univ, true_and,
    load, Option.mem_toList]

/-- The load of the workers, one of them taken out. -/
theorem sum_load (running : Fin sz → Option J) (w : Fin sz) :
    ∑ v, load (running v) = load (running w) + ∑ v ∈ Finset.univ.erase w, load (running v) :=
  (Finset.add_sum_erase _ _ (Finset.mem_univ w)).symm

theorem sum_load_update (running : Fin sz → Option J) (w : Fin sz) (o : Option J) :
    ∑ v, load (Function.update running w o v) =
      load o + ∑ v ∈ Finset.univ.erase w, load (running v) := by
  rw [sum_load _ w, Function.update_self]
  congr 1
  apply Finset.sum_congr rfl
  intro v hv
  rw [Function.update_of_ne (Finset.ne_of_mem_erase hv)]

theorem jobs_addJob {p p' : ThrPool sz J} {j : J} (h : p.addJob j = some p') :
    p'.jobs = j ::ₘ p.jobs := by
  obtain ⟨hq, hrun⟩ := addJob_cases h
  rw [jobs, jobs, hq, hrun, ← Multiset.coe_add, Multiset.coe_singleton, add_assoc, add_left_comm,
    Multiset.singleton_add]

theorem jobs_takeJob {p p' : ThrPool sz J} {w : Fin sz} (h : p.takeJob w = some p') :
    p'.jobs = p.jobs := by
  obtain ⟨j, hnone, hq, hrun⟩ := takeJob_cases h
  rw [jobs, jobs, hq, hrun, sum_load_update, sum_load p.running w, hnone, load_none, load_some,
    zero_add, ← Multiset.cons_coe, Multiset.singleton_add, Multiset.cons_add, Multiset.add_cons]

theorem jobs_finish {p : ThrPool sz J} {w : Fin sz} {j : J} (h : p.running w = some j) :
    p.jobs = j ::ₘ (p.finish w).jobs := by
  show (p.jobq.q : Multiset J) + _ = j ::ₘ ((p.jobq.q : Multiset J) +
    ∑ v, load (Function.update p.running w none v))
  rw [sum_load_update, sum_load p.running w, h, load_none, load_some, zero_add,
    Multiset.singleton_add, Multiset.add_cons]

/-- With every worker at a job, the pool holds as many jobs as it has workers, and the queue. -/
theorem card_jobs_of_busy {p : ThrPool sz J} (h : ∀ w, ∃ j, p.running w = some j) :
    p.jobs.card = p.jobq.q.length + sz := by
  have hload : ∀ w ∈ Finset.univ, (load (p.running w)).card = 1 := by
    intro w _
    obtain ⟨j, hj⟩ := h w
    rw [hj]
    rfl
  rw [jobs, Multiset.card_add, Multiset.coe_card, Multiset.card_sum, Finset.sum_congr rfl hload]
  simp

end ThrPool
