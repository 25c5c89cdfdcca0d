/-
# Procedure calls that are served at once

The ideal of a remote procedure call.  A service has a state; a call is issued, served and answered:
it is served in one step, at most once, and between these two moments if it is answered at all.  A
caller may also be told that its call has failed.  Then it may have been served, or be served later,
or never.

`Trace.observed` is the rule by which an implementation is compared with such an ideal: what is
observed of its steps is a run of the ideal system, along a function from the states of the one to the
states of the other.
-/
import Yfs.Trace

/-! ## Refinement by a function of the state -/

section Observed

variable {σ ℓ α m : Type*}

/-- A state and what has been observed of the run that has led to it. -/
structure Observed (σ m : Type*) where
  state : σ
  seen : List m

/-- The steps of `Step`, where `obs` is what is seen of them. -/
def Watching (Step : σ → ℓ → σ → Prop) (obs : σ → ℓ → List m) (s : Observed σ m) (a : ℓ)
    (s' : Observed σ m) : Prop :=
  Step s.state a s'.state ∧ s'.seen = s.seen ++ obs s.state a

variable {Step : σ → ℓ → σ → Prop} {obs : σ → ℓ → List m} {s₀ : σ}

/-- A watched run is a run. -/
theorem Trace.of_watching {t : List ℓ} {s : Observed σ m}
    (h : Trace (Watching Step obs) ⟨s₀, []⟩ t s) : Trace Step s₀ t s.state := by
  induction h with
  | nil => exact .nil
  | snoc _ hs ih => exact ih.snoc hs.1

/-- Every run can be watched. -/
theorem Trace.exists_watching {t : List ℓ} {s : σ} (h : Trace Step s₀ t s) :
    ∃ seen, Trace (Watching Step obs) ⟨s₀, []⟩ t ⟨s, seen⟩ := by
  induction h with
  | nil => exact ⟨[], .nil⟩
  | snoc _ hs ih =>
    obtain ⟨seen, ih⟩ := ih
    exact ⟨_, ih.snoc ⟨hs, rfl⟩⟩

/-- A run whose labels all have a property. -/
theorem Trace.guarded {P : ℓ → Prop} {t : List ℓ} {s : σ} (h : Trace Step s₀ t s)
    (ht : ∀ a ∈ t, P a) : Trace (Guarded (fun _ a => P a) Step) s₀ t s := by
  induction h with
  | nil => exact .nil
  | snoc _ hs ih =>
    exact (ih (fun a ha => ht a (List.mem_append_left _ ha))).snoc
      ⟨ht _ (List.mem_append_right _ (List.mem_singleton_self _)), hs⟩

/-- **Refinement rule.**  When the steps keep an invariant and, under it, what is seen of each of them
is a run between the states that `abs` assigns to its ends, then what is seen of a whole run is one. -/
theorem Trace.observed {AStep : α → m → α → Prop} {I : σ → Prop} (abs : σ → α) (h₀ : I s₀)
    (hstep : ∀ s a s', I s → Step s a s' → I s' ∧ Trace AStep (abs s) (obs s a) (abs s'))
    {t : List ℓ} {s : Observed σ m} (h : Trace (Watching Step obs) ⟨s₀, []⟩ t s) :
    I s.state ∧ Trace AStep (abs s₀) s.seen (abs s.state) := by
  induction h with
  | nil => exact ⟨h₀, .nil⟩
  | snoc _ hs ih =>
    obtain ⟨hi, hrun⟩ := ih
    obtain ⟨hi', hnext⟩ := hstep _ _ _ hi hs.1
    refine ⟨hi', ?_⟩
    rw [hs.2]
    exact hrun.append hnext

end Observed

/-! ## The ideal -/

/-- What has become of a call: it waits with its input, or it has been served with this output. -/
inductive Progress (ι ο : Type*)
  | waiting (i : ι)
  | served (o : ο)
  deriving DecidableEq, Repr

/-- What happens to a call `k`: it is issued, served, answered, or fails with the code `e`. -/
inductive CallEvent (κ ι ο ε : Type*)
  | issue (k : κ) (i : ι)
  | serve (k : κ) (o : ο)
  | answer (k : κ) (o : ο)
  | fail (k : κ) (e : ε)
  deriving DecidableEq, Repr

/-- The state of the service, the progress of the calls that have been issued, and the calls whose
callers still wait. -/
structure AtomicCalls (κ ι ο σ : Type*) where
  service : σ
  progress : κ → Option (Progress ι ο)
  unanswered : Set κ

namespace AtomicCalls

variable {κ ι ο ε σ : Type*}

/-- Before the first call. -/
def start (service : σ) : AtomicCalls κ ι ο σ := ⟨service, fun _ => none, ∅⟩

variable [DecidableEq κ]

/-- The steps, for a service that may serve the input `i` in the state `x` with the output `o` and go
to the state `x'` if `serves x i o x'`. -/
inductive Step (serves : σ → ι → ο → σ → Prop) :
    AtomicCalls κ ι ο σ → CallEvent κ ι ο ε → AtomicCalls κ ι ο σ → Prop
  | issue {s : AtomicCalls κ ι ο σ} {k : κ} {i : ι} (hnew : s.progress k = none) :
      Step serves s (.issue k i) { s with
        progress := Function.update s.progress k (some (.waiting i))
        unanswered := insert k s.unanswered }
  | serve {s : AtomicCalls κ ι ο σ} {k : κ} {i : ι} {o : ο} {x : σ}
      (hwait : s.progress k = some (.waiting i)) (hserves : serves s.service i o x) :
      Step serves s (.serve k o) { s with
        service := x
        progress := Function.update s.progress k (some (.served o)) }
  | answer {s : AtomicCalls κ ι ο σ} {k : κ} {o : ο} (hk : k ∈ s.unanswered)
      (hserved : s.progress k = some (.served o)) :
      Step serves s (.answer k o) { s with unanswered := s.unanswered \ {k} }
  | fail {s : AtomicCalls κ ι ο σ} {k : κ} {e : ε} (hk : k ∈ s.unanswered) :
      Step serves s (.fail k e) { s with unanswered := s.unanswered \ {k} }

end AtomicCalls
