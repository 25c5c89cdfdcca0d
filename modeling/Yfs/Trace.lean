/-
# Labelled traces and their induction rules

A system is given by a labelled step relation `Step : σ → ℓ → σ → Prop`.  `Trace Step s₀ t s` says
that the labels `t`, in this order, lead from `s₀` to `s`.  The rules below are the inductions every
result over whole runs goes through: an invariant of the states, and an invariant of the history
together with the state it has produced.

A run whose steps all meet a condition `C` is a trace of `Guarded C Step`; `runWith` computes one from
its labels when the steps are given by a function.
-/
import Mathlib

variable {σ ℓ : Type*}

/-- The labels `t` lead from `s₀` to the state in the last argument. -/
inductive Trace (Step : σ → ℓ → σ → Prop) (s₀ : σ) : List ℓ → σ → Prop
  | nil : Trace Step s₀ [] s₀
  | snoc {t : List ℓ} {s s' : σ} {a : ℓ} :
      Trace Step s₀ t s → Step s a s' → Trace Step s₀ (t ++ [a]) s'

/-- The steps of `Step` that meet the condition `C` on the state before them and their label. -/
def Guarded (C : σ → ℓ → Prop) (Step : σ → ℓ → σ → Prop) (s : σ) (a : ℓ) (s' : σ) : Prop :=
  C s a ∧ Step s a s'

namespace Trace

variable {Step : σ → ℓ → σ → Prop} {s₀ : σ}

/-- **Invariant rule.**  What holds initially and is kept by every step holds after every trace. -/
theorem invariant {I : σ → Prop} (h₀ : I s₀)
    (hstep : ∀ s a s', I s → Step s a s' → I s') {t : List ℓ} {s : σ}
    (ht : Trace Step s₀ t s) : I s := by
  induction ht with
  | nil => exact h₀
  | snoc _ hs ih => exact hstep _ _ _ ih hs

/-- **History rule.**  The same for a property of the labels seen so far and the state reached. -/
theorem history {I : List ℓ → σ → Prop} (h₀ : I [] s₀)
    (hstep : ∀ t s a s', I t s → Step s a s' → I (t ++ [a]) s') {t : List ℓ} {s : σ}
    (ht : Trace Step s₀ t s) : I t s := by
  induction ht with
  | nil => exact h₀
  | snoc _ hs ih => exact hstep _ _ _ _ ih hs

/-- Traces compose. -/
theorem append {t t' : List ℓ} {s s' : σ} (h : Trace Step s₀ t s) (h' : Trace Step s t' s') :
    Trace Step s₀ (t ++ t') s' := by
  induction h' with
  | nil => simpa using h
  | snoc _ hs ih => rw [← List.append_assoc]; exact ih.snoc hs

/-- A trace of steps that are all steps of another system. -/
theorem mono {Step' : σ → ℓ → σ → Prop} (hstep : ∀ s a s', Step s a s' → Step' s a s')
    {t : List ℓ} {s : σ} (h : Trace Step s₀ t s) : Trace Step' s₀ t s := by
  induction h with
  | nil => exact nil
  | snoc _ hs ih => exact ih.snoc (hstep _ _ _ hs)

/-- A single step is a trace. -/
theorem single {a : ℓ} {s : σ} (h : Step s₀ a s) : Trace Step s₀ [a] s :=
  nil.snoc h

theorem of_nil {s : σ} (h : Trace Step s₀ [] s) : s = s₀ := by
  generalize hu : [] = u at h
  cases h with
  | nil => rfl
  | snoc h hs => simp at hu

/-- The last step of a trace. -/
theorem of_snoc {t : List ℓ} {a : ℓ} {s' : σ} (h : Trace Step s₀ (t ++ [a]) s') :
    ∃ s, Trace Step s₀ t s ∧ Step s a s' := by
  generalize hu : t ++ [a] = u at h
  cases h with
  | nil => simp at hu
  | snoc h hs =>
    obtain ⟨rfl, hb⟩ := List.append_inj' hu rfl
    obtain rfl : a = _ := by simpa using hb
    exact ⟨_, h, hs⟩

/-- A trace can be cut at any label. -/
theorem of_append {t t' : List ℓ} {s' : σ} (h : Trace Step s₀ (t ++ t') s') :
    ∃ s, Trace Step s₀ t s ∧ Trace Step s t' s' := by
  induction t' using List.reverseRecOn generalizing s' with
  | nil =>
    rw [List.append_nil] at h
    exact ⟨s', h, nil⟩
  | append_singleton t' a ih =>
    rw [← List.append_assoc] at h
    obtain ⟨s₁, h, hs⟩ := of_snoc h
    obtain ⟨s, h₁, h₂⟩ := ih h
    exact ⟨s, h₁, h₂.snoc hs⟩

/-- The first step of a trace. -/
theorem of_cons {a : ℓ} {t : List ℓ} {s' : σ} (h : Trace Step s₀ (a :: t) s') :
    ∃ s, Step s₀ a s ∧ Trace Step s t s' := by
  have h' : Trace Step s₀ ([a] ++ t) s' := h
  obtain ⟨s, h₁, h₂⟩ := h'.of_append
  obtain ⟨s₁, h₁, hs⟩ := of_snoc (t := []) h₁
  obtain rfl := of_nil h₁
  exact ⟨s, hs, h₂⟩

/-! ## Runs of a step function -/

section Run

variable (step : σ → ℓ → Option σ) (C : σ → ℓ → Prop) [∀ s a, Decidable (C s a)]

/-- The state after the labels, as long as their steps can be made and meet the condition `C`. -/
def runWith (s : σ) : List ℓ → Option σ
  | [] => some s
  | a :: t => if C s a then (step s a).bind (fun s' => runWith s' t) else none

variable {step C}

theorem of_runWith {s s' : σ} {t : List ℓ} (h : runWith step C s t = some s') :
    Trace (Guarded C (fun s a s' => step s a = some s')) s t s' := by
  induction t generalizing s with
  | nil =>
    obtain rfl := Option.some.inj h
    exact .nil
  | cons a t ih =>
    rw [runWith] at h
    split_ifs at h with hC
    obtain ⟨s₁, h₁, h⟩ := Option.bind_eq_some_iff.1 h
    exact (Trace.single ⟨hC, h₁⟩).append (ih h)

/-- A run that ends in a state with the property `p`. -/
theorem exists_of_runWith {s : σ} {t : List ℓ} {p : σ → Bool}
    (h : (runWith step C s t).any p = true) :
    ∃ s', Trace (Guarded C (fun s a s' => step s a = some s')) s t s' ∧ p s' = true := by
  cases hr : runWith step C s t with
  | none => simp [hr] at h
  | some s' => exact ⟨s', of_runWith hr, by simpa [hr] using h⟩

end Run

end Trace
