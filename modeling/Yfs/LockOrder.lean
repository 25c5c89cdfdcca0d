/-
# Lock order

Threads that take locks one after another block each other for ever only when they wait in a circle.
They cannot when the locks are ranked, the ranks are bounded, and every thread waits only for locks
above those it holds (`not_circle`).

`Climbs` is this discipline for the programs of `Yfs.Prog`, whose next lock may depend on the
responses to their calls.  A program is judged under `Rules`: which responses it may rely on, and
which calls and results it owes in return.  The judgement is made for every point of a program at
once, with the locks held there, so a step of the program leads from one judgement to the next.
-/
import Yfs.Prog

namespace LockOrder

variable {τ ι κ ρ α : Type}

/-! ## Waiting in a circle -/

/-- A non-empty set of threads each of which waits for a lock that a thread of the set holds. -/
def Circle (waits holds : τ → ι → Prop) (S : Set τ) : Prop :=
  S.Nonempty ∧ ∀ t ∈ S, ∃ i, waits t i ∧ ∃ u ∈ S, holds u i

/-- **Threads that climb a bounded ranking of the locks never wait in a circle.** -/
theorem not_circle {waits holds : τ → ι → Prop} (rank : ι → ℕ) {bound : ℕ}
    (hbound : ∀ i, rank i ≤ bound)
    (hclimb : ∀ t i j, waits t i → holds t j → rank j < rank i) (S : Set τ) :
    ¬ Circle waits holds S := by
  rintro ⟨⟨t, ht⟩, hS⟩
  -- the holder of a lock waits for a higher one, so the room above the lock goes down
  have hdown : ∀ n i u, u ∈ S → holds u i → bound - rank i ≠ n := by
    intro n
    induction n using Nat.strong_induction_on with
    | _ n ih =>
      intro i u hu hi hn
      obtain ⟨j, hj, v, hv, hvj⟩ := hS u hu
      have hlt := hclimb u j i hj hi
      have hle := hbound j
      exact ih (bound - rank j) (by omega) j v hv hvj rfl
  obtain ⟨i, -, u, hu, hi⟩ := hS t ht
  exact hdown _ i u hu hi rfl

/-! ## Programs that climb -/

/-- What a program is judged under: the ranks of the locks, the calls it may make, the responses they
may get, and the results it may return. -/
structure Rules (ι κ ρ α : Type) where
  rank : ι → ℕ
  sends : κ → Prop
  gets : κ → ρ → Prop
  returns : α → Prop

variable {R : Rules ι κ ρ α}

/-- `Climbs R fin held p`: from here on, holding the locks `held`, the program `p` acquires only locks
above those it holds, keeps to the rules as long as the responses do, and holds `fin` in the end. -/
def Climbs (R : Rules ι κ ρ α) (fin : Set ι) : Set ι → Prog ι κ ρ α → Prop
  | held, .ret a => held = fin ∧ R.returns a
  | held, .acquire i k => (∀ j ∈ held, R.rank j < R.rank i) ∧ Climbs R fin (insert i held) k
  | held, .release i k => Climbs R fin (held \ {i}) k
  | held, .call c k => R.sends c ∧ ∀ r, R.gets c r → Climbs R fin held (k r)

theorem Climbs.ret {held : Set ι} {a : α} (ha : R.returns a) :
    Climbs R held held (.ret a : Prog ι κ ρ α) :=
  ⟨rfl, ha⟩

/-- A release after the last step of a program. -/
theorem Climbs.bind_release {fin held : Set ι} {p : Prog ι κ ρ α} (h : Climbs R fin held p) (i : ι) :
    Climbs R (fin \ {i}) held (p.bind (fun a => .release i (.ret a))) := by
  induction p generalizing held with
  | ret a =>
    obtain ⟨rfl, ha⟩ := h
    exact ⟨rfl, ha⟩
  | acquire j k ih => exact ⟨h.1, ih h.2⟩
  | release j k ih => exact ih h
  | call c k ih => exact ⟨h.1, fun r hr => ih r (h.2 r hr)⟩

/-- **The rule of the lock guard**: the guarded lock is above the locks held around it. -/
theorem Climbs.withLock {held : Set ι} {i : ι} {p : Prog ι κ ρ α}
    (hi : ∀ j ∈ held, R.rank j < R.rank i) (h : Climbs R (insert i held) (insert i held) p) :
    Climbs R held held (.withLock i p) := by
  have hnot : i ∉ held := fun hm => lt_irrefl _ (hi i hm)
  have hrel := h.bind_release i
  rw [Set.insert_sdiff_self_of_notMem hnot] at hrel
  exact ⟨hi, hrel⟩

/-! ## Running programs to their ends -/

/-- `Rest q p`: `q` is left when the program `p` has made a step; nothing is left of one that has
returned. -/
inductive Rest : Option (Prog ι κ ρ α) → Option (Prog ι κ ρ α) → Prop
  | ret {a : α} : Rest none (some (.ret a))
  | acquire {i : ι} {k : Prog ι κ ρ α} : Rest (some k) (some (.acquire i k))
  | release {i : ι} {k : Prog ι κ ρ α} : Rest (some k) (some (.release i k))
  | call {c : κ} {k : ρ → Prog ι κ ρ α} (r : ρ) : Rest (some (k r)) (some (.call c k))

/-- A program ends after finitely many steps, whatever the responses to its calls. -/
theorem rest_wellFounded : WellFounded (Rest (ι := ι) (κ := κ) (ρ := ρ) (α := α)) := by
  have hnone : Acc Rest (none : Option (Prog ι κ ρ α)) := by
    constructor
    intro q hq
    cases hq
  constructor
  intro p
  cases p with
  | none => exact hnone
  | some p =>
    induction p with
    | ret a =>
      constructor
      intro q hq
      cases hq
      exact hnone
    | acquire i k ih | release i k ih =>
      constructor
      intro q hq
      cases hq
      exact ih
    | call c k ih =>
      constructor
      intro q hq
      cases hq with
      | call r => exact ih r

/-- Finitely many threads, one of which goes down at a time, come to an end. -/
theorem pointwise_wellFounded [Finite τ] {A : Type} {R : A → A → Prop} (hR : WellFounded R) :
    WellFounded (fun f g : τ → A => ∃ t, R (f t) (g t) ∧ ∀ u, u ≠ t → f u = g u) := by
  refine Subrelation.wf ?_ (Pi.Lex.wellFounded (WellOrderingRel : τ → τ → Prop) (fun _ => hR))
  rintro f g ⟨t, ht, hu⟩
  exact ⟨t, fun u hlt => hu u (ne_of_irrefl hlt), ht⟩

end LockOrder
