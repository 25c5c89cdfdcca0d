/-
# Two-phase locking is serialisable

Threads `τ` run programs over locks `ι` and calls `κ` on one shared store.  Every call has a target
object, guarded by the lock of the same name, and calls on different objects commute (`Commutes`).
A program is two-phase when it calls only objects whose lock it holds and acquires nothing after its
first release (`Growing`, `Shrinking`).

`serialisable`: every interleaved run of two-phase programs has the results and the final store of a
run of the threads one after another.  The serial run is a rearrangement of the steps of the given
run: it takes the steps of the first thread, then those of the second, and so on.

The proof rearranges the run while it grows (`Arranged`): committed threads, those past their first
release, come first and in the order of their commits; the steps of a thread move left over the steps
of others because two steps of different threads on different objects commute (`step_comm`).
-/
import Yfs.Prog
import Yfs.Trace

namespace TwoPhase

/-! ## The interleaving semantics -/

/-- What the threads share: the store and the lock flags. -/
structure World (ι σ : Type) where
  store : σ
  locked : ι → Bool

/-- A state of the system: the world and the rest of each thread's program. -/
structure Sys (τ ι κ ρ α σ : Type) where
  world : World ι σ
  prog : τ → Prog ι κ ρ α

/-- The label of a step: the thread, the object (lock or target of the call) and what the call reads
from outside the store. -/
structure Act (τ ι ε : Type) where
  thread : τ
  object : ι
  env : ε
  deriving DecidableEq

variable {τ ι κ ρ α ε σ : Type} [DecidableEq τ]

/-- The steps of `ls` that the thread `t` makes, in their order. -/
def stepsOf (ls : List (Act τ ι ε)) (t : τ) : List (Act τ ι ε) :=
  ls.filter (fun l => l.thread = t)

theorem mem_stepsOf {ls : List (Act τ ι ε)} {t : τ} {l : Act τ ι ε} :
    l ∈ stepsOf ls t ↔ l ∈ ls ∧ l.thread = t := by
  simp [stepsOf]

theorem stepsOf_snoc_self (ls : List (Act τ ι ε)) (l : Act τ ι ε) :
    stepsOf (ls ++ [l]) l.thread = stepsOf ls l.thread ++ [l] := by
  simp [stepsOf, List.filter_append]

/-- A step of another thread leaves the blocks of the threads in `ts` alone. -/
theorem flatMap_stepsOf_snoc {ts : List τ} {ls : List (Act τ ι ε)} {l : Act τ ι ε}
    (h : l.thread ∉ ts) : ts.flatMap (stepsOf (ls ++ [l])) = ts.flatMap (stepsOf ls) := by
  apply List.flatMap_congr
  intro t ht
  have hne : l.thread ≠ t := fun he => h (he ▸ ht)
  simp [stepsOf, List.filter_append, hne]

variable [DecidableEq ι]

section Semantics

variable (target : κ → ι) (sem : ε → κ → σ → ρ × σ)

/-- One step of one program. -/
inductive Move : World ι σ → Prog ι κ ρ α → ι → ε → World ι σ → Prog ι κ ρ α → Prop
  | acquire {w : World ι σ} {i : ι} {e : ε} {k : Prog ι κ ρ α} (hl : w.locked i = false) :
      Move w (.acquire i k) i e { w with locked := Function.update w.locked i true } k
  | release {w : World ι σ} {i : ι} {e : ε} {k : Prog ι κ ρ α} :
      Move w (.release i k) i e { w with locked := Function.update w.locked i false } k
  | call {w : World ι σ} {c : κ} {e : ε} {k : ρ → Prog ι κ ρ α} :
      Move w (.call c k) (target c) e { w with store := (sem e c w.store).2 }
        (k (sem e c w.store).1)

/-- One step of the system. -/
def Step (s : Sys τ ι κ ρ α σ) (l : Act τ ι ε) (s' : Sys τ ι κ ρ α σ) : Prop :=
  ∃ p, Move target sem s.world (s.prog l.thread) l.object l.env s'.world p ∧
    s'.prog = Function.update s.prog l.thread p

/-- The step with the label `l`, if the system can make it. -/
def next (s : Sys τ ι κ ρ α σ) (l : Act τ ι ε) : Option (Sys τ ι κ ρ α σ) :=
  match s.prog l.thread with
  | .ret _ => none
  | .acquire i k =>
    if i = l.object ∧ s.world.locked i = false then
      some ⟨{ s.world with locked := Function.update s.world.locked i true },
        Function.update s.prog l.thread k⟩
    else none
  | .release i k =>
    if i = l.object then
      some ⟨{ s.world with locked := Function.update s.world.locked i false },
        Function.update s.prog l.thread k⟩
    else none
  | .call c k =>
    if target c = l.object then
      some ⟨{ s.world with store := (sem l.env c s.world.store).2 },
        Function.update s.prog l.thread (k (sem l.env c s.world.store).1)⟩
    else none

theorem step_of_next {s s' : Sys τ ι κ ρ α σ} {l : Act τ ι ε} (h : next target sem s l = some s') :
    Step target sem s l s' := by
  obtain ⟨t, i, e⟩ := l
  rw [next] at h
  dsimp only at h
  cases hp : s.prog t with
  | ret a => simp [hp] at h
  | acquire j k =>
    simp only [hp] at h
    split_ifs at h with hj
    obtain ⟨rfl, hl⟩ := hj
    obtain rfl := Option.some.inj h
    exact ⟨k, hp ▸ .acquire hl, rfl⟩
  | release j k =>
    simp only [hp] at h
    split_ifs at h with hj
    obtain rfl := hj
    obtain rfl := Option.some.inj h
    exact ⟨k, hp ▸ .release, rfl⟩
  | call c k =>
    simp only [hp] at h
    split_ifs at h with hj
    obtain rfl := hj
    obtain rfl := Option.some.inj h
    exact ⟨_, hp ▸ .call, rfl⟩

/-- The run with the labels `ls`. -/
def run (s : Sys τ ι κ ρ α σ) : List (Act τ ι ε) → Option (Sys τ ι κ ρ α σ)
  | [] => some s
  | l :: ls => (next target sem s l).bind (fun s => run s ls)

theorem trace_of_run {s s' : Sys τ ι κ ρ α σ} {ls : List (Act τ ι ε)}
    (h : run target sem s ls = some s') : Trace (Step target sem) s ls s' := by
  induction ls generalizing s with
  | nil =>
    obtain rfl := Option.some.inj h
    exact .nil
  | cons l ls ih =>
    obtain ⟨s₁, h₁, h⟩ := Option.bind_eq_some_iff.1 h
    exact (Trace.single (step_of_next target sem h₁)).append (ih h)

/-- Calls on different objects commute: in either order both get the same response and the store ends
up the same. -/
def Commutes : Prop :=
  ∀ (e e' : ε) (c c' : κ) (s : σ), target c ≠ target c' →
    (sem e' c' (sem e c s).2).1 = (sem e' c' s).1 ∧
      (sem e c (sem e' c' s).2).1 = (sem e c s).1 ∧
      (sem e c (sem e' c' s).2).2 = (sem e' c' (sem e c s).2).2

end Semantics

/-! ## Two-phase programs -/

/-- After the first release: `held` are the locks still to be released. -/
def Shrinking : Finset ι → Prog ι κ ρ α → Prop
  | held, .ret _ => held = ∅
  | held, .release i k => i ∈ held ∧ Shrinking (held.erase i) k
  | _, .acquire _ _ => False
  | _, .call _ _ => False

/-- Before the first release: every call is on an object whose lock is held.  What follows an attempt
to acquire a lock the program holds already is never reached. -/
def Growing (target : κ → ι) : Finset ι → Prog ι κ ρ α → Prop
  | held, .ret _ => held = ∅
  | held, .acquire i k => i ∉ held → Growing target (insert i held) k
  | held, .release i k => i ∈ held ∧ Shrinking (held.erase i) k
  | held, .call c k => target c ∈ held ∧ ∀ r, Growing target held (k r)

/-- Programs whose locks are scoped: a lock is taken for the rest of the program, and every call is on
an object whose lock is held. -/
inductive Scoped (target : κ → ι) : Finset ι → Prog ι κ ρ α → Prop
  | ret {held : Finset ι} (a : α) : Scoped target held (.ret a)
  | call {held : Finset ι} {c : κ} {k : ρ → Prog ι κ ρ α} (hc : target c ∈ held)
      (hk : ∀ r, Scoped target held (k r)) : Scoped target held (.call c k)
  | withLock {held : Finset ι} {i : ι} {p : Prog ι κ ρ α} (hp : Scoped target (insert i held) p) :
      Scoped target held (.withLock i p)

/-- A scoped program, followed by the release of the locks it was started with, is two-phase. -/
theorem Scoped.growing_bind {target : κ → ι} {held : Finset ι} {p : Prog ι κ ρ α}
    (h : Scoped target held p) {f : α → Prog ι κ ρ α}
    (hf : ∀ a, Growing target held (f a) ∧ Shrinking held (f a)) :
    Growing target held (p.bind f) := by
  induction h generalizing f with
  | ret a => exact (hf a).1
  | call hc hk ih => exact ⟨hc, fun r => ih r hf⟩
  | @withLock held i p hp ih =>
    intro hi
    rw [Prog.bind_assoc]
    apply ih
    intro a
    have hk : Shrinking ((insert i held).erase i) (f a) := by
      rw [Finset.erase_insert hi]
      exact (hf a).2
    exact ⟨⟨Finset.mem_insert_self i held, hk⟩, Finset.mem_insert_self i held, hk⟩

/-- **Scoped programs are two-phase.** -/
theorem Scoped.growing {target : κ → ι} {p : Prog ι κ ρ α} (h : Scoped target ∅ p) :
    Growing target ∅ p := by
  have hb := h.growing_bind (f := Prog.ret) (fun _ => ⟨rfl, rfl⟩)
  rwa [Prog.bind_ret_right] at hb

/-! ## Commuting steps -/

variable {target : κ → ι} {sem : ε → κ → σ → ρ × σ}

/-- Two moves on different objects commute. -/
theorem move_comm (hc : Commutes target sem) {w w₁ w₂ : World ι σ} {p p' q q' : Prog ι κ ρ α}
    {i j : ι} {e e' : ε} (h₁ : Move target sem w p i e w₁ p') (h₂ : Move target sem w₁ q j e' w₂ q')
    (hij : i ≠ j) :
    ∃ w₁', Move target sem w q j e' w₁' q' ∧ Move target sem w₁' p i e w₂ p' := by
  cases h₁ with
  | acquire hl =>
    have hl₁ (b : Bool) : Function.update w.locked j b i = false := by
      rwa [Function.update_of_ne hij]
    cases h₂ with
    | acquire hl' =>
      dsimp only at hl' ⊢
      rw [Function.update_of_ne hij.symm] at hl'
      rw [Function.update_comm hij]
      exact ⟨_, .acquire hl', .acquire (hl₁ true)⟩
    | release =>
      dsimp only
      rw [Function.update_comm hij]
      exact ⟨_, .release, .acquire (hl₁ false)⟩
    | call => exact ⟨_, .call, .acquire hl⟩
  | release =>
    cases h₂ with
    | acquire hl' =>
      dsimp only at hl' ⊢
      rw [Function.update_of_ne hij.symm] at hl'
      rw [Function.update_comm hij]
      exact ⟨_, .acquire hl', .release⟩
    | release =>
      dsimp only
      rw [Function.update_comm hij]
      exact ⟨_, .release, .release⟩
    | call => exact ⟨_, .call, .release⟩
  | @call c _ k =>
    cases h₂ with
    | acquire hl' => exact ⟨_, .acquire hl', .call⟩
    | release => exact ⟨_, .release, .call⟩
    | @call c' _ k' =>
      obtain ⟨hr', hr, hs⟩ := hc e e' c c' w.store hij
      refine ⟨{ w with store := (sem e' c' w.store).2 }, ?_, ?_⟩
      · dsimp only
        rw [hr']
        exact .call
      · rw [← hr]
        dsimp only
        rw [← hs]
        exact .call

/-- **Two steps of different threads on different objects commute.** -/
theorem step_comm (hc : Commutes target sem) {s s₁ s₂ : Sys τ ι κ ρ α σ} {m l : Act τ ι ε}
    (h₁ : Step target sem s m s₁) (h₂ : Step target sem s₁ l s₂) (ht : m.thread ≠ l.thread)
    (ho : m.object ≠ l.object) :
    ∃ s₁', Step target sem s l s₁' ∧ Step target sem s₁' m s₂ := by
  obtain ⟨p, hm, hp⟩ := h₁
  obtain ⟨q, hl, hq⟩ := h₂
  rw [hp, Function.update_of_ne ht.symm] at hl
  obtain ⟨w, hl', hm'⟩ := move_comm hc hm hl ho
  refine ⟨⟨w, Function.update s.prog l.thread q⟩, ⟨q, hl', rfl⟩, p, ?_, ?_⟩
  · dsimp only
    rw [Function.update_of_ne ht]
    exact hm'
  · rw [hq, hp, Function.update_comm ht]

/-! ## Rearranging a trace -/

/-- A step moves left over steps of other threads on other objects. -/
theorem trace_step_left (hc : Commutes target sem) {s s' : Sys τ ι κ ρ α σ}
    {b : List (Act τ ι ε)} {l : Act τ ι ε} (h : Trace (Step target sem) s (b ++ [l]) s')
    (hb : ∀ x ∈ b, x.thread ≠ l.thread ∧ x.object ≠ l.object) :
    Trace (Step target sem) s (l :: b) s' := by
  induction b using List.reverseRecOn generalizing s' with
  | nil => exact h
  | append_singleton b x ih =>
    obtain ⟨s₂, h, hl⟩ := h.of_snoc
    obtain ⟨s₁, h, hx⟩ := h.of_snoc
    obtain ⟨ht, ho⟩ := hb x (by simp)
    obtain ⟨s₂', hl, hx⟩ := step_comm hc hx hl ht ho
    have hb' := ih (h.snoc hl) (fun y hy => hb y (by simp [hy]))
    exact hb'.snoc hx

/-- A block of steps moves left over a block of steps of other threads on other objects. -/
theorem trace_block_left (hc : Commutes target sem) {s s' : Sys τ ι κ ρ α σ}
    {b m : List (Act τ ι ε)} (h : Trace (Step target sem) s (b ++ m) s')
    (hb : ∀ x ∈ b, ∀ y ∈ m, x.thread ≠ y.thread ∧ x.object ≠ y.object) :
    Trace (Step target sem) s (m ++ b) s' := by
  induction m using List.reverseRecOn generalizing s' with
  | nil => simpa using h
  | append_singleton m l ih =>
    rw [← List.append_assoc] at h
    obtain ⟨s₁, h, hl⟩ := h.of_snoc
    have hm := ih h (fun x hx y hy => hb x hx y (by simp [hy]))
    obtain ⟨s₂, hm, hs⟩ := hm.of_append
    have hls := trace_step_left hc (hs.snoc hl) (fun x hx => hb x hx l (by simp))
    rw [List.append_assoc]
    exact hm.append hls

/-- A new step of the thread `l.thread` joins the other steps of this thread, when the threads that
come later in the arrangement have not used its object. -/
theorem trace_join (hc : Commutes target sem) {s₀ s s' : Sys τ ι κ ρ α σ} {A B : List τ}
    {ls : List (Act τ ι ε)} {l : Act τ ι ε} (hn : (A ++ l.thread :: B).Nodup)
    (h : Trace (Step target sem) s₀ ((A ++ l.thread :: B).flatMap (stepsOf ls)) s)
    (hs : Step target sem s l s') (hi : ∀ x ∈ ls, x.thread ∈ B → x.object ≠ l.object) :
    Trace (Step target sem) s₀ ((A ++ l.thread :: B).flatMap (stepsOf (ls ++ [l]))) s' := by
  obtain ⟨-, htB, hA⟩ := List.nodup_append.1 hn
  have hA : l.thread ∉ A := fun hm => hA _ hm _ (by simp) rfl
  have hB : l.thread ∉ B := (List.nodup_cons.1 htB).1
  rw [List.flatMap_append, List.flatMap_cons] at h ⊢
  rw [flatMap_stepsOf_snoc hA, flatMap_stepsOf_snoc hB, stepsOf_snoc_self]
  obtain ⟨s₁, h₁, h⟩ := h.of_append
  obtain ⟨s₂, h₂, h⟩ := h.of_append
  have hleft : Trace (Step target sem) s₂ (l :: B.flatMap (stepsOf ls)) s' := by
    apply trace_step_left hc (h.snoc hs)
    intro x hx
    obtain ⟨u, hu, hxu⟩ := List.mem_flatMap.1 hx
    obtain ⟨hx, rfl⟩ := mem_stepsOf.1 hxu
    exact ⟨fun he => hB (he ▸ hu), hi x hx hu⟩
  rw [List.append_assoc]
  exact h₁.append (h₂.append hleft)

/-- The steps of a thread move left over the threads `B` when these have used other objects. -/
theorem trace_advance (hc : Commutes target sem) {s₀ s : Sys τ ι κ ρ α σ} {A B D : List τ} {t : τ}
    {ls : List (Act τ ι ε)}
    (h : Trace (Step target sem) s₀ ((A ++ (B ++ t :: D)).flatMap (stepsOf ls)) s) (hB : t ∉ B)
    (hi : ∀ x ∈ ls, ∀ y ∈ ls, x.thread ∈ B → y.thread = t → x.object ≠ y.object) :
    Trace (Step target sem) s₀ ((A ++ t :: (B ++ D)).flatMap (stepsOf ls)) s := by
  simp only [List.flatMap_append, List.flatMap_cons] at h ⊢
  obtain ⟨s₁, h₁, h⟩ := h.of_append
  rw [← List.append_assoc] at h
  obtain ⟨s₂, h₂, h₃⟩ := h.of_append
  have hleft := trace_block_left hc h₂ (by
    intro x hx y hy
    obtain ⟨u, hu, hxu⟩ := List.mem_flatMap.1 hx
    obtain ⟨hx, rfl⟩ := mem_stepsOf.1 hxu
    obtain ⟨hyl, rfl⟩ := mem_stepsOf.1 hy
    exact ⟨fun he => hB (he ▸ hu), hi x hx y hyl hu rfl⟩)
  rw [← List.append_assoc (stepsOf ls t)]
  exact h₁.append (hleft.append h₃)

/-! ## Who holds which lock -/

/-- `held` says which thread holds which lock: the locked locks are the held ones, and no two threads
hold the same. -/
structure Owned (locked : ι → Bool) (held : τ → Finset ι) : Prop where
  locks : ∀ i, locked i = true ↔ ∃ t, i ∈ held t
  excl : ∀ t t' i, i ∈ held t → i ∈ held t' → t = t'

theorem Owned.acquire {locked : ι → Bool} {held : τ → Finset ι} (h : Owned locked held) {i : ι}
    (t : τ) (hi : locked i = false) :
    Owned (Function.update locked i true) (Function.update held t (insert i (held t))) := by
  have hfree : ∀ u, i ∉ held u := by
    intro u hu
    have := (h.locks i).2 ⟨u, hu⟩
    simp [hi] at this
  have hmem : ∀ u j, j ∈ Function.update held t (insert i (held t)) u ↔
      (u = t ∧ j = i) ∨ j ∈ held u := by
    intro u j
    by_cases hu : u = t
    · subst hu
      simp
    · simp [hu]
  constructor
  · intro j
    simp only [hmem]
    by_cases hj : j = i
    · subst hj
      simp
    · rw [Function.update_of_ne hj, h.locks j]
      simp [hj]
  · intro u u' j hu hu'
    rw [hmem] at hu hu'
    rcases hu with ⟨rfl, rfl⟩ | hu
    · rcases hu' with ⟨rfl, -⟩ | hu'
      · rfl
      · exact absurd hu' (hfree u')
    · rcases hu' with ⟨rfl, rfl⟩ | hu'
      · exact absurd hu (hfree u)
      · exact h.excl u u' j hu hu'

theorem Owned.release {locked : ι → Bool} {held : τ → Finset ι} (h : Owned locked held) {i : ι}
    {t : τ} (hi : i ∈ held t) :
    Owned (Function.update locked i false) (Function.update held t ((held t).erase i)) := by
  have hmem : ∀ u j, j ∈ Function.update held t ((held t).erase i) u ↔ j ∈ held u ∧ j ≠ i := by
    intro u j
    by_cases hu : u = t
    · subst hu
      simp [and_comm]
    · simp only [Function.update_of_ne hu, iff_self_and]
      rintro hj rfl
      exact hu (h.excl u t j hj hi)
  constructor
  · intro j
    simp only [hmem]
    by_cases hj : j = i
    · subst hj
      simp
    · rw [Function.update_of_ne hj, h.locks j]
      simp [hj]
  · intro u u' j hu hu'
    rw [hmem] at hu hu'
    exact h.excl u u' j hu.1 hu'.1

/-! ## The arrangement of a growing run -/

/-- The steps `ls` of a run from `s₀` to `s`, arranged thread by thread.  The threads of `C` are past
their first release, in the order of their first releases; those of `U` are not.

* `kept`: a thread of `U` still holds the locks of all the objects it has used;
* `behind`: a thread of `C` has used no object whose lock an earlier thread of `C` still holds. -/
structure Arranged (target : κ → ι) (sem : ε → κ → σ → ρ × σ) (s₀ : Sys τ ι κ ρ α σ)
    (ls : List (Act τ ι ε)) (s : Sys τ ι κ ρ α σ) (held : τ → Finset ι) (C U : List τ) : Prop where
  trace : Trace (Step target sem) s₀ ((C ++ U).flatMap (stepsOf ls)) s
  nodup : (C ++ U).Nodup
  all : ∀ t, t ∈ C ++ U
  owned : Owned s.world.locked held
  growing : ∀ t ∈ U, Growing target (held t) (s.prog t)
  shrinking : ∀ t ∈ C, Shrinking (held t) (s.prog t)
  kept : ∀ l ∈ ls, l.thread ∈ U → l.object ∈ held l.thread
  behind : C.Pairwise (fun t t' => ∀ l ∈ ls, l.thread = t' → l.object ∉ held t)

namespace Arranged

variable {s₀ s s' : Sys τ ι κ ρ α σ} {ls : List (Act τ ι ε)} {l : Act τ ι ε}
  {held : τ → Finset ι} {C U : List τ} {p : Prog ι κ ρ α}

/-- The two groups are disjoint. -/
theorem ne_of_mem (h : Arranged target sem s₀ ls s held C U) {t u : τ} (ht : t ∈ C) (hu : u ∈ U) :
    t ≠ u :=
  (List.nodup_append.1 h.nodup).2.2 t ht u hu

/-- A lock that `t` holds is the lock of no step of another thread of `U`. -/
theorem object_ne (h : Arranged target sem s₀ ls s held C U) {x : Act τ ι ε} {t : τ} {i : ι}
    (hx : x ∈ ls) (hU : x.thread ∈ U) (ht : x.thread ≠ t) (hi : i ∈ held t) : x.object ≠ i := by
  intro he
  have hheld := h.kept x hx hU
  rw [he] at hheld
  exact ht (h.owned.excl _ _ i hheld hi)

omit [DecidableEq τ] [DecidableEq ι] in
/-- The steps of another thread were there before. -/
theorem mem_of_thread_ne {x : Act τ ι ε} (hx : x ∈ ls ++ [l]) (hne : x.thread ≠ l.thread) :
    x ∈ ls := by
  rcases List.mem_append.1 hx with hx | hx
  · exact hx
  · obtain rfl := List.mem_singleton.1 hx
    exact absurd rfl hne

/-- In its first phase a thread holds the locks of all the objects it has used. -/
theorem object_mem (h : Arranged target sem s₀ ls s held C U) (hU : l.thread ∈ U) {H : Finset ι}
    (hsub : held l.thread ⊆ H) (hH : l.object ∈ H) {x : Act τ ι ε} (hx : x ∈ ls ++ [l])
    (hxt : x.thread = l.thread) : x.object ∈ H := by
  rcases List.mem_append.1 hx with hx | hx
  · apply hsub
    rw [← hxt]
    exact h.kept x hx (hxt ▸ hU)
  · obtain rfl := List.mem_singleton.1 hx
    exact hH

/-- A thread in its first phase acquires a lock or makes a call: it holds the locks `H` afterwards. -/
theorem grow (hc : Commutes target sem) (h : Arranged target sem s₀ ls s held C U)
    (hs : Step target sem s l s') (hp : s'.prog = Function.update s.prog l.thread p)
    (hU : l.thread ∈ U) {H : Finset ι} (hsub : held l.thread ⊆ H) (hH : l.object ∈ H)
    (hown : Owned s'.world.locked (Function.update held l.thread H)) (hg : Growing target H p) :
    Arranged target sem s₀ (ls ++ [l]) s' (Function.update held l.thread H) C U := by
  have hother : ∀ u, u ≠ l.thread → l.object ∉ held u := by
    intro u hu hm
    refine hu (hown.excl u l.thread l.object ?_ ?_)
    · rwa [Function.update_of_ne hu]
    · rwa [Function.update_self]
  obtain ⟨U₁, U₂, hsplit⟩ := List.append_of_mem hU
  have horder : C ++ U = (C ++ U₁) ++ l.thread :: U₂ := by rw [hsplit, List.append_assoc]
  refine ⟨?_, h.nodup, h.all, hown, ?_, ?_, ?_, ?_⟩
  · -- the later threads of `U` hold what they have used, and `l.thread` is the holder of this lock
    have hn := h.nodup
    have ht := h.trace
    rw [horder] at hn ht ⊢
    refine trace_join hc hn ht hs ?_
    intro x hx hxU he
    have hxne : x.thread ≠ l.thread := by
      intro he
      rw [he] at hxU
      exact (List.nodup_cons.1 (List.nodup_append.1 hn).2.1).1 hxU
    have hkept := h.kept x hx (by rw [hsplit]; simp [hxU])
    rw [he] at hkept
    exact hother _ hxne hkept
  · intro u hu
    by_cases hut : u = l.thread
    · subst hut
      rwa [hp, Function.update_self, Function.update_self]
    · rw [hp, Function.update_of_ne hut, Function.update_of_ne hut]
      exact h.growing u hu
  · intro u hu
    have hut := h.ne_of_mem hu hU
    rw [hp, Function.update_of_ne hut, Function.update_of_ne hut]
    exact h.shrinking u hu
  · -- a growing thread gives no lock back
    intro x hx hxU
    by_cases hxt : x.thread = l.thread
    · rw [hxt, Function.update_self]
      exact h.object_mem hU hsub hH hx hxt
    · rw [Function.update_of_ne hxt]
      exact h.kept x (mem_of_thread_ne hx hxt) hxU
  · refine h.behind.imp_of_mem ?_
    intro a b ha hb hab x hx hxb
    rw [Function.update_of_ne (h.ne_of_mem ha hU)]
    exact hab x (mem_of_thread_ne hx (hxb ▸ h.ne_of_mem hb hU)) hxb

/-- A thread in its second phase releases a lock. -/
theorem shrink (hc : Commutes target sem) (h : Arranged target sem s₀ ls s held C U)
    (hs : Step target sem s l s') (hp : s'.prog = Function.update s.prog l.thread p)
    (hC : l.thread ∈ C) (hi : l.object ∈ held l.thread)
    (hown : Owned s'.world.locked
      (Function.update held l.thread ((held l.thread).erase l.object)))
    (hk : Shrinking ((held l.thread).erase l.object) p) :
    Arranged target sem s₀ (ls ++ [l]) s'
      (Function.update held l.thread ((held l.thread).erase l.object)) C U := by
  obtain ⟨C₁, C₂, hsplit⟩ := List.append_of_mem hC
  have horder : C ++ U = C₁ ++ l.thread :: (C₂ ++ U) := by rw [hsplit]; simp
  refine ⟨?_, h.nodup, h.all, hown, ?_, ?_, ?_, ?_⟩
  · have hn := h.nodup
    have ht := h.trace
    rw [horder] at hn ht ⊢
    refine trace_join hc hn ht hs ?_
    intro x hx hxm
    rcases List.mem_append.1 hxm with hxC | hxU
    · -- a later thread of `C` has not used the object: `l.thread` still holds its lock
      have hb := h.behind
      rw [hsplit] at hb
      have hb := (List.pairwise_cons.1 (List.pairwise_append.1 hb).2.1).1 _ hxC x hx rfl
      exact fun he => hb (he ▸ hi)
    · exact h.object_ne hx hxU (h.ne_of_mem hC hxU).symm hi
  · intro u hu
    have hut := (h.ne_of_mem hC hu).symm
    rw [hp, Function.update_of_ne hut, Function.update_of_ne hut]
    exact h.growing u hu
  · intro u hu
    by_cases hut : u = l.thread
    · subst hut
      rwa [hp, Function.update_self, Function.update_self]
    · rw [hp, Function.update_of_ne hut, Function.update_of_ne hut]
      exact h.shrinking u hu
  · intro x hx hxU
    have hxt := (h.ne_of_mem hC hxU).symm
    rw [Function.update_of_ne hxt]
    exact h.kept x (mem_of_thread_ne hx hxt) hxU
  · -- no earlier thread holds the released lock: its holder is `l.thread`
    have hne : C.Pairwise (· ≠ ·) := (List.nodup_append.1 h.nodup).1
    refine (hne.and h.behind).imp ?_
    rintro a b ⟨hab, hb⟩ x hx rfl hm
    by_cases hat : a = l.thread
    · subst hat
      rw [Function.update_self] at hm
      exact hb x (mem_of_thread_ne hx hab.symm) rfl (Finset.mem_of_mem_erase hm)
    · rw [Function.update_of_ne hat] at hm
      rcases List.mem_append.1 hx with hx | hx
      · exact hb x hx rfl hm
      · obtain rfl := List.mem_singleton.1 hx
        exact hat (h.owned.excl a _ _ hm hi)

/-- A thread makes its first release: it becomes the last thread of `C`. -/
theorem commit (hc : Commutes target sem) {U₁ U₂ : List τ}
    (h : Arranged target sem s₀ ls s held C (U₁ ++ l.thread :: U₂))
    (hs : Step target sem s l s') (hp : s'.prog = Function.update s.prog l.thread p)
    (hi : l.object ∈ held l.thread)
    (hown : Owned s'.world.locked
      (Function.update held l.thread ((held l.thread).erase l.object)))
    (hk : Shrinking ((held l.thread).erase l.object) p) :
    Arranged target sem s₀ (ls ++ [l]) s'
      (Function.update held l.thread ((held l.thread).erase l.object)) (C ++ [l.thread])
      (U₁ ++ U₂) := by
  have hmid : (U₁ ++ l.thread :: U₂).Perm (l.thread :: (U₁ ++ U₂)) := List.perm_middle
  have hperm : ((C ++ [l.thread]) ++ (U₁ ++ U₂)).Perm (C ++ (U₁ ++ l.thread :: U₂)) := by
    rw [List.append_assoc]
    exact hmid.symm.append_left C
  have hU : l.thread ∈ U₁ ++ l.thread :: U₂ := by simp
  have hnot : ∀ u ∈ U₁ ++ U₂, u ≠ l.thread := by
    intro u hu he
    have hn := hmid.nodup_iff.1 (List.nodup_append.1 h.nodup).2.1
    exact (List.nodup_cons.1 hn).1 (he ▸ hu)
  have hmem : ∀ u ∈ U₁ ++ U₂, u ∈ U₁ ++ l.thread :: U₂ := by
    intro u hu
    exact hmid.symm.mem_iff.1 (List.mem_cons_of_mem _ hu)
  -- at its first release a thread holds the locks of all the objects it has used
  have hmine : ∀ x ∈ ls ++ [l], x.thread = l.thread → x.object ∈ held l.thread :=
    fun x hx hxt => h.object_mem hU (Finset.Subset.refl _) hi hx hxt
  refine ⟨?_, hperm.nodup_iff.2 h.nodup, fun t => hperm.mem_iff.2 (h.all t), hown, ?_, ?_, ?_, ?_⟩
  · have hn := h.nodup
    have ht := h.trace
    rw [← List.append_assoc] at hn ht
    -- the release joins its thread, and the thread moves to the front of `U`
    have hj := trace_join hc hn ht hs (fun x hx hxU =>
      h.object_ne hx (hmem _ (by simp [hxU])) (hnot _ (by simp [hxU])) hi)
    rw [List.append_assoc] at hj ⊢
    refine trace_advance (B := U₁) (D := U₂) hc hj (fun hm => hnot _ (by simp [hm]) rfl) ?_
    intro x hx y hy hxU hyt
    have hxt := hnot x.thread (by simp [hxU])
    exact h.object_ne (mem_of_thread_ne hx hxt) (hmem _ (by simp [hxU])) hxt (hmine y hy hyt)
  · intro u hu
    rw [hp, Function.update_of_ne (hnot u hu), Function.update_of_ne (hnot u hu)]
    exact h.growing u (hmem u hu)
  · intro u hu
    rcases List.mem_append.1 hu with hu | hu
    · have hut := h.ne_of_mem hu hU
      rw [hp, Function.update_of_ne hut, Function.update_of_ne hut]
      exact h.shrinking u hu
    · obtain rfl := List.mem_singleton.1 hu
      rwa [hp, Function.update_self, Function.update_self]
  · intro x hx hxU
    have hxt := hnot _ hxU
    rw [Function.update_of_ne hxt]
    exact h.kept x (mem_of_thread_ne hx hxt) (hmem _ hxU)
  · refine List.pairwise_append.2 ⟨h.behind.imp_of_mem ?_, List.pairwise_singleton _ _, ?_⟩
    · intro a b ha hb hab x hx hxb
      rw [Function.update_of_ne (h.ne_of_mem ha hU)]
      exact hab x (mem_of_thread_ne hx (hxb ▸ h.ne_of_mem hb hU)) hxb
    · intro a ha b hb x hx hxb hm
      obtain rfl := List.mem_singleton.1 hb
      have hat := h.ne_of_mem ha hU
      rw [Function.update_of_ne hat] at hm
      exact hat (h.owned.excl a _ _ hm (hmine x hx hxb))

/-- Every step keeps an arrangement, and only a first release lets a thread join `C`. -/
theorem step_joins (hc : Commutes target sem) (h : Arranged target sem s₀ ls s held C U)
    (hs : Step target sem s l s') :
    ∃ held' C' U', Arranged target sem s₀ (ls ++ [l]) s' held' C' U' ∧
      (C' = C ∨ C' = C ++ [l.thread]) := by
  obtain ⟨p, hm, hp⟩ := hs
  have hs : Step target sem s l s' := ⟨p, hm, hp⟩
  obtain ⟨w', prog'⟩ := s'
  obtain ⟨t, i, e⟩ := l
  dsimp only at hm hp
  generalize hq : s.prog t = q at hm
  rcases List.mem_append.1 (h.all t) with hC | hU
  · -- past its first release a thread can only release
    have hk := h.shrinking t hC
    rw [hq] at hk
    cases hm with
    | acquire hl => exact hk.elim
    | release => exact ⟨_, _, _, h.shrink hc hs hp hC hk.1 (h.owned.release hk.1) hk.2, .inl rfl⟩
    | call => exact hk.elim
  · have hg := h.growing t hU
    rw [hq] at hg
    cases hm with
    | acquire hl =>
      have hfree : i ∉ held t := by
        intro hi
        have := (h.owned.locks i).2 ⟨t, hi⟩
        simp [hl] at this
      exact ⟨_, _, _, h.grow hc hs hp hU (Finset.subset_insert i _) (Finset.mem_insert_self i _)
        (h.owned.acquire t hl) (hg hfree), .inl rfl⟩
    | release =>
      -- this is the first release of `t`
      obtain ⟨U₁, U₂, rfl⟩ := List.append_of_mem hU
      exact ⟨_, _, _, h.commit hc hs hp hg.1 (h.owned.release hg.1) hg.2, .inr rfl⟩
    | call =>
      refine ⟨_, _, _, h.grow hc hs hp hU (Finset.Subset.refl _) hg.1 ?_ (hg.2 _), .inl rfl⟩
      dsimp only
      rw [Function.update_eq_self]
      exact h.owned

/-- **Every step keeps an arrangement.** -/
theorem step (hc : Commutes target sem) (h : Arranged target sem s₀ ls s held C U)
    (hs : Step target sem s l s') :
    ∃ held' C' U', Arranged target sem s₀ (ls ++ [l]) s' held' C' U' := by
  obtain ⟨held', C', U', h', -⟩ := h.step_joins hc hs
  exact ⟨held', C', U', h'⟩

/-- Before the first step every thread is in `U` and holds nothing. -/
theorem start [Fintype τ] (hfree : ∀ i, s₀.world.locked i = false)
    (hg : ∀ t, Growing target ∅ (s₀.prog t)) :
    Arranged target sem s₀ [] s₀ (fun _ => ∅) [] Finset.univ.toList := by
  refine ⟨?_, Finset.nodup_toList _, by simp, ⟨by simp [hfree], by simp⟩, fun t _ => hg t, by simp,
    by simp, List.Pairwise.nil⟩
  have hnil : ∀ ts : List τ, ts.flatMap (stepsOf ([] : List (Act τ ι ε))) = [] := by
    intro ts
    simp [stepsOf]
  rw [hnil]
  exact .nil

end Arranged

/-- When all locks are free and all programs are two-phase,
the steps of every run, taken thread by thread in some order of the threads, are again a run, and it
ends in the same state. -/
theorem trace_arranged [Fintype τ] (hc : Commutes target sem) {s₀ s : Sys τ ι κ ρ α σ}
    {ls : List (Act τ ι ε)} (hfree : ∀ i, s₀.world.locked i = false)
    (hg : ∀ t, Growing target ∅ (s₀.prog t)) (h : Trace (Step target sem) s₀ ls s) :
    ∃ order : List τ, order.Nodup ∧ (∀ t, t ∈ order) ∧
      Trace (Step target sem) s₀ (order.flatMap (stepsOf ls)) s := by
  have harr : ∃ held C U, Arranged target sem s₀ ls s held C U := by
    refine Trace.history (I := fun ls s => ∃ held C U, Arranged target sem s₀ ls s held C U) ?_ ?_ h
    · exact ⟨_, _, _, Arranged.start hfree hg⟩
    · rintro ls s l s' ⟨held, C, U, h⟩ hs
      exact h.step hc hs
  obtain ⟨held, C, U, h⟩ := harr
  exact ⟨C ++ U, h.nodup, h.all, h.trace⟩

/-! ## Serial runs -/

/-- `Serial sem prog res st order st'`: the programs of the threads in `order`, each run alone and to
its end before the next one starts, return `res` and lead from the store `st` to `st'`. -/
inductive Serial (sem : ε → κ → σ → ρ × σ) (prog : τ → Prog ι κ ρ α) (res : τ → α) :
    σ → List τ → σ → Prop
  | nil {st : σ} : Serial sem prog res st [] st
  | cons {st st' st'' : σ} {t : τ} {ts : List τ} {tr : List (κ × ρ)} :
      Prog.Alone sem ∅ st (prog t) tr (res t) st' → Serial sem prog res st' ts st'' →
      Serial sem prog res st (t :: ts) st''

/-- Steps of other threads leave a thread's program alone. -/
theorem trace_prog {s s' : Sys τ ι κ ρ α σ} {ls : List (Act τ ι ε)} {t : τ}
    (h : Trace (Step target sem) s ls s') (ht : ∀ l ∈ ls, l.thread ≠ t) : s'.prog t = s.prog t := by
  induction h with
  | nil => rfl
  | snoc _ hs ih =>
    obtain ⟨p, -, hp⟩ := hs
    rw [hp, Function.update_of_ne (ht _ (by simp)).symm]
    exact ih (fun l hl => ht l (by simp [hl]))

/-- A run of one thread alone, holding exactly the locked locks, is a run of its program alone.  It
ends with every lock free. -/
theorem alone_of_trace {s s' : Sys τ ι κ ρ α σ} {ls : List (Act τ ι ε)} {t : τ} (held : Finset ι)
    {a : α} (h : Trace (Step target sem) s ls s') (ht : ∀ l ∈ ls, l.thread = t)
    (hl : ∀ i, s.world.locked i = decide (i ∈ held))
    (hp : Growing target held (s.prog t) ∨ Shrinking held (s.prog t)) (ha : s'.prog t = .ret a) :
    (∃ tr, Prog.Alone sem held s.world.store (s.prog t) tr a s'.world.store) ∧
      ∀ i, s'.world.locked i = false := by
  -- along the run `held` stays the set of the locked locks
  induction ls generalizing s held with
  | nil =>
    obtain rfl := h.of_nil
    have hempty : held = ∅ := by
      rw [ha] at hp
      rcases hp with hp | hp <;> exact hp
    rw [ha]
    exact ⟨⟨[], .ret a⟩, by simp [hl, hempty]⟩
  | cons l ls ih =>
    obtain ⟨s₁, ⟨p, hm, hs⟩, h⟩ := h.of_cons
    obtain rfl := ht l (by simp)
    have ht' : ∀ x ∈ ls, x.thread = l.thread := fun x hx => ht x (by simp [hx])
    obtain ⟨w₁, prog₁⟩ := s₁
    obtain ⟨u, i, e⟩ := l
    dsimp only at hm hs hp ht' ⊢
    have hp₁ : prog₁ u = p := by rw [hs, Function.update_self]
    generalize hq : s.prog u = q at hm hp ⊢
    cases hm with
    | acquire hf =>
      have hi : i ∉ held := by simpa [hl] using hf
      have hk : Growing target (insert i held) p := by
        rcases hp with hp | hp
        · exact hp hi
        · exact hp.elim
      obtain ⟨⟨tr, htr⟩, hfree⟩ := ih (insert i held) h ht' (by
        intro j
        by_cases hj : j = i
        · subst hj
          simp
        · simp [hj, hl]) (by dsimp only; rw [hp₁]; exact .inl hk)
      dsimp only at htr
      rw [hp₁] at htr
      exact ⟨⟨tr, .acquire hi htr⟩, hfree⟩
    | release =>
      have hk : Shrinking (held.erase i) p := by
        rcases hp with hp | hp <;> exact hp.2
      obtain ⟨⟨tr, htr⟩, hfree⟩ := ih (held.erase i) h ht' (by
        intro j
        by_cases hj : j = i
        · subst hj
          simp
        · simp [hj, hl]) (by dsimp only; rw [hp₁]; exact .inr hk)
      dsimp only at htr
      rw [hp₁] at htr
      exact ⟨⟨tr, .release htr⟩, hfree⟩
    | @call c _ k =>
      have hk : Growing target held (k (sem e c s.world.store).1) := by
        rcases hp with hp | hp
        · exact hp.2 _
        · exact hp.elim
      obtain ⟨⟨tr, htr⟩, hfree⟩ := ih held h ht' hl (by
        dsimp only
        rw [hp₁]
        exact .inl hk)
      dsimp only at htr
      rw [hp₁] at htr
      exact ⟨⟨_, .call e htr⟩, hfree⟩

/-- A run that is arranged thread by thread and in which every thread ends is a serial run. -/
theorem serial_of_trace {s s' : Sys τ ι κ ρ α σ} {ls : List (Act τ ι ε)} {order : List τ}
    {prog : τ → Prog ι κ ρ α} {res : τ → α} (hn : order.Nodup)
    (h : Trace (Step target sem) s (order.flatMap (stepsOf ls)) s')
    (hfree : ∀ i, s.world.locked i = false) (hprog : ∀ t ∈ order, s.prog t = prog t)
    (hg : ∀ t ∈ order, Growing target ∅ (prog t)) (hres : ∀ t ∈ order, s'.prog t = .ret (res t)) :
    Serial sem prog res s.world.store order s'.world.store := by
  induction order generalizing s with
  | nil =>
    obtain rfl := h.of_nil
    exact .nil
  | cons t ts ih =>
    obtain ⟨hts, hn⟩ := List.nodup_cons.1 hn
    rw [List.flatMap_cons] at h
    obtain ⟨s₁, h₁, h⟩ := h.of_append
    have hmine : ∀ l ∈ stepsOf ls t, l.thread = t := fun l hl => (mem_stepsOf.1 hl).2
    have hothers : ∀ l ∈ ts.flatMap (stepsOf ls), l.thread ≠ t := by
      intro l hl he
      obtain ⟨u, hu, hlu⟩ := List.mem_flatMap.1 hl
      rw [(mem_stepsOf.1 hlu).2] at he
      exact hts (he ▸ hu)
    have hend : s₁.prog t = .ret (res t) := by
      rw [← trace_prog h hothers]
      exact hres t (by simp)
    have hpt := hprog t (by simp)
    obtain ⟨⟨tr, halone⟩, hfree₁⟩ := alone_of_trace ∅ h₁ hmine (by simp [hfree])
      (.inl (hpt ▸ hg t (by simp))) hend
    rw [hpt] at halone
    refine .cons halone (ih hn h hfree₁ ?_ (fun u hu => hg u (by simp [hu]))
      (fun u hu => hres u (by simp [hu])))
    intro u hu
    have hut : t ≠ u := fun he => hts (he ▸ hu)
    rw [trace_prog h₁ (fun l hl => hmine l hl ▸ hut)]
    exact hprog u (by simp [hu])

/-- **Two-phase programs are serialisable.**  When all locks are free and all programs are two-phase,
every run in which all threads end has the results and the final store of a serial run. -/
theorem serialisable [Fintype τ] (hc : Commutes target sem) {s₀ s : Sys τ ι κ ρ α σ}
    {ls : List (Act τ ι ε)} {res : τ → α} (hfree : ∀ i, s₀.world.locked i = false)
    (hg : ∀ t, Growing target ∅ (s₀.prog t)) (h : Trace (Step target sem) s₀ ls s)
    (hres : ∀ t, s.prog t = .ret (res t)) :
    ∃ order : List τ, order.Nodup ∧ (∀ t, t ∈ order) ∧
      Serial sem s₀.prog res s₀.world.store order s.world.store := by
  obtain ⟨order, hn, hall, htr⟩ := trace_arranged hc hfree hg h
  exact ⟨order, hn, hall, serial_of_trace hn htr hfree (fun _ _ => rfl) (fun t _ => hg t)
    (fun t _ => hres t)⟩

end TwoPhase
