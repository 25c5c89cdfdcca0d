/-
# Client programs over locks and calls

A client program is a finite tree of requests: acquire a lock, release a lock, make a call and go on
with its response, return.  The type is generic in the locks `ι`, the calls `κ`, the responses `ρ` and
the result `α`, and says nothing about what a call does; the same tree is run

* against recorded responses (`Transcript`),
* alone, against a store that answers the calls (`Alone`),
* interleaved with other programs (`Yfs.TwoPhase`).

`withLock` is the lock guard: the lock is released wherever the body returns.
-/
import Mathlib

/-- A client program with locks `ι`, calls `κ`, responses `ρ` and result `α`. -/
inductive Prog (ι κ ρ α : Type)
  | ret (a : α)
  | acquire (i : ι) (k : Prog ι κ ρ α)
  | release (i : ι) (k : Prog ι κ ρ α)
  | call (c : κ) (k : ρ → Prog ι κ ρ α)

namespace Prog

variable {ι κ ρ α β : Type}

/-- Run `p`, then `f` on its result. -/
def bind : Prog ι κ ρ α → (α → Prog ι κ ρ β) → Prog ι κ ρ β
  | ret a, f => f a
  | acquire i k, f => acquire i (k.bind f)
  | release i k, f => release i (k.bind f)
  | call c k, f => call c (fun r => (k r).bind f)

/-- The result of a program that has ended. -/
def result : Prog ι κ ρ α → Option α
  | ret a => some a
  | _ => none

theorem eq_ret_of_result {p : Prog ι κ ρ α} {a : α} (h : p.result = some a) : p = ret a := by
  cases p with
  | ret b => exact congrArg ret (Option.some.inj h)
  | acquire i k => cases h
  | release i k => cases h
  | call c k => cases h

/-- Hold the lock `i` while `p` runs. -/
def withLock (i : ι) (p : Prog ι κ ρ α) : Prog ι κ ρ α :=
  acquire i (p.bind (fun a => release i (ret a)))

@[simp] theorem bind_ret (a : α) (f : α → Prog ι κ ρ β) : (ret a).bind f = f a := rfl

@[simp] theorem bind_acquire (i : ι) (k : Prog ι κ ρ α) (f : α → Prog ι κ ρ β) :
    (acquire i k).bind f = acquire i (k.bind f) := rfl

@[simp] theorem bind_release (i : ι) (k : Prog ι κ ρ α) (f : α → Prog ι κ ρ β) :
    (release i k).bind f = release i (k.bind f) := rfl

@[simp] theorem bind_call (c : κ) (k : ρ → Prog ι κ ρ α) (f : α → Prog ι κ ρ β) :
    (call c k).bind f = call c (fun r => (k r).bind f) := rfl

theorem bind_ret_right (p : Prog ι κ ρ α) : p.bind ret = p := by
  induction p with
  | ret a => rfl
  | acquire i k ih => rw [bind_acquire, ih]
  | release i k ih => rw [bind_release, ih]
  | call c k ih =>
    rw [bind_call]
    congr 1
    funext r
    exact ih r

theorem bind_assoc {γ : Type} (p : Prog ι κ ρ α) (f : α → Prog ι κ ρ β) (g : β → Prog ι κ ρ γ) :
    (p.bind f).bind g = p.bind (fun a => (f a).bind g) := by
  induction p with
  | ret a => rfl
  | acquire i k ih => rw [bind_acquire, bind_acquire, bind_acquire, ih]
  | release i k ih => rw [bind_release, bind_release, bind_release, ih]
  | call c k ih =>
    rw [bind_call, bind_call, bind_call]
    congr 1
    funext r
    exact ih r

/-! ## Transcripts -/

/-- `Transcript p tr a`: when the calls of `p` get the responses recorded in `tr`, the program makes
exactly the calls recorded there and returns `a`.  Locks are granted. -/
inductive Transcript : Prog ι κ ρ α → List (κ × ρ) → α → Prop
  | ret (a : α) : Transcript (ret a) [] a
  | acquire {i : ι} {k : Prog ι κ ρ α} {tr : List (κ × ρ)} {a : α} :
      Transcript k tr a → Transcript (acquire i k) tr a
  | release {i : ι} {k : Prog ι κ ρ α} {tr : List (κ × ρ)} {a : α} :
      Transcript k tr a → Transcript (release i k) tr a
  | call {c : κ} {r : ρ} {k : ρ → Prog ι κ ρ α} {tr : List (κ × ρ)} {a : α} :
      Transcript (k r) tr a → Transcript (call c k) ((c, r) :: tr) a

@[simp] theorem transcript_ret {a b : α} {tr : List (κ × ρ)} :
    Transcript (ret a : Prog ι κ ρ α) tr b ↔ tr = [] ∧ b = a := by
  constructor
  · intro h
    cases h
    exact ⟨rfl, rfl⟩
  · rintro ⟨rfl, rfl⟩
    exact .ret b

@[simp] theorem transcript_acquire {i : ι} {k : Prog ι κ ρ α} {tr : List (κ × ρ)} {a : α} :
    Transcript (acquire i k) tr a ↔ Transcript k tr a := by
  constructor
  · intro h
    cases h with
    | acquire h => exact h
  · exact .acquire

@[simp] theorem transcript_release {i : ι} {k : Prog ι κ ρ α} {tr : List (κ × ρ)} {a : α} :
    Transcript (release i k) tr a ↔ Transcript k tr a := by
  constructor
  · intro h
    cases h with
    | release h => exact h
  · exact .release

@[simp] theorem transcript_call {c : κ} {k : ρ → Prog ι κ ρ α} {tr : List (κ × ρ)} {a : α} :
    Transcript (call c k) tr a ↔ ∃ r tr', tr = (c, r) :: tr' ∧ Transcript (k r) tr' a := by
  constructor
  · intro h
    cases h with
    | call h => exact ⟨_, _, rfl, h⟩
  · rintro ⟨r, tr', rfl, h⟩
    exact .call h

/-- What follows without making a call and returns what it is given does not show in a transcript. -/
theorem transcript_bind {p : Prog ι κ ρ α} {f : α → Prog ι κ ρ α} {tr : List (κ × ρ)} {b : α}
    (hf : ∀ a tr b, Transcript (f a) tr b ↔ tr = [] ∧ b = a) :
    Transcript (p.bind f) tr b ↔ Transcript p tr b := by
  induction p generalizing tr with
  | ret a => rw [bind_ret, hf, transcript_ret]
  | acquire i k ih => rw [bind_acquire, transcript_acquire, transcript_acquire, ih]
  | release i k ih => rw [bind_release, transcript_release, transcript_release, ih]
  | call c k ih =>
    rw [bind_call, transcript_call, transcript_call]
    simp only [ih]

/-- Locks do not show in a transcript. -/
@[simp] theorem transcript_withLock {i : ι} {p : Prog ι κ ρ α} {tr : List (κ × ρ)} {a : α} :
    Transcript (withLock i p) tr a ↔ Transcript p tr a := by
  rw [withLock, transcript_acquire]
  apply transcript_bind
  intro a tr b
  rw [transcript_release, transcript_ret]

/-- The transcript and the result when the calls get the responses `rs`, in this order. -/
def answer : Prog ι κ ρ α → List ρ → Option (List (κ × ρ) × α)
  | ret a, [] => some ([], a)
  | ret _, _ :: _ => none
  | acquire _ k, rs => k.answer rs
  | release _ k, rs => k.answer rs
  | call _ _, [] => none
  | call c k, r :: rs => ((k r).answer rs).map (fun x => ((c, r) :: x.1, x.2))

theorem transcript_of_answer {p : Prog ι κ ρ α} (rs : List ρ) {tr : List (κ × ρ)} {a : α}
    (h : p.answer rs = some (tr, a)) : Transcript p tr a := by
  induction p generalizing rs tr with
  | ret b =>
    cases rs with
    | nil =>
      obtain ⟨rfl, rfl⟩ := Prod.mk.inj (Option.some.inj h)
      exact .ret _
    | cons r rs => cases h
  | acquire i k ih => exact .acquire (ih rs h)
  | release i k ih => exact .release (ih rs h)
  | call c k ih =>
    cases rs with
    | nil => cases h
    | cons r rs =>
      obtain ⟨⟨tr', b⟩, hk, he⟩ := Option.map_eq_some_iff.1 h
      obtain ⟨rfl, rfl⟩ := Prod.mk.inj he
      exact .call (ih r rs hk)

/-! ## Running alone -/

section Alone

variable {ε σ : Type} [DecidableEq ι] (sem : ε → κ → σ → ρ × σ)

/-- `Alone sem held s p tr a s'`: run alone from the store `s`, holding the locks `held`, the program
`p` makes the calls recorded in `tr`, returns `a` and leaves the store `s'`.  The store answers the
calls through `sem`, which may also read an environment `ε`.  A program that asks for a lock it holds
itself blocks for ever, so no rule applies to it. -/
inductive Alone : Finset ι → σ → Prog ι κ ρ α → List (κ × ρ) → α → σ → Prop
  | ret {held : Finset ι} {s : σ} (a : α) : Alone held s (ret a) [] a s
  | acquire {held : Finset ι} {s s' : σ} {i : ι} {k : Prog ι κ ρ α} {tr : List (κ × ρ)} {a : α} :
      i ∉ held → Alone (insert i held) s k tr a s' → Alone held s (acquire i k) tr a s'
  | release {held : Finset ι} {s s' : σ} {i : ι} {k : Prog ι κ ρ α} {tr : List (κ × ρ)} {a : α} :
      Alone (held.erase i) s k tr a s' → Alone held s (release i k) tr a s'
  | call {held : Finset ι} {s s' : σ} {c : κ} {k : ρ → Prog ι κ ρ α} {tr : List (κ × ρ)} {a : α}
      (e : ε) : Alone held (sem e c s).2 (k (sem e c s).1) tr a s' →
      Alone held s (call c k) ((c, (sem e c s).1) :: tr) a s'

/-- The run alone in which the calls read the environments `es`, in this order. -/
def solo : Prog ι κ ρ α → Finset ι → σ → List ε → Option (List (κ × ρ) × α × σ)
  | ret a, _, s, _ => some ([], a, s)
  | acquire i k, held, s, es => if i ∈ held then none else k.solo (insert i held) s es
  | release i k, held, s, es => k.solo (held.erase i) s es
  | call _ _, _, _, [] => none
  | call c k, held, s, e :: es =>
    ((k (sem e c s).1).solo held (sem e c s).2 es).map (fun x => ((c, (sem e c s).1) :: x.1, x.2))

variable {sem} {held : Finset ι} {s s' : σ} {tr : List (κ × ρ)} {a b : α}

theorem alone_of_solo {p : Prog ι κ ρ α} (es : List ε)
    (h : p.solo sem held s es = some (tr, a, s')) : Alone sem held s p tr a s' := by
  induction p generalizing held s es tr with
  | ret b =>
    obtain ⟨rfl, he⟩ := Prod.mk.inj (Option.some.inj h)
    obtain ⟨rfl, rfl⟩ := Prod.mk.inj he
    exact .ret b
  | acquire i k ih =>
    rw [solo] at h
    split_ifs at h with hi
    exact .acquire hi (ih es h)
  | release i k ih => exact .release (ih es h)
  | call c k ih =>
    cases es with
    | nil => cases h
    | cons e es =>
      obtain ⟨⟨tr', b, t⟩, hk, he⟩ := Option.map_eq_some_iff.1 h
      obtain ⟨rfl, hb⟩ := Prod.mk.inj he
      obtain ⟨rfl, rfl⟩ := Prod.mk.inj hb
      exact .call e (ih _ es hk)

@[simp] theorem alone_ret :
    Alone sem held s (ret a) tr b s' ↔ tr = [] ∧ b = a ∧ s' = s := by
  constructor
  · intro h
    cases h
    exact ⟨rfl, rfl, rfl⟩
  · rintro ⟨rfl, rfl, rfl⟩
    exact .ret b

@[simp] theorem alone_acquire {i : ι} {k : Prog ι κ ρ α} :
    Alone sem held s (acquire i k) tr a s' ↔ i ∉ held ∧ Alone sem (insert i held) s k tr a s' := by
  constructor
  · intro h
    cases h with
    | acquire hi h => exact ⟨hi, h⟩
  · rintro ⟨hi, h⟩
    exact .acquire hi h

@[simp] theorem alone_release {i : ι} {k : Prog ι κ ρ α} :
    Alone sem held s (release i k) tr a s' ↔ Alone sem (held.erase i) s k tr a s' := by
  constructor
  · intro h
    cases h with
    | release h => exact h
  · exact .release

@[simp] theorem alone_call {c : κ} {k : ρ → Prog ι κ ρ α} :
    Alone sem held s (call c k) tr a s' ↔
      ∃ e tr', tr = (c, (sem e c s).1) :: tr' ∧
        Alone sem held (sem e c s).2 (k (sem e c s).1) tr' a s' := by
  constructor
  · intro h
    cases h with
    | call e h => exact ⟨e, _, rfl, h⟩
  · rintro ⟨e, tr', rfl, h⟩
    exact .call e h

/-- The guard of a lock adds to a run that the lock was not held before. -/
@[simp] theorem alone_withLock {i : ι} {p : Prog ι κ ρ α} :
    Alone sem held s (withLock i p) tr a s' ↔ i ∉ held ∧ Alone sem (insert i held) s p tr a s' := by
  -- the release at the end of `p` makes no call and does not matter to what is returned
  have hbind : ∀ (held : Finset ι) (s : σ) (tr : List (κ × ρ)),
      Alone sem held s (p.bind (fun a => release i (ret a))) tr a s' ↔
        Alone sem held s p tr a s' := by
    induction p with
    | ret b =>
      intro held s tr
      rw [bind_ret, alone_release, alone_ret, alone_ret]
    | acquire j k ih =>
      intro held s tr
      rw [bind_acquire, alone_acquire, alone_acquire, ih]
    | release j k ih =>
      intro held s tr
      rw [bind_release, alone_release, alone_release, ih]
    | call c k ih =>
      intro held s tr
      rw [bind_call, alone_call, alone_call]
      simp only [ih]
  rw [withLock, alone_acquire, hbind]

/-- What every call keeps holds at the end of a run. -/
theorem Alone.invariant {I : σ → Prop} (hcall : ∀ e c s, I s → I (sem e c s).2) {p : Prog ι κ ρ α}
    (h : Alone sem held s p tr a s') (hs : I s) : I s' := by
  induction h with
  | ret b => exact hs
  | acquire _ _ ih => exact ih hs
  | release _ ih => exact ih hs
  | call e _ ih => exact ih (hcall e _ _ hs)

/-- No lock is asked for while it is held, whatever the calls return. -/
def Unblocked : Finset ι → Prog ι κ ρ α → Prop
  | _, ret _ => True
  | held, acquire i k => i ∉ held ∧ Unblocked (insert i held) k
  | held, release i k => Unblocked (held.erase i) k
  | held, call _ k => ∀ r, Unblocked held (k r)

theorem unblocked_withLock {i : ι} {p : Prog ι κ ρ α} :
    (withLock i p).Unblocked held ↔ i ∉ held ∧ p.Unblocked (insert i held) := by
  have hbind : ∀ held, (p.bind (fun a => release i (ret a))).Unblocked held ↔ p.Unblocked held := by
    induction p with
    | ret a =>
      intro held
      exact Iff.rfl
    | acquire j k ih =>
      intro held
      exact and_congr Iff.rfl (ih _)
    | release j k ih =>
      intro held
      exact ih _
    | call c k ih =>
      intro held
      exact forall_congr' (fun r => ih r held)
  exact and_congr Iff.rfl (hbind _)

variable (sem) in
/-- Such a program comes to its end, also when all its calls read the same environment. -/
theorem exists_alone_of_unblocked (e : ε) {p : Prog ι κ ρ α} (h : p.Unblocked held) (s : σ) :
    ∃ tr a s', Alone (fun _ : Unit => sem e) held s p tr a s' := by
  induction p generalizing held s with
  | ret b => exact ⟨[], b, s, .ret b⟩
  | acquire i k ih =>
    obtain ⟨tr, a, s', hrun⟩ := ih h.2 s
    exact ⟨tr, a, s', .acquire h.1 hrun⟩
  | release i k ih =>
    obtain ⟨tr, a, s', hrun⟩ := @ih (held.erase i) h s
    exact ⟨tr, a, s', .release hrun⟩
  | call c k ih =>
    obtain ⟨tr, a, s', hrun⟩ := ih (sem e c s).1 (h _) (sem e c s).2
    exact ⟨_, a, s', .call () hrun⟩

/-- A run in which all calls read the same environment is a run. -/
theorem alone_of_fixed (e : ε) {p : Prog ι κ ρ α}
    (h : Alone (fun _ : Unit => sem e) held s p tr a s') : Alone sem held s p tr a s' := by
  induction h with
  | ret b => exact .ret b
  | acquire hi _ ih => exact .acquire hi ih
  | release _ ih => exact .release ih
  | call _ _ ih => exact .call e ih

end Alone

end Prog
