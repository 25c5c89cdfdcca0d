/-
# Sequential clients of several services

Clients that make one call at a time and wait for its answer.  Their services are `AtomicCalls`: a call
is served somewhere between the moments at which it is issued and answered.  Nobody but its client waits
for this answer, so the clients cannot tell such services from ones that serve, issue and answer a call
in one step (`AtomicClients.Step`).

`Clients.simulates` is this statement.  A client stands, seen from there, behind its call as soon as this
has been served (`Standing`).

The code of the clients is a parameter (`ClientCode`); so are the calls that somebody else makes.
-/
import Yfs.AtomicCalls

/-- **Simulation rule.**  When every step of the one system is matched by a run of the other one from any
related state, so is every run. -/
theorem Trace.simulated {σ ℓ α m : Type*} {Step : σ → ℓ → σ → Prop} {AStep : α → m → α → Prop}
    {R : σ → α → Prop} (hstep : ∀ s l s' a, R s a → Step s l s' → ∃ ls a', Trace AStep a ls a' ∧ R s' a')
    {s₀ s : σ} {a₀ : α} {t : List ℓ} (h₀ : R s₀ a₀) (h : Trace Step s₀ t s) :
    ∃ ls a, Trace AStep a₀ ls a ∧ R s a := by
  induction h with
  | nil => exact ⟨[], a₀, .nil, h₀⟩
  | snoc _ hs ih =>
    obtain ⟨ls, a, hrun, hR⟩ := ih
    obtain ⟨ls', a', hrun', hR'⟩ := hstep _ _ _ _ hR hs
    exact ⟨ls ++ ls', a', hrun.append hrun', hR'⟩

theorem Trace.of_single {σ ℓ : Type*} {Step : σ → ℓ → σ → Prop} {s s' : σ} {a : ℓ}
    (h : Trace Step s [a] s') : Step s a s' := by
  obtain ⟨s₁, hs, hnil⟩ := h.of_cons
  obtain rfl := hnil.of_nil
  exact hs

/-- What clients do: the call that a client `t` is about to make, if it is, and to which service; how it
goes on with the output; the steps that it makes on its own, in which it may read and change what the
clients share; and the calls that are made by others. -/
structure ClientCode (τ β ι ο P γ ℓ : Type*) where
  next : τ → P → Option (β × ι)
  resume : P → ο → P
  own : τ → γ → P → ℓ → γ → P → Prop
  outside : β → ι → Prop

variable {τ β κ ι ο ε P γ ℓ : Type*} {σ : β → Type*}

/-! ## The clients and their calls -/

/-- The services with their calls, where each client stands, the call whose answer it awaits, and what
the clients share. -/
structure Clients (τ κ ι ο P γ : Type*) (σ : β → Type*) where
  calls : ∀ b, AtomicCalls κ ι ο (σ b)
  prog : τ → P
  awaits : τ → Option (β × κ)
  shared : γ

/-- The labels of the steps. -/
inductive ClientLabel (τ β κ ι ο ε ℓ : Type*)
  | own (t : τ) (a : ℓ)
  | issue (t : τ)
  | answer (t : τ)
  | other (b : β) (e : CallEvent κ ι ο ε)

/-- Nobody's call: an event that no client waits for. -/
def Clients.Free (code : ClientCode τ β ι ο P γ ℓ) (s : Clients τ κ ι ο P γ σ) (b : β) :
    CallEvent κ ι ο ε → Prop
  | .issue _ i => code.outside b i
  | .serve _ _ => True
  | .answer k _ | .fail k _ => ∀ t, s.awaits t ≠ some (b, k)

/-- The steps. -/
inductive Clients.Step [DecidableEq τ] [DecidableEq β] [DecidableEq κ] (code : ClientCode τ β ι ο P γ ℓ)
    (serves : ∀ b, σ b → ι → ο → σ b → Prop) :
    Clients τ κ ι ο P γ σ → ClientLabel τ β κ ι ο ε ℓ → Clients τ κ ι ο P γ σ → Prop
  | own {s : Clients τ κ ι ο P γ σ} {t : τ} {a : ℓ} {g : γ} {p : P} (hfree : s.awaits t = none)
      (h : code.own t s.shared (s.prog t) a g p) :
      Step code serves s (.own t a) { s with prog := Function.update s.prog t p, shared := g }
  | issue {s : Clients τ κ ι ο P γ σ} {t : τ} {b : β} {k : κ} {i : ι} {c : AtomicCalls κ ι ο (σ b)}
      (hfree : s.awaits t = none) (hnext : code.next t (s.prog t) = some (b, i))
      (h : AtomicCalls.Step (ε := ε) (serves b) (s.calls b) (.issue k i) c) :
      Step code serves s (.issue t) { s with
        calls := Function.update s.calls b c
        awaits := Function.update s.awaits t (some (b, k)) }
  | answer {s : Clients τ κ ι ο P γ σ} {t : τ} {b : β} {k : κ} {o : ο} {c : AtomicCalls κ ι ο (σ b)}
      (ht : s.awaits t = some (b, k))
      (h : AtomicCalls.Step (ε := ε) (serves b) (s.calls b) (.answer k o) c) :
      Step code serves s (.answer t) { s with
        calls := Function.update s.calls b c
        prog := Function.update s.prog t (code.resume (s.prog t) o)
        awaits := Function.update s.awaits t none }
  | other {s : Clients τ κ ι ο P γ σ} {b : β} {e : CallEvent κ ι ο ε} {c : AtomicCalls κ ι ο (σ b)}
      (hfree : s.Free code b e) (h : AtomicCalls.Step (serves b) (s.calls b) e c) :
      Step code serves s (.other b e) { s with calls := Function.update s.calls b c }

/-! ## The same clients with calls in one step -/

/-- The services, where each client stands, and what the clients share. -/
structure AtomicClients (τ P γ : Type*) (σ : β → Type*) where
  services : ∀ b, σ b
  prog : τ → P
  shared : γ

/-- The labels of the steps. -/
inductive AtomicLabel (τ β ο ℓ : Type*)
  | own (t : τ) (a : ℓ)
  | call (t : τ) (o : ο)
  | outside (b : β) (o : ο)

/-- The steps. -/
inductive AtomicClients.Step [DecidableEq τ] [DecidableEq β] (code : ClientCode τ β ι ο P γ ℓ)
    (serves : ∀ b, σ b → ι → ο → σ b → Prop) :
    AtomicClients τ P γ σ → AtomicLabel τ β ο ℓ → AtomicClients τ P γ σ → Prop
  | own {s : AtomicClients τ P γ σ} {t : τ} {a : ℓ} {g : γ} {p : P}
      (h : code.own t s.shared (s.prog t) a g p) :
      Step code serves s (.own t a) { s with prog := Function.update s.prog t p, shared := g }
  | call {s : AtomicClients τ P γ σ} {t : τ} {b : β} {i : ι} {o : ο} {x : σ b}
      (hnext : code.next t (s.prog t) = some (b, i)) (hx : serves b (s.services b) i o x) :
      Step code serves s (.call t o) { s with
        services := Function.update s.services b x
        prog := Function.update s.prog t (code.resume (s.prog t) o) }
  | outside {s : AtomicClients τ P γ σ} {b : β} {i : ι} {o : ο} {x : σ b} (hi : code.outside b i)
      (hx : serves b (s.services b) i o x) :
      Step code serves s (.outside b o) { s with services := Function.update s.services b x }

/-! ## The simulation -/

namespace Clients

/-- Where a client stands for the others: behind its call, once this has been served. -/
inductive Standing (code : ClientCode τ β ι ο P γ ℓ) (s : Clients τ κ ι ο P γ σ) (t : τ) : P → Prop
  | free (ht : s.awaits t = none) : Standing code s t (s.prog t)
  | waiting {b : β} {k : κ} {i : ι} (ht : s.awaits t = some (b, k))
      (hnext : code.next t (s.prog t) = some (b, i))
      (hp : (s.calls b).progress k = some (.waiting i)) : Standing code s t (s.prog t)
  | served {b : β} {k : κ} {o : ο} (ht : s.awaits t = some (b, k))
      (hp : (s.calls b).progress k = some (.served o)) : Standing code s t (code.resume (s.prog t) o)

/-- The services and the clients stand where they stand there; a call that waits is made by one client,
or from outside. -/
structure Simulates (code : ClientCode τ β ι ο P γ ℓ) (s : Clients τ κ ι ο P γ σ)
    (a : AtomicClients τ P γ σ) : Prop where
  services : ∀ b, a.services b = (s.calls b).service
  shared : a.shared = s.shared
  standing : ∀ t, Standing code s t (a.prog t)
  waiting : ∀ b k i, (s.calls b).progress k = some (.waiting i) →
    code.outside b i ∨ ∃ t, s.awaits t = some (b, k)
  distinct : ∀ t t' b k, s.awaits t = some (b, k) → s.awaits t' = some (b, k) → t = t'

variable {code : ClientCode τ β ι ο P γ ℓ} {serves : ∀ b, σ b → ι → ο → σ b → Prop}
  {s : Clients τ κ ι ο P γ σ} {a : AtomicClients τ P γ σ} {t : τ} {p : P}

theorem Standing.of_free (h : Standing code s t p) (ht : s.awaits t = none) : p = s.prog t := by
  cases h with
  | free | waiting => rfl
  | served ht' =>
    rw [ht] at ht'
    cases ht'

/-- A client that awaits an answer stands before its call while this waits, and behind it afterwards. -/
theorem Standing.of_awaits (h : Standing code s t p) {b : β} {k : κ} (ht : s.awaits t = some (b, k)) :
    (∃ i, code.next t (s.prog t) = some (b, i) ∧ (s.calls b).progress k = some (.waiting i) ∧
      p = s.prog t) ∨
    ∃ o, (s.calls b).progress k = some (.served o) ∧ p = code.resume (s.prog t) o := by
  cases h with
  | free hfree =>
    rw [hfree] at ht
    cases ht
  | waiting ht' hnext hp =>
    rw [ht'] at ht
    cases ht
    exact .inl ⟨_, hnext, hp, rfl⟩
  | served ht' hp =>
    rw [ht'] at ht
    cases ht
    exact .inr ⟨_, hp, rfl⟩

/-- A call that has not been issued is not awaited. -/
theorem Simulates.not_awaited (h : Simulates code s a) {b : β} {k : κ}
    (hnew : (s.calls b).progress k = none) (t : τ) : s.awaits t ≠ some (b, k) := by
  intro ht
  rcases (h.standing t).of_awaits ht with ⟨_, -, hp, -⟩ | ⟨_, hp, -⟩
  · rw [hnew] at hp
    cases hp
  · rw [hnew] at hp
    cases hp

/-- A client stands where it stood while nothing happens to it and to its call. -/
theorem Standing.congr {s' : Clients τ κ ι ο P γ σ} (h : Standing code s t p)
    (hawaits : s'.awaits t = s.awaits t) (hprog : s'.prog t = s.prog t)
    (hcalls : ∀ b k, s.awaits t = some (b, k) → (s'.calls b).progress k = (s.calls b).progress k) :
    Standing code s' t p := by
  cases h with
  | free ht =>
    rw [← hprog]
    exact .free (hawaits.trans ht)
  | waiting ht hnext hp =>
    rw [← hprog] at hnext ⊢
    exact .waiting (hawaits.trans ht) hnext ((hcalls _ _ ht).trans hp)
  | served ht hp =>
    rw [← hprog]
    exact .served (hawaits.trans ht) ((hcalls _ _ ht).trans hp)

section Steps

variable [DecidableEq β]

theorem service_update {b b' : β} {c : AtomicCalls κ ι ο (σ b)} (hc : c.service = (s.calls b).service) :
    (Function.update s.calls b c b').service = (s.calls b').service := by
  by_cases hb : b' = b
  · subst hb
    rw [Function.update_self, hc]
  · rw [Function.update_of_ne hb]

/-- An event that serves nothing and lets nobody go on is not seen by the others. -/
theorem Simulates.unseen (h : Simulates code s a) {b : β} {c : AtomicCalls κ ι ο (σ b)}
    (hservice : c.service = (s.calls b).service) (hprogress : c.progress = (s.calls b).progress) :
    Simulates code { s with calls := Function.update s.calls b c } a := by
  have hp : ∀ b' k', (Function.update s.calls b c b').progress k' = (s.calls b').progress k' := by
    intro b' k'
    by_cases hb : b' = b
    · subst hb
      rw [Function.update_self, hprogress]
    · rw [Function.update_of_ne hb]
  refine ⟨?_, h.shared, ?_, ?_, h.distinct⟩
  · intro b'
    rw [h.services]
    exact (service_update hservice).symm
  · intro t
    exact (h.standing t).congr rfl rfl (fun b' k' _ => hp b' k')
  · intro b' k' i hw
    exact h.waiting b' k' i ((hp b' k').symm.trans hw)

variable [DecidableEq κ]

/-- What an event of the service `b` does to the progress of the calls: only that of the call `k` changes. -/
theorem progress_update {b b' : β} {c : AtomicCalls κ ι ο (σ b)} {k k' : κ} {p : Option (Progress ι ο)}
    (hc : c.progress = Function.update (s.calls b).progress k p) (hne : (b', k') ≠ (b, k)) :
    (Function.update s.calls b c b').progress k' = (s.calls b').progress k' := by
  by_cases hb : b' = b
  · subst hb
    have hk : k' ≠ k := fun hk => hne (by rw [hk])
    rw [Function.update_self, hc, Function.update_of_ne hk]
  · rw [Function.update_of_ne hb]

/-- Somebody else issues a call. -/
theorem Simulates.issueOutside (h : Simulates code s a) {b : β} {k : κ} {i : ι}
    {c : AtomicCalls κ ι ο (σ b)} (hout : code.outside b i)
    (hc : AtomicCalls.Step (ε := ε) (serves b) (s.calls b) (.issue k i) c) :
    Simulates code { s with calls := Function.update s.calls b c } a := by
  cases hc with
  | issue hnew =>
    refine ⟨?_, h.shared, ?_, ?_, h.distinct⟩
    · intro b'
      refine (h.services b').trans (Eq.symm ?_)
      exact service_update rfl
    · intro u
      refine (h.standing u).congr rfl rfl ?_
      intro b' k' hu
      refine progress_update (k := k) rfl ?_
      intro heq
      exact h.not_awaited hnew u (heq ▸ hu)
    · intro b' k' i' hw
      by_cases hk : (b', k') = (b, k)
      · cases hk
        obtain rfl : i = i' := by simpa using hw
        exact .inl hout
      · dsimp only at hw
        rw [progress_update (k := k) rfl hk] at hw
        exact h.waiting b' k' i' hw

variable [DecidableEq τ]

omit [DecidableEq κ] in
/-- A client makes a step of its own. -/
theorem Simulates.own (h : Simulates code s a) {t : τ} {l : ℓ} {g : γ} {p : P}
    (hfree : s.awaits t = none) (hown : code.own t s.shared (s.prog t) l g p) :
    ∃ ls a', Trace (AtomicClients.Step code serves) a ls a' ∧
      Simulates code { s with prog := Function.update s.prog t p, shared := g } a' := by
  have hstand := (h.standing t).of_free hfree
  refine ⟨[.own t l], { a with prog := Function.update a.prog t p, shared := g }, .single (.own ?_), ?_⟩
  · rw [hstand, h.shared]
    exact hown
  · refine ⟨h.services, rfl, ?_, h.waiting, h.distinct⟩
    intro u
    by_cases hu : u = t
    · subst hu
      have hfree' : Standing code { s with prog := Function.update s.prog u p, shared := g } u
          (Function.update s.prog u p u) := .free hfree
      simpa using hfree'
    · dsimp only
      rw [Function.update_of_ne hu]
      exact (h.standing u).congr rfl (Function.update_of_ne hu _ _) (fun _ _ _ => rfl)

/-- A client issues a call: the others do not see it. -/
theorem Simulates.issue (h : Simulates code s a) {t : τ} {b : β} {k : κ} {i : ι}
    {c : AtomicCalls κ ι ο (σ b)} (hfree : s.awaits t = none)
    (hnext : code.next t (s.prog t) = some (b, i))
    (hc : AtomicCalls.Step (ε := ε) (serves b) (s.calls b) (.issue k i) c) :
    Simulates code { s with
      calls := Function.update s.calls b c
      awaits := Function.update s.awaits t (some (b, k)) } a := by
  cases hc with
  | issue hnew =>
    have hstand := (h.standing t).of_free hfree
    have hnone := h.not_awaited hnew
    refine ⟨?_, h.shared, ?_, ?_, ?_⟩
    · intro b'
      refine (h.services b').trans (Eq.symm ?_)
      exact service_update rfl
    · intro u
      by_cases hu : u = t
      · subst hu
        rw [hstand]
        exact .waiting (Function.update_self ..) hnext (by simp)
      · refine (h.standing u).congr (Function.update_of_ne hu _ _) rfl ?_
        intro b' k' hu'
        refine progress_update (k := k) rfl ?_
        intro heq
        exact hnone u (heq ▸ hu')
    · intro b' k' i' hw
      by_cases hk : (b', k') = (b, k)
      · cases hk
        exact .inr ⟨t, Function.update_self ..⟩
      · dsimp only at hw
        rw [progress_update (k := k) rfl hk] at hw
        rcases h.waiting b' k' i' hw with hout | ⟨u, hu⟩
        · exact .inl hout
        · refine .inr ⟨u, ?_⟩
          have hut : u ≠ t := by
            rintro rfl
            rw [hfree] at hu
            cases hu
          exact (Function.update_of_ne hut _ _).trans hu
    · intro u u' b' k' hu hu'
      dsimp only at hu hu'
      by_cases hut : u = t
      · subst hut
        rw [Function.update_self, Option.some.injEq, Prod.mk.injEq] at hu
        obtain ⟨rfl, rfl⟩ := hu
        by_contra hne
        rw [Function.update_of_ne (Ne.symm hne)] at hu'
        exact hnone u' hu'
      · rw [Function.update_of_ne hut] at hu
        have hut' : u' ≠ t := by
          rintro rfl
          rw [Function.update_self] at hu'
          exact hnone u (hu.trans hu'.symm)
        rw [Function.update_of_ne hut'] at hu'
        exact h.distinct u u' b' k' hu hu'

/-- A client gets the answer to its call, behind which it already stands. -/
theorem Simulates.answer (h : Simulates code s a) {t : τ} {b : β} {k : κ} {o : ο}
    {c : AtomicCalls κ ι ο (σ b)} (ht : s.awaits t = some (b, k))
    (hc : AtomicCalls.Step (ε := ε) (serves b) (s.calls b) (.answer k o) c) :
    Simulates code { s with
      calls := Function.update s.calls b c
      prog := Function.update s.prog t (code.resume (s.prog t) o)
      awaits := Function.update s.awaits t none } a := by
  cases hc with
  | answer hk hserved =>
    have hcalls := h.unseen (c := { s.calls b with unanswered := (s.calls b).unanswered \ {k} }) rfl rfl
    have hstand : a.prog t = code.resume (s.prog t) o := by
      rcases (h.standing t).of_awaits ht with ⟨i, -, hp, -⟩ | ⟨o', hp, heq⟩
      · rw [hserved] at hp
        cases hp
      · rw [hserved] at hp
        cases hp
        exact heq
    refine ⟨hcalls.services, h.shared, ?_, ?_, ?_⟩
    · intro u
      by_cases hu : u = t
      · subst hu
        have hfree : Standing code { s with
            calls := Function.update s.calls b { s.calls b with
              unanswered := (s.calls b).unanswered \ {k} }
            prog := Function.update s.prog u (code.resume (s.prog u) o)
            awaits := Function.update s.awaits u none } u _ := .free (Function.update_self ..)
        dsimp only at hfree
        rw [Function.update_self] at hfree
        rwa [hstand]
      · exact (hcalls.standing u).congr (Function.update_of_ne hu _ _) (Function.update_of_ne hu _ _)
          (fun _ _ _ => rfl)
    · intro b' k' i hw
      rcases hcalls.waiting b' k' i hw with hout | ⟨u, hu⟩
      · exact .inl hout
      · refine .inr ⟨u, ?_⟩
        have hut : u ≠ t := by
          -- the call of `t` does not wait any more
          rintro rfl
          rw [ht] at hu
          cases hu
          dsimp only at hw
          rw [Function.update_self, hserved] at hw
          cases hw
        exact (Function.update_of_ne hut _ _).trans hu
    · intro u u' b' k' hu hu'
      have hold : ∀ v, Function.update s.awaits t none v = some (b', k') → s.awaits v = some (b', k') := by
        intro v hv
        by_cases hvt : v = t
        · subst hvt
          simp at hv
        · rwa [Function.update_of_ne hvt] at hv
      exact h.distinct u u' b' k' (hold u hu) (hold u' hu')

/-- A call is served: its client goes on, or it came from outside. -/
theorem Simulates.serve (h : Simulates code s a) {b : β} {k : κ} {o : ο}
    {c : AtomicCalls κ ι ο (σ b)}
    (hc : AtomicCalls.Step (ε := ε) (serves b) (s.calls b) (.serve k o) c) :
    ∃ ls a', Trace (AtomicClients.Step code serves) a ls a' ∧
      Simulates code { s with calls := Function.update s.calls b c } a' := by
  cases hc with
  | @serve _ i _ x hwait hx =>
    have hx' := hx
    rw [← h.services] at hx'
    have hservices : ∀ b', Function.update a.services b x b' = (Function.update s.calls b
        { s.calls b with
          service := x
          progress := Function.update (s.calls b).progress k (some (.served o)) } b').service := by
      intro b'
      by_cases hb : b' = b
      · subst hb
        rw [Function.update_self, Function.update_self]
      · rw [Function.update_of_ne hb, Function.update_of_ne hb, h.services]
    have hwaiting : ∀ b' k' i', (Function.update s.calls b { s.calls b with
        service := x
        progress := Function.update (s.calls b).progress k (some (.served o)) } b').progress k' =
          some (.waiting i') → code.outside b' i' ∨ ∃ t, s.awaits t = some (b', k') := by
      intro b' k' i' hw
      by_cases hk : (b', k') = (b, k)
      · cases hk
        simp at hw
      · rw [progress_update (k := k) rfl hk] at hw
        exact h.waiting b' k' i' hw
    by_cases hclient : ∃ t, s.awaits t = some (b, k)
    · obtain ⟨t, ht⟩ := hclient
      obtain ⟨hnext, hstand⟩ : code.next t (s.prog t) = some (b, i) ∧ a.prog t = s.prog t := by
        rcases (h.standing t).of_awaits ht with ⟨i', hnext, hp, heq⟩ | ⟨o', hp, -⟩
        · rw [hwait] at hp
          cases hp
          exact ⟨hnext, heq⟩
        · rw [hwait] at hp
          cases hp
      refine ⟨[.call t o], { a with
        services := Function.update a.services b x
        prog := Function.update a.prog t (code.resume (a.prog t) o) }, .single (.call ?_ hx'), ?_⟩
      · rw [hstand]
        exact hnext
      · refine ⟨hservices, h.shared, ?_, hwaiting, h.distinct⟩
        intro u
        by_cases hu : u = t
        · subst hu
          dsimp only
          rw [Function.update_self, hstand]
          exact .served ht (by simp)
        · dsimp only
          rw [Function.update_of_ne hu]
          refine (h.standing u).congr rfl rfl ?_
          intro b' k' hu'
          refine progress_update (k := k) rfl ?_
          intro heq
          exact hu (h.distinct u t b k (heq ▸ hu') ht)
    · have hout := (h.waiting b k i hwait).resolve_right hclient
      refine ⟨[.outside b o], { a with services := Function.update a.services b x },
        .single (.outside hout hx'), ?_⟩
      refine ⟨hservices, h.shared, ?_, hwaiting, h.distinct⟩
      intro u
      refine (h.standing u).congr rfl rfl ?_
      intro b' k' hu'
      refine progress_update (k := k) rfl ?_
      intro heq
      exact hclient ⟨u, heq ▸ hu'⟩

/-- Events of one service that no client waits for. -/
theorem trace_others {b : β} {es : List (CallEvent κ ι ο ε)} {c : AtomicCalls κ ι ο (σ b)}
    (h : Trace (AtomicCalls.Step (serves b)) (s.calls b) es c) (hfree : ∀ e ∈ es, s.Free code b e) :
    Trace (Step code serves) s (es.map (.other (ℓ := ℓ) b)) { s with calls := Function.update s.calls b c } := by
  induction h with
  | nil =>
    have heq : { s with calls := Function.update s.calls b (s.calls b) } = s := by
      rw [Function.update_eq_self]
    rw [heq]
    exact .nil
  | @snoc es c c' e _ hs ih =>
    have hrun := ih (fun e' he' => hfree e' (List.mem_append_left _ he'))
    have hlast : s.Free code b e := hfree e (by simp)
    rw [List.map_append]
    have hstep : Step code serves { s with calls := Function.update s.calls b c } (.other b e)
        { s with calls := Function.update (Function.update s.calls b c) b c' } := by
      refine .other ?_ ?_
      · exact hlast
      · dsimp only
        rwa [Function.update_self]
    rw [Function.update_idem] at hstep
    exact hrun.snoc hstep

/-- **Every step of the clients and their calls is one of the clients with calls in one step, or none.** -/
theorem Simulates.step {s' : Clients τ κ ι ο P γ σ} {l : ClientLabel τ β κ ι ο ε ℓ}
    (h : Simulates code s a) (hs : Step code serves s l s') :
    ∃ ls a', Trace (AtomicClients.Step code serves) a ls a' ∧ Simulates code s' a' := by
  cases hs with
  | own hfree hown => exact h.own hfree hown
  | issue hfree hnext hc => exact ⟨[], a, .nil, h.issue hfree hnext hc⟩
  | answer ht hc => exact ⟨[], a, .nil, h.answer ht hc⟩
  | @other b e c hfree hc =>
    cases e with
    | issue k i => exact ⟨[], a, .nil, h.issueOutside hfree hc⟩
    | serve k o => exact h.serve hc
    | answer k o =>
      cases hc with
      | answer => exact ⟨[], a, .nil, h.unseen rfl rfl⟩
    | fail k e =>
      cases hc with
      | fail => exact ⟨[], a, .nil, h.unseen rfl rfl⟩

/-- **Sequential clients cannot tell when their calls are served.**  Every run of them, from a state that
stands for `a₀`, stands for a run in which each call is issued, served and answered at once. -/
theorem simulates {s₀ : Clients τ κ ι ο P γ σ} {a₀ : AtomicClients τ P γ σ}
    {t : List (ClientLabel τ β κ ι ο ε ℓ)} (h₀ : Simulates code s₀ a₀)
    (h : Trace (Step code serves) s₀ t s) :
    ∃ ls a, Trace (AtomicClients.Step code serves) a₀ ls a ∧ Simulates code s a :=
  Trace.simulated (fun _ _ _ _ hR hs => hR.step hs) h₀ h

end Steps

end Clients
