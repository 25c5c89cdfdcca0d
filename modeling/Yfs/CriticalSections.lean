/-
# Critical sections behind calls

A lock service whose calls are those of `Yfs.AtomicCalls`: they are served at once, but the caller
learns of it later, or never.  A client is inside the critical section of a lock from the answer to its
`acquire` until it issues a `release`.

The owner of a lock is the call that accounts for it being taken (`Owns`): an `acquire` that has been
served and not answered, the `acquire` of a client inside, or a `release` that has not been served.
`owners_of_trace`: as long as only clients inside release, a lock is taken exactly when it has an owner,
and it has one owner at most.
-/
import Yfs.AtomicCalls

/-- What a call asks of a lock service. -/
inductive LockRequest (L : Type*)
  | acquire (l : L)
  | release (l : L)
  | neither
  deriving DecidableEq, Repr

namespace AtomicCalls

variable {κ ι ο ε σ γ L : Type*}

/-! ## The history and the state -/

section Recorded

variable {serves : σ → ι → ο → σ → Prop} {h : List (CallEvent κ ι ο ε)} {s s' : AtomicCalls κ ι ο σ}

/-- What the state says of a call is what the history says. -/
structure Recorded (h : List (CallEvent κ ι ο ε)) (s : AtomicCalls κ ι ο σ) : Prop where
  fresh : ∀ k i, s.progress k = none → .issue k i ∉ h
  input : ∀ k i i', .issue k i ∈ h → .issue k i' ∈ h → i = i'
  waiting : ∀ k i, s.progress k = some (.waiting i) → .issue k i ∈ h
  answered : ∀ k o, .answer k o ∈ h → s.progress k = some (.served o) ∧ k ∉ s.unanswered

theorem recorded_start (x : σ) : Recorded ([] : List (CallEvent κ ι ο ε)) (start x) where
  fresh := by simp
  input := by simp
  waiting := by simp [start]
  answered := by simp

theorem Recorded.step [DecidableEq κ] {e : CallEvent κ ι ο ε} (hi : Recorded h s) (hs : Step serves s e s') :
    Recorded (h ++ [e]) s' := by
  cases hs with
  | @issue k i hnew =>
    have hold : ∀ k' i', .issue k' i' ∈ h → k' ≠ k := by
      rintro k' i' hm rfl
      exact hi.fresh k' i' hnew hm
    refine ⟨?_, ?_, ?_, ?_⟩
    · intro k' i' hp
      by_cases hk : k' = k
      · simp [hk] at hp
      · simpa [hk] using hi.fresh k' i' (by simpa [hk] using hp)
    · intro k' i₁ i₂ h₁ h₂
      by_cases hk : k' = k
      · subst hk
        have honly : ∀ i', .issue k' i' ∈ h ++ [.issue k' i] → i' = i := by
          intro i' hm
          rcases List.mem_append.1 hm with hm | hm
          · exact absurd rfl (hold _ _ hm)
          · simpa using hm
        rw [honly i₁ h₁, honly i₂ h₂]
      · exact hi.input k' i₁ i₂ (by simpa [hk] using h₁) (by simpa [hk] using h₂)
    · intro k' i' hp
      by_cases hk : k' = k
      · subst hk
        obtain rfl : i = i' := by simpa using hp
        simp
      · exact List.mem_append_left _ (hi.waiting k' i' (by simpa [hk] using hp))
    · intro k' o hm
      obtain ⟨hp, hun⟩ := hi.answered k' o (by simpa using hm)
      have hk : k' ≠ k := by
        rintro rfl
        rw [hnew] at hp
        cases hp
      exact ⟨by simpa [hk] using hp, by simp [hk, hun]⟩
  | @serve k i o x hwait hserves =>
    refine ⟨?_, ?_, ?_, ?_⟩
    · intro k' i' hp
      by_cases hk : k' = k
      · simp [hk] at hp
      · simpa using hi.fresh k' i' (by simpa [hk] using hp)
    · intro k' i₁ i₂ h₁ h₂
      exact hi.input k' i₁ i₂ (by simpa using h₁) (by simpa using h₂)
    · intro k' i' hp
      by_cases hk : k' = k
      · simp [hk] at hp
      · exact List.mem_append_left _ (hi.waiting k' i' (by simpa [hk] using hp))
    · intro k' o' hm
      obtain ⟨hp, hun⟩ := hi.answered k' o' (by simpa using hm)
      have hk : k' ≠ k := by
        rintro rfl
        rw [hwait] at hp
        cases hp
      exact ⟨by simpa [hk] using hp, hun⟩
  | @answer k o hk hserved =>
    refine ⟨?_, ?_, ?_, ?_⟩
    · intro k' i' hp
      simpa using hi.fresh k' i' hp
    · intro k' i₁ i₂ h₁ h₂
      exact hi.input k' i₁ i₂ (by simpa using h₁) (by simpa using h₂)
    · intro k' i' hp
      exact List.mem_append_left _ (hi.waiting k' i' hp)
    · intro k' o' hm
      rcases List.mem_append.1 hm with hm | hm
      · exact ⟨(hi.answered k' o' hm).1, fun hmem => (hi.answered k' o' hm).2 hmem.1⟩
      · obtain ⟨rfl, rfl⟩ : k' = k ∧ o' = o := by simpa using hm
        exact ⟨hserved, fun hmem => hmem.2 rfl⟩
  | @fail k f hk =>
    refine ⟨?_, ?_, ?_, ?_⟩
    · intro k' i' hp
      simpa using hi.fresh k' i' hp
    · intro k' i₁ i₂ h₁ h₂
      exact hi.input k' i₁ i₂ (by simpa using h₁) (by simpa using h₂)
    · intro k' i' hp
      exact List.mem_append_left _ (hi.waiting k' i' hp)
    · intro k' o' hm
      obtain ⟨hp, hun⟩ := hi.answered k' o' (by simpa using hm)
      exact ⟨hp, fun hmem => hun hmem.1⟩

end Recorded

/-! ## Critical sections -/

/-- The calls of a lock service: an `acquire` is served when the lock is free, and takes it; a `release`
frees it. -/
structure IsLockService (serves : σ → ι → ο → σ → Prop) (request : ι → LockRequest L)
    (taken : σ → L → Prop) : Prop where
  acquire : ∀ x i o x' l, serves x i o x' → request i = .acquire l →
    ¬ taken x l ∧ ∀ l', taken x' l' ↔ taken x l' ∨ l' = l
  release : ∀ x i o x' l, serves x i o x' → request i = .release l →
    ∀ l', taken x' l' ↔ taken x l' ∧ l' ≠ l
  neither : ∀ x i o x', serves x i o x' → request i = .neither → ∀ l', taken x' l' ↔ taken x l'

variable (request : ι → LockRequest L) (client : κ → γ)

/-- The call `k` has acquired the lock, and its client has issued no `release` since. -/
def Inside (h : List (CallEvent κ ι ο ε)) (k : κ) (l : L) : Prop :=
  ∃ before o after, h = before ++ .answer k o :: after ∧
    (∃ i, .issue k i ∈ before ∧ request i = .acquire l) ∧
    ∀ k' i, client k' = client k → request i = .release l → .issue k' i ∉ after

/-- Only clients inside release. -/
def Disciplined (h : List (CallEvent κ ι ο ε)) : Prop :=
  ∀ before after k i l, h = before ++ .issue k i :: after → request i = .release l →
    ∃ k', client k' = client k ∧ Inside request client before k' l

/-- The call `k` accounts for the lock. -/
inductive Owns (h : List (CallEvent κ ι ο ε)) (s : AtomicCalls κ ι ο σ) (k : κ) (l : L) : Prop
  | granted {i : ι} {o : ο} (hi : .issue k i ∈ h) (hr : request i = .acquire l)
      (hp : s.progress k = some (.served o)) (hn : ∀ o', .answer k o' ∉ h) : Owns h s k l
  | inside (hin : Inside request client h k l) : Owns h s k l
  | returning {i : ι} (hp : s.progress k = some (.waiting i)) (hr : request i = .release l) :
      Owns h s k l

variable {request client} {h : List (CallEvent κ ι ο ε)} {k : κ} {l : L}

theorem Inside.answered (hin : Inside request client h k l) : ∃ o, .answer k o ∈ h := by
  obtain ⟨before, o, after, rfl, -⟩ := hin
  exact ⟨o, by simp⟩

/-- One more event: an answer to an `acquire` leads inside, a `release` of the client leads out. -/
theorem inside_snoc {e : CallEvent κ ι ο ε} : Inside request client (h ++ [e]) k l ↔
    (∃ o i, e = .answer k o ∧ .issue k i ∈ h ∧ request i = .acquire l) ∨
    (Inside request client h k l ∧
      ∀ k' i, client k' = client k → request i = .release l → e ≠ .issue k' i) := by
  constructor
  · rintro ⟨before, o, after, heq, hacq, hrel⟩
    rcases List.eq_nil_or_concat after with rfl | ⟨after, e', rfl⟩
    · obtain ⟨rfl, he⟩ := List.append_inj' heq rfl
      obtain ⟨i, hi, hr⟩ := hacq
      exact .inl ⟨o, i, by simpa using he, hi, hr⟩
    · have heq' : h ++ [e] = (before ++ .answer k o :: after) ++ [e'] := by simpa using heq
      obtain ⟨rfl, he⟩ := List.append_inj' heq' rfl
      obtain rfl : e = e' := by simpa using he
      refine .inr ⟨⟨before, o, after, rfl, hacq, ?_⟩, ?_⟩
      · intro k' i hk hr hm
        exact hrel k' i hk hr (by simp [hm])
      · rintro k' i hk hr rfl
        exact hrel k' i hk hr (by simp)
  · rintro (⟨o, i, rfl, hi, hr⟩ | ⟨⟨before, o, after, rfl, hacq, hrel⟩, he⟩)
    · exact ⟨h, o, [], rfl, ⟨i, hi, hr⟩, by simp⟩
    · refine ⟨before, o, after ++ [e], by simp, hacq, ?_⟩
      intro k' i hk hr hm
      rcases List.mem_append.1 hm with hm | hm
      · exact hrel k' i hk hr hm
      · exact he k' i hk hr (List.mem_singleton.1 hm).symm

theorem Disciplined.of_snoc {e : CallEvent κ ι ο ε} (hd : Disciplined request client (h ++ [e])) :
    Disciplined request client h := by
  rintro before after k i l rfl hr
  exact hd before (after ++ [e]) k i l (by simp) hr

theorem Disciplined.last {i : ι} (hd : Disciplined request client (h ++ [.issue k i]))
    (hr : request i = .release l) : ∃ k', client k' = client k ∧ Inside request client h k' l :=
  hd h [] k i l rfl hr

/-! ## Owners -/

variable {s : AtomicCalls κ ι ο σ} {k' : κ}

/-- A client inside has its answer. -/
theorem Inside.served (hin : Inside request client h k l) (hrec : Recorded h s) :
    ∃ o, s.progress k = some (.served o) := by
  obtain ⟨o, ho⟩ := hin.answered
  exact ⟨o, (hrec.answered k o ho).1⟩

/-- A call that has not been issued accounts for nothing. -/
theorem Recorded.not_owns (hrec : Recorded h s) (hnew : s.progress k = none) :
    ¬ Owns request client h s k l := by
  rintro (⟨-, -, hp, -⟩ | hin | ⟨hp, -⟩)
  · rw [hnew] at hp
    cases hp
  · obtain ⟨o, hp⟩ := hin.served hrec
    rw [hnew] at hp
    cases hp
  · rw [hnew] at hp
    cases hp

/-- A call that waits accounts for the lock it gives back. -/
theorem Recorded.request_of_owns (hrec : Recorded h s) {i : ι}
    (hwait : s.progress k = some (.waiting i)) (howns : Owns request client h s k l) :
    request i = .release l := by
  rcases howns with ⟨-, -, hp, -⟩ | hin | ⟨hp, hr⟩
  · rw [hwait] at hp
    cases hp
  · obtain ⟨o, hp⟩ := hin.served hrec
    rw [hwait] at hp
    cases hp
  · rw [hwait] at hp
    cases hp
    exact hr

section Steps

variable [DecidableEq κ]

theorem owns_issue (hrec : Recorded h s) {i : ι} (hnew : s.progress k = none) :
    Owns request client (h ++ [.issue k i])
      { s with
        progress := Function.update s.progress k (some (.waiting i))
        unanswered := insert k s.unanswered } k' l ↔
    (k' = k ∧ request i = .release l) ∨ (Owns request client h s k' l ∧
      ¬ (client k' = client k ∧ request i = .release l ∧ Inside request client h k' l)) := by
  constructor
  · rintro (⟨hi, hr, hp, hn⟩ | hin | ⟨hp, hr⟩)
    · by_cases hk : k' = k
      · simp [hk] at hp
      · have howns : Owns request client h s k' l :=
          .granted (by simpa [hk] using hi) hr (by simpa [hk] using hp) (by simpa using hn)
        refine .inr ⟨howns, ?_⟩
        rintro ⟨-, -, hin⟩
        obtain ⟨o, ho⟩ := hin.answered
        exact hn o (List.mem_append_left _ ho)
    · rcases inside_snoc.1 hin with ⟨o, i', he, -⟩ | ⟨hin, hout⟩
      · cases he
      · refine .inr ⟨.inside hin, ?_⟩
        rintro ⟨hc, hr, -⟩
        exact hout k i hc.symm hr rfl
    · by_cases hk : k' = k
      · subst hk
        dsimp only at hp
        rw [Function.update_self] at hp
        cases hp
        exact .inl ⟨rfl, hr⟩
      · dsimp only at hp
        rw [Function.update_of_ne hk] at hp
        refine .inr ⟨.returning hp hr, ?_⟩
        rintro ⟨-, -, hin⟩
        obtain ⟨o, ho⟩ := hin.served hrec
        rw [hp] at ho
        cases ho
  · rintro (⟨rfl, hr⟩ | ⟨howns, hout⟩)
    · exact .returning (Function.update_self ..) hr
    · have hk : k' ≠ k := by
        rintro rfl
        exact hrec.not_owns hnew howns
      have hp : ∀ p, s.progress k' = some p →
          Function.update s.progress k (some (.waiting i)) k' = some p := by
        intro p hp
        rwa [Function.update_of_ne hk]
      cases howns with
      | granted hi hr hserved hn =>
        exact .granted (List.mem_append_left _ hi) hr (hp _ hserved) (by simpa using hn)
      | inside hin =>
        refine .inside (inside_snoc.2 (.inr ⟨hin, ?_⟩))
        rintro k₁ i₁ hc hr heq
        obtain ⟨rfl, rfl⟩ := CallEvent.issue.inj heq
        exact hout ⟨hc.symm, hr, hin⟩
      | returning hwait hr => exact .returning (hp _ hwait) hr

theorem owns_serve (hrec : Recorded h s) {i : ι} {o : ο} {x : σ}
    (hwait : s.progress k = some (.waiting i)) :
    Owns request client (h ++ [.serve k o])
      { s with
        service := x
        progress := Function.update s.progress k (some (.served o)) } k' l ↔
    (k' = k ∧ request i = .acquire l) ∨ (k' ≠ k ∧ Owns request client h s k' l) := by
  have hissued := hrec.waiting k i hwait
  have hnot : ∀ o', .answer k o' ∉ h := by
    intro o' hm
    rw [(hrec.answered k o' hm).1] at hwait
    cases hwait
  constructor
  · rintro (⟨hi, hr, hp, hn⟩ | hin | ⟨hp, hr⟩)
    · by_cases hk : k' = k
      · subst hk
        have heq := hrec.input k' _ i (by simpa using hi) hissued
        exact .inl ⟨rfl, heq ▸ hr⟩
      · exact .inr ⟨hk, .granted (by simpa using hi) hr (by simpa [hk] using hp) (by simpa using hn)⟩
    · rcases inside_snoc.1 hin with ⟨o', i', he, -⟩ | ⟨hin', -⟩
      · cases he
      · refine .inr ⟨?_, .inside hin'⟩
        rintro rfl
        obtain ⟨o', ho'⟩ := hin'.answered
        exact hnot o' ho'
    · by_cases hk : k' = k
      · simp [hk] at hp
      · exact .inr ⟨hk, .returning (by simpa [hk] using hp) hr⟩
  · rintro (⟨rfl, hr⟩ | ⟨hk, howns⟩)
    · exact .granted (List.mem_append_left _ hissued) hr (Function.update_self ..) (by simpa using hnot)
    · have hp : ∀ p, s.progress k' = some p →
          Function.update s.progress k (some (.served o)) k' = some p := by
        intro p hp
        rwa [Function.update_of_ne hk]
      cases howns with
      | granted hi hr hserved hn =>
        exact .granted (List.mem_append_left _ hi) hr (hp _ hserved) (by simpa using hn)
      | inside hin => exact .inside (inside_snoc.2 (.inr ⟨hin, by simp⟩))
      | returning hw hr => exact .returning (hp _ hw) hr

omit [DecidableEq κ] in
theorem owns_answer (hrec : Recorded h s) {o : ο} (hk : k ∈ s.unanswered)
    (hserved : s.progress k = some (.served o)) :
    Owns request client (h ++ [.answer k o]) { s with unanswered := s.unanswered \ {k} } k' l ↔
      Owns request client h s k' l := by
  constructor
  · rintro (⟨hi, hr, hp, hn⟩ | hin | ⟨hp, hr⟩)
    · exact .granted (by simpa using hi) hr hp (fun o' hm => hn o' (List.mem_append_left _ hm))
    · rcases inside_snoc.1 hin with ⟨o', i, he, hi, hr⟩ | ⟨hin, -⟩
      · -- the answer to an `acquire` that was owned when it had been served
        obtain ⟨rfl, rfl⟩ := CallEvent.answer.inj he
        exact .granted hi hr hserved (fun o' hm => (hrec.answered k o' hm).2 hk)
      · exact .inside hin
    · exact .returning hp hr
  · rintro (⟨hi, hr, hp, hn⟩ | hin | ⟨hp, hr⟩)
    · by_cases hkk : k' = k
      · subst hkk
        exact .inside (inside_snoc.2 (.inl ⟨o, _, rfl, hi, hr⟩))
      · refine .granted (List.mem_append_left _ hi) hr hp ?_
        intro o' hm
        rcases List.mem_append.1 hm with hm | hm
        · exact hn o' hm
        · exact hkk (CallEvent.answer.inj (List.mem_singleton.1 hm)).1
    · exact .inside (inside_snoc.2 (.inr ⟨hin, by simp⟩))
    · exact .returning hp hr

omit [DecidableEq κ] in
theorem owns_fail {f : ε} :
    Owns request client (h ++ [.fail k f]) { s with unanswered := s.unanswered \ {k} } k' l ↔
      Owns request client h s k' l := by
  constructor
  · rintro (⟨hi, hr, hp, hn⟩ | hin | ⟨hp, hr⟩)
    · exact .granted (by simpa using hi) hr hp (by simpa using hn)
    · rcases inside_snoc.1 hin with ⟨o', i, he, -⟩ | ⟨hin, -⟩
      · cases he
      · exact .inside hin
    · exact .returning hp hr
  · rintro (⟨hi, hr, hp, hn⟩ | hin | ⟨hp, hr⟩)
    · exact .granted (List.mem_append_left _ hi) hr hp (by simpa using hn)
    · exact .inside (inside_snoc.2 (.inr ⟨hin, by simp⟩))
    · exact .returning hp hr

end Steps

/-- `owner` names the owner of each lock, and the locks that have one are taken. -/
structure Owned (request : ι → LockRequest L) (client : κ → γ) (taken : σ → L → Prop)
    (h : List (CallEvent κ ι ο ε)) (s : AtomicCalls κ ι ο σ) (owner : L → Option κ) : Prop where
  recorded : Recorded h s
  owns : ∀ k l, Owns request client h s k l ↔ owner l = some k
  taken : ∀ l, taken s.service l ↔ owner l ≠ none

variable {taken : σ → L → Prop} {serves : σ → ι → ο → σ → Prop}

theorem owned_start {x : σ} (hx : ∀ l, ¬ taken x l) :
    Owned request client taken ([] : List (CallEvent κ ι ο ε)) (start x) (fun _ => none) where
  recorded := recorded_start x
  owns k l := by
    constructor
    · intro h
      exact absurd h ((recorded_start x).not_owns rfl)
    · intro h
      cases h
  taken l := by simp [start, hx]

/-- **Every event hands the locks from owner to owner.** -/
theorem Owned.step [DecidableEq κ] [DecidableEq L] (hserves : IsLockService serves request taken)
    {owner : L → Option κ} {e : CallEvent κ ι ο ε} {s' : AtomicCalls κ ι ο σ}
    (hi : Owned request client taken h s owner) (hd : Disciplined request client (h ++ [e]))
    (hs : Step serves s e s') : ∃ owner', Owned request client taken (h ++ [e]) s' owner' := by
  have hrec := hi.recorded.step hs
  cases hs with
  | @issue k i hnew =>
    cases hr : request i with
    | release l =>
      -- the call takes over from the `acquire` of its client
      obtain ⟨k₀, hc, hin⟩ := hd.last hr
      have hown := (hi.owns k₀ l).1 (.inside hin)
      refine ⟨Function.update owner l (some k), hrec, ?_, ?_⟩
      · intro k' l'
        rw [owns_issue hi.recorded hnew, hi.owns, hr]
        by_cases hl : l' = l
        · subst hl
          rw [Function.update_self, hown]
          constructor
          · rintro (⟨rfl, -⟩ | ⟨hk, hout⟩)
            · rfl
            · obtain rfl := Option.some.inj hk
              exact absurd ⟨hc, rfl, hin⟩ hout
          · intro hk
            exact .inl ⟨(Option.some.inj hk).symm, rfl⟩
        · have hne : LockRequest.release l ≠ .release l' := fun heq => hl (LockRequest.release.inj heq).symm
          simp [Function.update_of_ne hl, hne]
      · intro l'
        rw [hi.taken]
        by_cases hl : l' = l
        · subst hl
          simp [hown]
        · rw [Function.update_of_ne hl]
    | acquire l | neither =>
      refine ⟨owner, hrec, ?_, hi.taken⟩
      intro k' l'
      rw [owns_issue hi.recorded hnew, hi.owns, hr]
      simp
  | @serve k i o x hwait hx =>
    cases hr : request i with
    | acquire l =>
      obtain ⟨hfree, htaken⟩ := hserves.acquire _ _ _ _ _ hx hr
      have hnone : owner l = none := by
        by_contra hne
        exact hfree ((hi.taken l).2 hne)
      refine ⟨Function.update owner l (some k), hrec, ?_, ?_⟩
      · intro k' l'
        rw [owns_serve hi.recorded hwait, hi.owns, hr]
        by_cases hl : l' = l
        · subst hl
          simp [hnone, eq_comm]
        · have hne : LockRequest.acquire l ≠ .acquire l' := fun heq => hl (LockRequest.acquire.inj heq).symm
          simp only [hne, and_false, false_or, Function.update_of_ne hl, and_iff_right_iff_imp]
          -- `k` waits for `l`, and owns no other lock
          rintro hown rfl
          have hr' := hi.recorded.request_of_owns hwait ((hi.owns k' l').2 hown)
          rw [hr] at hr'
          cases hr'
      · intro l'
        rw [htaken, hi.taken]
        by_cases hl : l' = l
        · subst hl
          simp
        · simp [hl]
    | release l =>
      have hown := (hi.owns k l).1 (.returning hwait hr)
      refine ⟨Function.update owner l none, hrec, ?_, ?_⟩
      · intro k' l'
        rw [owns_serve hi.recorded hwait, hi.owns, hr]
        by_cases hl : l' = l
        · subst hl
          simp [hown, eq_comm]
        · simp only [reduceCtorEq, and_false, false_or, Function.update_of_ne hl, and_iff_right_iff_imp]
          rintro hown' rfl
          have hr' := hi.recorded.request_of_owns hwait ((hi.owns k' l').2 hown')
          rw [hr] at hr'
          exact hl (LockRequest.release.inj hr').symm
      · intro l'
        rw [hserves.release _ _ _ _ _ hx hr, hi.taken]
        by_cases hl : l' = l
        · subst hl
          simp
        · simp [hl]
    | neither =>
      refine ⟨owner, hrec, ?_, ?_⟩
      · intro k' l'
        rw [owns_serve hi.recorded hwait, hi.owns, hr]
        simp only [reduceCtorEq, and_false, false_or, and_iff_right_iff_imp]
        rintro hown rfl
        have hr' := hi.recorded.request_of_owns hwait ((hi.owns k' l').2 hown)
        rw [hr] at hr'
        cases hr'
      · intro l'
        rw [hserves.neither _ _ _ _ hx hr, hi.taken]
  | answer hk hserved =>
    refine ⟨owner, hrec, fun k' l' => ?_, hi.taken⟩
    rw [owns_answer hi.recorded hk hserved]
    exact hi.owns k' l'
  | fail hk =>
    refine ⟨owner, hrec, fun k' l' => ?_, hi.taken⟩
    rw [owns_fail]
    exact hi.owns k' l'

/-- **A lock has at most one owner, and is taken when it has one**, after every history in which only
clients inside release. -/
theorem owners_of_trace [DecidableEq κ] [DecidableEq L] (hserves : IsLockService serves request taken)
    {x : σ} (hx : ∀ l, ¬ taken x l) {h : List (CallEvent κ ι ο ε)} {s : AtomicCalls κ ι ο σ}
    (hd : Disciplined request client h) (ht : Trace (Step serves) (start x) h s) :
    ∃ owner, Owned request client taken h s owner := by
  induction ht with
  | nil => exact ⟨_, owned_start hx⟩
  | snoc _ hs ih =>
    obtain ⟨owner, hown⟩ := ih hd.of_snoc
    exact hown.step hserves hd hs

/-- So two clients are never inside the same critical section. -/
theorem Owned.inside_unique {owner : L → Option κ} (hi : Owned request client taken h s owner)
    (hk : Inside request client h k l) (hk' : Inside request client h k' l) : k = k' := by
  have h₁ := (hi.owns k l).1 (.inside hk)
  have h₂ := (hi.owns k' l).1 (.inside hk')
  rw [h₁] at h₂
  exact Option.some.inj h₂

end AtomicCalls
