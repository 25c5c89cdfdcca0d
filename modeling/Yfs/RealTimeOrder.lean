/-
# The serial order of a two-phase run respects real time

`TwoPhase.serialisable` rearranges a run of two-phase programs into a serial one.  Here the serial
order is that of the first releases (`Committed`): the thread that gives back its first lock has done
all its calls, and whoever commits later has a step after it.  So a thread that has ended before
another one starts also comes before it in the serial run (`strictly_serialisable`).
-/
import Yfs.TwoPhase

namespace TwoPhase

variable {τ ι κ ρ α ε σ : Type}

/-- Some step of `t` comes before some step of `u`. -/
def Meets (ls : List (Act τ ι ε)) (t u : τ) : Prop :=
  ∃ x y, [x, y].Sublist ls ∧ x.thread = t ∧ y.thread = u

/-- Both threads make steps, and all those of `t` come before all those of `u`. -/
structure Precedes (ls : List (Act τ ι ε)) (t u : τ) : Prop where
  left : ∃ l ∈ ls, l.thread = t
  right : ∃ l ∈ ls, l.thread = u
  apart : ¬ Meets ls u t

theorem Meets.snoc {ls : List (Act τ ι ε)} {t u : τ} (h : Meets ls t u) (l : Act τ ι ε) :
    Meets (ls ++ [l]) t u := by
  obtain ⟨x, y, hxy, hx, hy⟩ := h
  exact ⟨x, y, hxy.trans (List.sublist_append_left ls [l]), hx, hy⟩

/-- A new step comes after every step that has been made. -/
theorem meets_snoc {ls : List (Act τ ι ε)} {t : τ} {l : Act τ ι ε} (h : ∃ x ∈ ls, x.thread = t) :
    Meets (ls ++ [l]) t l.thread := by
  obtain ⟨x, hx, hxt⟩ := h
  have hsub : ([x] ++ [l]).Sublist (ls ++ [l]) :=
    (List.singleton_sublist.2 hx).append (List.Sublist.refl [l])
  exact ⟨x, l, hsub, hxt, rfl⟩

/-- Two steps of a longer run: both were there before, or the second one is the new one. -/
theorem Meets.of_snoc {ls : List (Act τ ι ε)} {t u : τ} {l : Act τ ι ε}
    (h : Meets (ls ++ [l]) t u) :
    Meets ls t u ∨ ((∃ x ∈ ls, x.thread = t) ∧ l.thread = u) := by
  obtain ⟨x, y, hxy, hx, hy⟩ := h
  obtain ⟨a, b, hab, ha, hb⟩ := List.sublist_append_iff.1 hxy
  cases b with
  | nil =>
    rw [List.append_nil] at hab
    exact .inl ⟨x, y, hab ▸ ha, hx, hy⟩
  | cons z b =>
    have hlen := hb.length_le
    simp only [List.length_cons, List.length_nil] at hlen
    obtain rfl : b = [] := List.eq_nil_of_length_eq_zero (by omega)
    obtain rfl : z = l := List.mem_singleton.1 (List.singleton_sublist.1 hb)
    obtain ⟨rfl, hyz⟩ := List.append_inj' (show [x] ++ [y] = a ++ [z] from hab) rfl
    obtain rfl : y = z := by simpa using hyz
    exact .inr ⟨⟨x, List.singleton_sublist.1 ha, hx⟩, hy⟩

variable [DecidableEq τ] [DecidableEq ι] {target : κ → ι} {sem : ε → κ → σ → ρ × σ}

/-- The arrangement with the threads of `C` in the order in which they joined it. -/
structure Committed (target : κ → ι) (sem : ε → κ → σ → ρ × σ) (s₀ : Sys τ ι κ ρ α σ)
    (ls : List (Act τ ι ε)) (s : Sys τ ι κ ρ α σ) (held : τ → Finset ι) (C U : List τ) : Prop where
  arranged : Arranged target sem s₀ ls s held C U
  active : ∀ t ∈ C, ∃ l ∈ ls, l.thread = t
  order : C.Pairwise (Meets ls)

/-- **Every step keeps the order of the commits.** -/
theorem Committed.step (hc : Commutes target sem) {s₀ s s' : Sys τ ι κ ρ α σ}
    {ls : List (Act τ ι ε)} {l : Act τ ι ε} {held : τ → Finset ι} {C U : List τ}
    (h : Committed target sem s₀ ls s held C U) (hs : Step target sem s l s') :
    ∃ held' C' U', Committed target sem s₀ (ls ++ [l]) s' held' C' U' := by
  obtain ⟨held', C', U', harr, hC⟩ := h.arranged.step_joins hc hs
  have hactive : ∀ t ∈ C, ∃ x ∈ ls ++ [l], x.thread = t := by
    intro t ht
    obtain ⟨x, hx, hxt⟩ := h.active t ht
    exact ⟨x, List.mem_append_left _ hx, hxt⟩
  have horder : C.Pairwise (Meets (ls ++ [l])) := h.order.imp (fun hm => hm.snoc l)
  refine ⟨held', C', U', harr, ?_, ?_⟩
  · rcases hC with rfl | rfl
    · exact hactive
    · intro t ht
      rcases List.mem_append.1 ht with ht | ht
      · exact hactive t ht
      · exact ⟨l, by simp, (List.mem_singleton.1 ht).symm⟩
  · rcases hC with rfl | rfl
    · exact horder
    · -- the thread that joins makes its step after those of the threads that are there
      refine List.pairwise_append.2 ⟨horder, List.pairwise_singleton _ _, ?_⟩
      intro t ht u hu
      obtain rfl := List.mem_singleton.1 hu
      exact meets_snoc (h.active t ht)

/-- In a list without repetitions in which `t` before `u` has been excluded, `u` comes first. -/
theorem idxOf_lt_of_pairwise {order : List τ} {R : τ → τ → Prop} (hp : order.Pairwise R) {t u : τ}
    (ht : t ∈ order) (hu : u ∈ order) (htu : t ≠ u) (hnot : ¬ R u t) :
    order.idxOf t < order.idxOf u := by
  by_contra hle
  have hne : order.idxOf t ≠ order.idxOf u := fun he => htu ((List.idxOf_inj ht).1 he)
  have hlt : order.idxOf u < order.idxOf t := by omega
  have htlen := List.idxOf_lt_length_of_mem ht
  have hR := List.pairwise_iff_getElem.1 hp _ _ (List.idxOf_lt_length_of_mem hu) htlen hlt
  rw [List.getElem_idxOf, List.getElem_idxOf] at hR
  exact hnot hR

/-- **Two-phase programs are strictly serialisable.**  When all locks are free and all programs are
two-phase, every run in which all threads end has the results and the final store of a serial run,
in which a thread that has ended before another one starts comes before it. -/
theorem strictly_serialisable [Fintype τ] (hc : Commutes target sem) {s₀ s : Sys τ ι κ ρ α σ}
    {ls : List (Act τ ι ε)} {res : τ → α} (hfree : ∀ i, s₀.world.locked i = false)
    (hg : ∀ t, Growing target ∅ (s₀.prog t)) (h : Trace (Step target sem) s₀ ls s)
    (hres : ∀ t, s.prog t = .ret (res t)) :
    ∃ order : List τ, order.Nodup ∧ (∀ t, t ∈ order) ∧
      Serial sem s₀.prog res s₀.world.store order s.world.store ∧
      ∀ t u, t ≠ u → Precedes ls t u → order.idxOf t < order.idxOf u := by
  have hcom : ∃ held C U, Committed target sem s₀ ls s held C U := by
    refine Trace.history (I := fun ls s => ∃ held C U, Committed target sem s₀ ls s held C U) ?_ ?_ h
    · exact ⟨_, _, _, .start hfree hg, by simp, .nil⟩
    · rintro ls s l s' ⟨held, C, U, h⟩ hs
      exact h.step hc hs
  obtain ⟨held, C, U, h⟩ := hcom
  have harr := h.arranged
  -- a thread of `U` that has ended holds no lock, so it has made no step
  have hidle : ∀ u ∈ U, ¬ ∃ l ∈ ls, l.thread = u := by
    rintro u hu ⟨l, hl, rfl⟩
    have hempty : Growing target (held l.thread) (.ret (res l.thread)) :=
      hres l.thread ▸ harr.growing l.thread hu
    have hmem := harr.kept l hl hu
    rw [show held l.thread = ∅ from hempty] at hmem
    exact absurd hmem (Finset.notMem_empty _)
  have horder : (C ++ U).Pairwise (fun t u => (∃ l ∈ ls, l.thread = t) → (∃ l ∈ ls, l.thread = u) →
      Meets ls t u) := by
    refine List.pairwise_append.2 ⟨h.order.imp (fun hm _ _ => hm), ?_, ?_⟩
    · exact List.pairwise_of_forall_mem_list (fun t ht u _ hst _ => absurd hst (hidle t ht))
    · intro t _ u hu _ hsu
      exact absurd hsu (hidle u hu)
  refine ⟨C ++ U, harr.nodup, harr.all, serial_of_trace harr.nodup harr.trace hfree
    (fun _ _ => rfl) (fun t _ => hg t) (fun t _ => hres t), ?_⟩
  intro t u htu hprec
  apply idxOf_lt_of_pairwise horder (harr.all t) (harr.all u) htu
  intro hm
  exact hprec.apart (hm hprec.right hprec.left)

end TwoPhase
