/-
# The acknowledged prefix, exactly (`rpc/rpc.cc`, `rpcc::update_xid_rep`)

`Yfs.Rpcc` shows that a client acknowledges nothing but what it has been told.  Here the other half:
after any sequence of reports, in any order and with any repetitions, the front of `xid_rep_window_` is
the largest number up to which everything has been reported.

* The loop after `compress` pops elements from the front of the list it runs through.
  `updateXidRepIt` is the function with its iterators: it gives no result when `front()` is called on the
  empty list or when the element an iterator points at is popped.
* `Compressed`: the list is sorted, with duplicates, and holds no successor of its front.  Everything
  that has been reported is in the list or not beyond the front (`Covers`).

The number `2 ^ 32 - 1` is not reported: `front() + 1` would wrap around.
-/
import Yfs.Rpcc

namespace Rpcc

/-! ## The loop with its iterators -/

/-- `while (front() + 1 == *it) pop_front();`, where `pre` are the elements before `it` and `*it` is
`y`; `none` when the element at `it` is popped. -/
def popFrontIt (y : ℕ) : List ℕ → Option (List ℕ)
  | [] => if (y + 1) % 2 ^ 32 = y then none else some []
  | f :: fs => if (f + 1) % 2 ^ 32 = y then popFrontIt y fs else some (f :: fs)

/-- The loop after `compress`. -/
def compressIt : List ℕ → List ℕ → Option (List ℕ)
  | pre, [] => some pre
  | pre, y :: ys => do compressIt ((← popFrontIt y pre) ++ [y]) ys

/-- `update_xid_rep`. -/
def updateXidRepIt (xid : ℕ) (window : List ℕ) : Option (List ℕ) := do
  let front ← window.head?
  if xid ≤ front then return window
  match insertXid xid window with
  | [] => none
  | f :: fs => compressIt [f] fs

/-- The element at the iterator is never popped: it is not its own successor. -/
theorem popFrontIt_eq (y : ℕ) (pre : List ℕ) : popFrontIt y pre = some (popFront y pre) := by
  induction pre with
  | nil =>
    rw [popFrontIt, if_neg (by omega)]
    rfl
  | cons f fs ih =>
    rw [popFrontIt, popFront]
    split_ifs
    · exact ih
    · rfl

theorem compressIt_eq (pre l : List ℕ) : compressIt pre l = some (compress pre l) := by
  induction l generalizing pre with
  | nil => rfl
  | cons y ys ih =>
    rw [compressIt, popFrontIt_eq, compress]
    exact ih _

/-- **The iterators stay valid**: on a list that is not empty the function has a result. -/
theorem updateXidRepIt_eq (xid : ℕ) {window : List ℕ} (h : window ≠ []) :
    updateXidRepIt xid window = some (updateXidRep xid window) := by
  obtain ⟨f, fs, rfl⟩ := List.exists_cons_of_ne_nil h
  have hfront : (f :: fs).head? = some f := rfl
  have hdefault : (f :: fs).headD 0 = f := rfl
  rw [updateXidRepIt, updateXidRep, hfront, hdefault, Option.bind_eq_bind, Option.bind_some]
  split_ifs with hle
  · rfl
  · have hne : insertXid xid (f :: fs) ≠ [] := by
      intro hnil
      have hmem : xid ∈ insertXid xid (f :: fs) := mem_insertXid.2 (.inl rfl)
      rw [hnil] at hmem
      cases hmem
    cases hins : insertXid xid (f :: fs) with
    | nil => exact absurd hins hne
    | cons g gs => exact compressIt_eq [g] gs

/-! ## What compression leaves -/

/-- A sorted list of small numbers that does not hold the successor of its front. -/
structure Compressed (w : List ℕ) : Prop where
  nonempty : w ≠ []
  sorted : w.Pairwise (· ≤ ·)
  gap : ∀ y ∈ w, y ≠ w.headD 0 + 1
  small : ∀ y ∈ w, y < 2 ^ 32 - 1

theorem headD_append {pre : List ℕ} (h : pre ≠ []) (l : List ℕ) :
    (pre ++ l).headD 0 = pre.headD 0 := by
  cases pre with
  | nil => exact absurd rfl h
  | cons a pre => rfl

theorem headD_le {w : List ℕ} (h : w.Pairwise (· ≤ ·)) {y : ℕ} (hy : y ∈ w) : w.headD 0 ≤ y := by
  cases w with
  | nil => cases hy
  | cons f fs =>
    rcases List.mem_cons.1 hy with rfl | hy
    · exact le_rfl
    · exact (List.pairwise_cons.1 h).1 y hy

/-- The `while` loop on a row of equal elements. -/
theorem popFront_of_all {f y : ℕ} {pre : List ℕ} (hy : (f + 1) % 2 ^ 32 = y)
    (hpre : ∀ z ∈ pre, z = f) : popFront y pre = [] := by
  induction pre with
  | nil => rfl
  | cons g gs ih =>
    obtain rfl := hpre g (by simp)
    rw [popFront, if_pos hy]
    exact ih (fun z hz => hpre z (by simp [hz]))

/-- **One turn of the loop**: nothing is popped, or everything before the iterator, which then holds the
successor of the front. -/
theorem Compressed.popFront {pre : List ℕ} (h : Compressed pre) {y : ℕ} (hy : ∀ z ∈ pre, z ≤ y) :
    popFront y pre = pre ∧ y ≠ pre.headD 0 + 1 ∨ popFront y pre = [] := by
  obtain ⟨f, fs, rfl⟩ := List.exists_cons_of_ne_nil h.nonempty
  have hf : f < 2 ^ 32 - 1 := h.small f (by simp)
  have hmod : (f + 1) % 2 ^ 32 = f + 1 := by omega
  by_cases hsucc : y = f + 1
  · -- the elements before the iterator lie between `f` and `f + 1`, and none is `f + 1`
    right
    refine popFront_of_all (f := f) (by omega) ?_
    intro z hz
    have hle : f ≤ z := headD_le h.sorted hz
    have hge := hy z hz
    have hgap : z ≠ f + 1 := h.gap z hz
    omega
  · left
    refine ⟨?_, hsucc⟩
    rw [Rpcc.popFront, if_neg (by omega)]

/-- **What compression leaves**: a compressed list, from which only numbers up to the new front are
missing. -/
theorem Compressed.compress {pre l : List ℕ} (h : Compressed pre)
    (hsorted : (pre ++ l).Pairwise (· ≤ ·)) (hsmall : ∀ y ∈ l, y < 2 ^ 32 - 1) :
    Compressed (compress pre l) ∧
      ∀ z, z ≤ pre.headD 0 ∨ z ∈ pre ++ l → z ≤ (compress pre l).headD 0 ∨ z ∈ compress pre l := by
  induction l generalizing pre with
  | nil =>
    rw [Rpcc.compress, List.append_nil]
    exact ⟨h, fun z hz => hz⟩
  | cons y ys ih =>
    rw [Rpcc.compress]
    have hle : ∀ z ∈ pre, z ≤ y := by
      intro z hz
      exact (List.pairwise_append.1 hsorted).2.2 z hz y (by simp)
    have hsplit : pre ++ y :: ys = (pre ++ [y]) ++ ys := by simp
    have hysmall : y < 2 ^ 32 - 1 := hsmall y (by simp)
    rcases h.popFront hle with ⟨hpop, hgap⟩ | hpop
    · rw [hpop]
      have hpre : Compressed (pre ++ [y]) := by
        refine ⟨by simp, ?_, ?_, ?_⟩
        · rw [hsplit] at hsorted
          exact (List.pairwise_append.1 hsorted).1
        · intro z hz
          rw [headD_append h.nonempty]
          rcases List.mem_append.1 hz with hz | hz
          · exact h.gap z hz
          · rwa [List.mem_singleton.1 hz]
        · intro z hz
          rcases List.mem_append.1 hz with hz | hz
          · exact h.small z hz
          · rwa [List.mem_singleton.1 hz]
      obtain ⟨hw, hcover⟩ := ih hpre (by rwa [← hsplit]) (fun z hz => hsmall z (by simp [hz]))
      refine ⟨hw, fun z hz => hcover z ?_⟩
      rwa [headD_append h.nonempty, ← hsplit]
    · rw [hpop, List.nil_append]
      have hpre : Compressed [y] := ⟨by simp, by simp, by simp, by simpa using hysmall⟩
      have hsorted' : ([y] ++ ys).Pairwise (· ≤ ·) := (List.pairwise_append.1 hsorted).2.1
      obtain ⟨hw, hcover⟩ := ih hpre hsorted' (fun z hz => hsmall z (by simp [hz]))
      refine ⟨hw, fun z hz => hcover z ?_⟩
      -- what has been popped is not beyond `y`
      rcases hz with hz | hz
      · left
        obtain ⟨f, fs, rfl⟩ := List.exists_cons_of_ne_nil h.nonempty
        exact hz.trans (hle f (by simp))
      · rcases List.mem_append.1 hz with hz | hz
        · exact .inl (hle z hz)
        · exact .inr hz

/-! ## Sequences of reports -/

/-- Everything in `seen` is in the list or not beyond its front. -/
def Covers (seen : List ℕ) (w : List ℕ) : Prop := ∀ x ∈ seen, x ≤ w.headD 0 ∨ x ∈ w

/-- **One report** keeps the list compressed and covers the new number. -/
theorem Compressed.update {w : List ℕ} (h : Compressed w) {xid : ℕ} (hx : xid < 2 ^ 32 - 1)
    {seen : List ℕ} (hcovers : Covers seen w) :
    Compressed (updateXidRep xid w) ∧ Covers (seen ++ [xid]) (updateXidRep xid w) := by
  obtain ⟨f, fs, rfl⟩ := List.exists_cons_of_ne_nil h.nonempty
  unfold updateXidRep
  split_ifs with hle
  · refine ⟨h, fun x hmem => ?_⟩
    rcases List.mem_append.1 hmem with hmem | hmem
    · exact hcovers x hmem
    · rw [List.mem_singleton.1 hmem]
      exact .inl hle
  · have hxf : ¬ xid < f := fun hlt => hle hlt.le
    have hins : insertXid xid (f :: fs) = f :: insertXid xid fs := by
      rw [insertXid, if_neg hxf]
    rw [hins]
    show Compressed (Rpcc.compress [f] (insertXid xid fs)) ∧
      Covers (seen ++ [xid]) (Rpcc.compress [f] (insertXid xid fs))
    have hf : Compressed [f] := ⟨by simp, by simp, by simp, by simpa using h.small f (by simp)⟩
    have hsorted : ([f] ++ insertXid xid fs).Pairwise (· ≤ ·) := by
      rw [List.singleton_append, ← hins]
      exact pairwise_insertXid xid h.sorted
    have hsmall : ∀ y ∈ insertXid xid fs, y < 2 ^ 32 - 1 := by
      intro y hy
      rcases mem_insertXid.1 hy with rfl | hy
      · exact hx
      · exact h.small y (by simp [hy])
    obtain ⟨hw, hcover⟩ := hf.compress hsorted hsmall
    refine ⟨hw, fun x hmem => hcover x ?_⟩
    rw [List.singleton_append, ← hins]
    rcases List.mem_append.1 hmem with hmem | hmem
    · exact (hcovers x hmem).imp_right (fun hin => mem_insertXid.2 (.inr hin))
    · exact .inr (mem_insertXid.2 (.inl (List.mem_singleton.1 hmem)))

/-- The reports of a sequence, from the initial window. -/
def reported (xs : List ℕ) : Option (List ℕ) := xs.foldlM (fun w x => updateXidRepIt x w) [0]

/-- The state of the window after a sequence of reports. -/
theorem reported_spec (xs : List ℕ) (hxs : ∀ x ∈ xs, 1 ≤ x ∧ x < 2 ^ 32 - 1) :
    ∃ w, reported xs = some w ∧ Acked (· ∈ xs) w ∧ Compressed w ∧ Covers xs w := by
  induction xs using List.reverseRecOn with
  | nil =>
    refine ⟨[0], rfl, acked_init _, ⟨by simp, by simp, by simp, by simp⟩, ?_⟩
    intro x hx
    cases hx
  | append_singleton xs x ih =>
    obtain ⟨w, hw, hacked, hcompressed, hcovers⟩ := ih (fun y hy => hxs y (by simp [hy]))
    have hx := hxs x (by simp)
    obtain ⟨hcompressed', hcovers'⟩ := hcompressed.update hx.2 hcovers
    refine ⟨updateXidRep x w, ?_, ?_, hcompressed', hcovers'⟩
    · have hw' : xs.foldlM (fun w x => updateXidRepIt x w) [0] = some w := hw
      rw [reported, List.foldlM_append, hw', Option.bind_eq_bind, Option.bind_some,
        List.foldlM_cons, updateXidRepIt_eq x hcompressed.nonempty]
      rfl
    · exact (hacked.mono (fun y hy => List.mem_append_left _ hy)).update (by simp)

/-- **The acknowledged xid is exactly the contiguous prefix.**  After any sequence of reports, in any
order and with any repetitions, the list is not empty and sorted, no iterator has lost its element, and
the front is the largest `n` such that each of `1, …, n` has been reported. -/
theorem front_isGreatest (xs : List ℕ) (hxs : ∀ x ∈ xs, 1 ≤ x ∧ x < 2 ^ 32 - 1) :
    ∃ f fs, reported xs = some (f :: fs) ∧ (f :: fs).Pairwise (· ≤ ·) ∧
      IsGreatest {n | ∀ k, 1 ≤ k → k ≤ n → k ∈ xs} f := by
  obtain ⟨w, hw, hacked, hcompressed, hcovers⟩ := reported_spec xs hxs
  obtain ⟨f, fs, rfl⟩ := List.exists_cons_of_ne_nil hcompressed.nonempty
  refine ⟨f, fs, hw, hcompressed.sorted, hacked.upto, ?_⟩
  intro n hn
  by_contra hlt
  -- the successor of the front would be in the list
  have hmem : f + 1 ∈ xs := hn (f + 1) (by omega) (by omega)
  rcases hcovers (f + 1) hmem with hle | hin
  · have : f + 1 ≤ f := hle
    omega
  · exact hcompressed.gap (f + 1) hin rfl

/-- Reports out of order and twice. -/
theorem front_isGreatest_twice :
    (∃ f fs, reported [3, 1, 3, 5, 2, 1] = some (f :: fs) ∧ (f :: fs).Pairwise (· ≤ ·) ∧
      IsGreatest {n | ∀ k, 1 ≤ k → k ≤ n → k ∈ [3, 1, 3, 5, 2, 1]} f) ∧
    reported [3, 1, 3, 5, 2, 1] = some [3, 3, 5] :=
  ⟨front_isGreatest [3, 1, 3, 5, 2, 1] (by decide), by decide⟩

end Rpcc
