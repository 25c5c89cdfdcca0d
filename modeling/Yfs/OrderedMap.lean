/-
# `std::map` as a sequence of pairs

Where the order of iteration matters, a `std::map` is the list of its pairs in ascending order of the
keys.  `d[a] = b` is `insertOrAssign`.  The maps over ordered keys and values are ordered
lexicographically, as `operator<` orders them, so that a map can be a key itself.
-/
import Mathlib

variable {A B : Type} [LinearOrder A]

/-- A map: its pairs, in ascending order of the keys. -/
structure OrderedMap (A B : Type) [LinearOrder A] where
  pairs : List (A × B)
  sorted : pairs.Pairwise (fun x y => x.1 < y.1)

namespace OrderedMap

@[ext] theorem ext {d d' : OrderedMap A B} (h : d.pairs = d'.pairs) : d = d' := by
  cases d
  cases d'
  subst h
  rfl

/-- The map without entries. -/
def empty : OrderedMap A B := ⟨[], List.Pairwise.nil⟩

/-- `d[a] = b` on the pairs: walk to the first key that is not below `a`. -/
def assign (a : A) (b : B) : List (A × B) → List (A × B)
  | [] => [(a, b)]
  | (k, v) :: l =>
    if k < a then (k, v) :: assign a b l
    else if a < k then (a, b) :: (k, v) :: l
    else (k, b) :: l

/-- The keys after an assignment. -/
theorem fst_of_mem_assign {a : A} {b : B} {l : List (A × B)} {x : A × B} (h : x ∈ assign a b l) :
    x.1 = a ∨ ∃ y ∈ l, y.1 = x.1 := by
  induction l with
  | nil =>
    obtain rfl := List.mem_singleton.1 h
    exact .inl rfl
  | cons y l ih =>
    obtain ⟨k, v⟩ := y
    unfold assign at h
    split_ifs at h with hka hak
    · rcases List.mem_cons.1 h with rfl | h
      · exact .inr ⟨(k, v), List.mem_cons_self .., rfl⟩
      · rcases ih h with hx | ⟨y, hy, hyx⟩
        · exact .inl hx
        · exact .inr ⟨y, List.mem_cons_of_mem _ hy, hyx⟩
    · rcases List.mem_cons.1 h with rfl | h
      · exact .inl rfl
      · exact .inr ⟨x, h, rfl⟩
    · rcases List.mem_cons.1 h with rfl | h
      · exact .inr ⟨(k, v), List.mem_cons_self .., rfl⟩
      · exact .inr ⟨x, List.mem_cons_of_mem _ h, rfl⟩

/-- An assignment keeps the pairs in order. -/
theorem sorted_assign (a : A) (b : B) {l : List (A × B)}
    (h : l.Pairwise (fun x y => x.1 < y.1)) :
    (assign a b l).Pairwise (fun x y => x.1 < y.1) := by
  induction l with
  | nil => exact List.pairwise_singleton _ _
  | cons y l ih =>
    obtain ⟨k, v⟩ := y
    obtain ⟨hk, hl⟩ := List.pairwise_cons.1 h
    unfold assign
    split_ifs with hka hak
    · refine List.pairwise_cons.2 ⟨?_, ih hl⟩
      intro x hx
      rcases fst_of_mem_assign hx with hxa | ⟨y, hy, hyx⟩
      · exact hxa ▸ hka
      · exact hyx ▸ hk y hy
    · refine List.pairwise_cons.2 ⟨?_, h⟩
      intro x hx
      rcases List.mem_cons.1 hx with rfl | hx
      · exact hak
      · exact hak.trans (hk x hx)
    · exact List.pairwise_cons.2 ⟨hk, hl⟩

/-- `d[a] = b`. -/
def insertOrAssign (d : OrderedMap A B) (a : A) (b : B) : OrderedMap A B :=
  ⟨assign a b d.pairs, sorted_assign a b d.sorted⟩

/-- A key above all others goes to the end. -/
theorem assign_of_lt {a : A} {b : B} {l : List (A × B)} (h : ∀ x ∈ l, x.1 < a) :
    assign a b l = l ++ [(a, b)] := by
  induction l with
  | nil => rfl
  | cons y l ih =>
    rw [assign, if_pos (h y (List.mem_cons_self ..)),
      ih (fun x hx => h x (List.mem_cons_of_mem _ hx)), List.cons_append]

/-- The maps with the lexicographic order of `operator<`. -/
@[reducible] def linearOrder [LinearOrder B] : LinearOrder (OrderedMap A B) :=
  LinearOrder.lift' (fun d => d.pairs.map toLex) (by
    intro d d' h
    apply ext
    exact List.map_injective_iff.2 toLex.injective h)

end OrderedMap
