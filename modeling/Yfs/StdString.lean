/-
# Strings as the C++ library has them

A `std::string` is a list of characters.  The operations below follow the library: `find` gives the
first occurrence, `erase`, `replace` and the fill constructor throw (`none`) on a position beyond the
end or a result longer than `max_size`, and `split` is the loop `while (getline(ss, item, delim))`.
Numbers are printed by `ostream << n` and read by `istream >> n` into an `unsigned long long`.

The lemmas about `find` are about patterns that do not contain a delimiter: such a pattern occurs in
`s ++ delim :: t` only inside `s` or inside `t`.
-/
import Mathlib

namespace StdString

variable {α : Type}

/-! ## Searching -/

/-- A pattern without the delimiter is no prefix of a text that reaches the delimiter first, unless it
is a prefix of what stands before it. -/
theorem prefix_of_prefix_append_cons {s t pat : List α} {d : α} (hd : d ∉ pat)
    (h : pat <+: s ++ d :: t) : pat <+: s := by
  obtain ⟨u, hu⟩ := h
  rcases List.append_eq_append_iff.1 hu with ⟨v, rfl, -⟩ | ⟨v, rfl, hv⟩
  · exact List.prefix_append pat v
  · cases v with
    | nil => simp
    | cons x v =>
      obtain ⟨rfl, -⟩ := List.cons.inj hv
      simp at hd

/-- A pattern without the delimiter occurs before it or after it. -/
theorem infix_append_cons_iff {s t pat : List α} {d : α} (hd : d ∉ pat) :
    pat <:+: s ++ d :: t ↔ pat <:+: s ∨ pat <:+: t := by
  induction s with
  | nil =>
    rw [List.nil_append, List.infix_cons_iff]
    constructor
    · rintro (h | h)
      · exact .inl (prefix_of_prefix_append_cons (s := []) hd h).isInfix
      · exact .inr h
    · rintro (h | h)
      · rw [List.infix_nil.1 h]
        simp
      · exact .inr h
  | cons c s ih =>
    rw [List.cons_append, List.infix_cons_iff, List.infix_cons_iff, ih]
    constructor
    · rintro (h | h | h)
      · exact .inl (.inl (prefix_of_prefix_append_cons (s := c :: s) hd h))
      · exact .inl (.inr h)
      · exact .inr h
    · rintro ((h | h) | h)
      · exact .inl (h.trans (List.prefix_append (c :: s) (d :: t)))
      · exact .inr (.inl h)
      · exact .inr (.inr h)

section Find

variable [DecidableEq α]

/-- `s.find(pat)`: the position of the first occurrence, `none` for `npos`. -/
def find : List α → List α → Option ℕ
  | [], pat => if pat = [] then some 0 else none
  | c :: s, pat => if pat <+: c :: s then some 0 else (find s pat).map (· + 1)

/-- `find` fails exactly when the pattern does not occur. -/
theorem find_eq_none_iff {s pat : List α} : find s pat = none ↔ ¬ pat <:+: s := by
  induction s with
  | nil => simp [find]
  | cons c s ih =>
    rw [find, List.infix_cons_iff, not_or]
    split_ifs with h
    · simp [h]
    · simp [h, ih]

theorem find_eq_zero {s pat : List α} (h : pat <+: s) : find s pat = some 0 := by
  cases s with
  | nil => simp [find, List.prefix_nil.1 h]
  | cons c s => rw [find, if_pos h]

/-- The search passes over a delimited text in which the pattern does not occur. -/
theorem find_append_cons {s t pat : List α} {d : α} (hd : d ∉ pat) (hs : ¬ pat <:+: s) :
    find (s ++ d :: t) pat = (find t pat).map (· + (s.length + 1)) := by
  induction s with
  | nil =>
    have hp : ¬ pat <+: d :: t :=
      fun h => hs (prefix_of_prefix_append_cons (s := []) hd h).isInfix
    rw [List.nil_append, find, if_neg hp]
    rfl
  | cons c s ih =>
    have hp : ¬ pat <+: c :: (s ++ d :: t) :=
      fun h => hs (prefix_of_prefix_append_cons (s := c :: s) hd h).isInfix
    have hs' : ¬ pat <:+: s := fun h => hs (List.infix_cons h)
    rw [List.cons_append, find, if_neg hp, ih hs', Option.map_map]
    congr 1

/-- The pattern that `find` has found lies inside the text. -/
theorem find_add_length_le {s pat : List α} {i : ℕ} (h : find s pat = some i) :
    i + pat.length ≤ s.length := by
  induction s generalizing i with
  | nil =>
    rw [find] at h
    split_ifs at h with hp
    obtain rfl := Option.some.inj h
    simp [hp]
  | cons c s ih =>
    rw [find] at h
    split_ifs at h with hp
    · obtain rfl := Option.some.inj h
      have := hp.length_le
      omega
    · obtain ⟨j, hj, rfl⟩ := Option.map_eq_some_iff.1 h
      have := ih hj
      rw [List.length_cons]
      omega

end Find

/-! ## Editing -/

/-- `std::string::max_size()`. -/
def maxSize : ℕ := 0x3ffffffffffffff9

/-- `s.erase(pos, n)`. -/
def erase (s : List α) (pos n : ℕ) : Option (List α) :=
  if pos ≤ s.length then some (s.take pos ++ s.drop (pos + n)) else none

/-- `s.replace(pos, n, t)`. -/
def replace (s : List α) (pos n : ℕ) (t : List α) : Option (List α) :=
  if pos ≤ s.length ∧ s.length - min n (s.length - pos) + t.length ≤ maxSize then
    some (s.take pos ++ t ++ s.drop (pos + n))
  else none

/-- `s.substr(pos, n)`, which is also how the source range of a five-argument `replace` is taken. -/
def substr (s : List α) (pos n : ℕ) : Option (List α) :=
  if pos ≤ s.length then some ((s.drop pos).take n) else none

/-- `std::string(n, c)`. -/
def fill (n : ℕ) (c : α) : Option (List α) :=
  if n ≤ maxSize then some (List.replicate n c) else none

/-- `s.append(t)`. -/
def append (s t : List α) : Option (List α) :=
  if s.length + t.length ≤ maxSize then some (s ++ t) else none

/-! ## Splitting -/

/-- The items `getline` reads from `s` up to each delimiter.  What follows the last delimiter is an
item only when it is not empty. -/
def split [DecidableEq α] (d : α) : List α → List (List α)
  | [] => []
  | c :: s =>
    if c = d then [] :: split d s
    else
      match split d s with
      | [] => [[c]]
      | t :: ts => (c :: t) :: ts

/-- An item and its delimiter. -/
theorem split_append_cons [DecidableEq α] {d : α} {s : List α} (t : List α) (hd : d ∉ s) :
    split d (s ++ d :: t) = s :: split d t := by
  induction s with
  | nil => simp [split]
  | cons c s ih =>
    have hc : c ≠ d := fun h => hd (by simp [h])
    have hs : d ∉ s := fun h => hd (by simp [h])
    rw [List.cons_append, split, if_neg hc, ih hs]

/-- An item of a text occurs in it. -/
theorem infix_of_mem_split [DecidableEq α] {d : α} {s t : List α} (h : t ∈ split d s) : t <:+: s := by
  -- the first item stands at the front of the text, which the induction needs to know
  suffices hsplit : (∀ t ts, split d s = t :: ts → t <+: s) ∧ ∀ t ∈ split d s, t <:+: s from
    hsplit.2 t h
  clear h t
  induction s with
  | nil => simp [split]
  | cons c s ih =>
    obtain ⟨hfirst, hall⟩ := ih
    by_cases hc : c = d
    · rw [split, if_pos hc]
      refine ⟨fun t ts h => ?_, fun t h => ?_⟩
      · obtain ⟨rfl, -⟩ := List.cons.inj h
        exact List.nil_prefix
      · rcases List.mem_cons.1 h with rfl | h
        · exact List.nil_infix
        · exact List.infix_cons (hall t h)
    · rw [split, if_neg hc]
      cases hs : split d s with
      | nil =>
        refine ⟨fun t ts h => ?_, fun t h => ?_⟩
        · obtain ⟨rfl, -⟩ := List.cons.inj h
          exact List.prefix_append [c] s
        · obtain rfl := List.mem_singleton.1 h
          exact (List.prefix_append [c] s).isInfix
      | cons u us =>
        have hu : c :: u <+: c :: s := List.cons_prefix_cons.2 ⟨rfl, hfirst u us hs⟩
        refine ⟨fun t ts h => ?_, fun t h => ?_⟩
        · obtain ⟨rfl, -⟩ := List.cons.inj h
          exact hu
        · rcases List.mem_cons.1 h with rfl | h
          · exact hu.isInfix
          · exact List.infix_cons (hall t (by rw [hs]; exact List.mem_cons_of_mem _ h))

/-! ## Numbers -/

/-- `ost << n`: the decimal digits. -/
def print (n : ℕ) : List UInt8 :=
  (Nat.toDigits 10 n).map (fun c => UInt8.ofNat c.toNat)

/-- `isspace` in the C locale. -/
def isSpace (c : UInt8) : Bool := c == 32 || (9 ≤ c && c ≤ 13)

/-- `isdigit`. -/
def isDigit (c : UInt8) : Bool := 48 ≤ c && c ≤ 57

/-- The value of a run of digits. -/
def digitsValue (s : List UInt8) : ℕ :=
  s.foldl (fun v c => 10 * v + (c.toNat - 48)) 0

/-- `ist >> n` for an `unsigned long long` variable `n` that was not initialised.  A stream without
anything but white space leaves `n` as it was (`none`); where no digit follows, `n` becomes 0; a
number that is too large becomes the maximum; a minus sign negates. -/
def extract (s : List UInt8) : Option UInt64 :=
  match s.dropWhile isSpace with
  | [] => none
  | c :: r =>
    let ds := (if c = 45 ∨ c = 43 then r else c :: r).takeWhile isDigit
    let v := digitsValue ds
    some (if 2 ^ 64 ≤ v then UInt64.ofNat (2 ^ 64 - 1)
      else if c = 45 then -UInt64.ofNat v else UInt64.ofNat v)

theorem toNat_of_mem_toDigits {n : ℕ} {c : Char} (h : c ∈ Nat.toDigits 10 n) :
    48 ≤ c.toNat ∧ c.toNat ≤ 57 := by
  have hdig := Nat.isDigit_of_mem_toDigits (by omega) (by omega) h
  rw [Char.isDigit, Bool.and_eq_true, decide_eq_true_eq, decide_eq_true_eq] at hdig
  exact hdig

/-- A number is printed with digits only. -/
theorem isDigit_of_mem_print {n : ℕ} {c : UInt8} (h : c ∈ print n) : isDigit c = true := by
  obtain ⟨x, hx, rfl⟩ := List.mem_map.1 h
  obtain ⟨h1, h2⟩ := toNat_of_mem_toDigits hx
  have hx : (UInt8.ofNat x.toNat).toNat = x.toNat :=
    UInt8.toNat_ofNat_of_lt' (by rw [UInt8.size]; omega)
  rw [isDigit, Bool.and_eq_true, decide_eq_true_eq, decide_eq_true_eq, UInt8.le_iff_toNat_le,
    UInt8.le_iff_toNat_le, hx]
  exact ⟨h1, h2⟩

/-- The digits of a number have its value. -/
theorem digitsValue_print (n : ℕ) : digitsValue (print n) = n := by
  have hval : ∀ (l : List Char) (v : ℕ), (∀ c ∈ l, c ∈ Nat.toDigits 10 n) →
      (l.map (fun c => UInt8.ofNat c.toNat)).foldl (fun v c => 10 * v + (c.toNat - 48)) v
        = Nat.ofDigitChars 10 l v := by
    intro l
    induction l with
    | nil =>
      intro v _
      simp [Nat.ofDigitChars_nil]
    | cons c l ih =>
      intro v hc
      have hlt := (toNat_of_mem_toDigits (hc c (by simp))).2
      rw [List.map_cons, List.foldl_cons, ih _ (fun x hx => hc x (by simp [hx])),
        Nat.ofDigitChars_cons, UInt8.toNat_ofNat_of_lt' (by rw [UInt8.size]; omega)]
      rfl
  rw [digitsValue, print, hval _ _ (fun c hc => hc), Nat.ofDigitChars_ten_toDigits]

theorem print_ne_nil (n : ℕ) : print n ≠ [] := by
  simp [print, Nat.toDigits_ne_nil]

/-- A digit is neither white space nor a sign nor a delimiter that is no digit. -/
theorem ne_of_isDigit {c d : UInt8} (hc : isDigit c = true) (hd : isDigit d = false) : c ≠ d := by
  rintro rfl
  simp [hc] at hd

theorem isSpace_of_isDigit {c : UInt8} (hc : isDigit c = true) : isSpace c = false := by
  rw [isDigit, Bool.and_eq_true, decide_eq_true_eq, decide_eq_true_eq] at hc
  rw [isSpace, Bool.or_eq_false_iff, Bool.and_eq_false_iff]
  constructor
  · rw [beq_eq_false_iff_ne]
    rintro rfl
    exact absurd hc.1 (by decide)
  · right
    rw [decide_eq_false_iff_not]
    intro h
    exact absurd (UInt8.le_trans hc.1 h) (by decide)

/-- **Numbers round-trip**: a printed `unsigned long long` is read back. -/
theorem extract_print (n : UInt64) : extract (print n.toNat) = some n := by
  have hdig : ∀ c ∈ print n.toNat, isDigit c = true := fun c hc => isDigit_of_mem_print hc
  have hval := digitsValue_print n.toNat
  have hne := print_ne_nil n.toNat
  generalize print n.toNat = s at hdig hval hne
  cases s with
  | nil => exact absurd rfl hne
  | cons c r =>
    have hc := hdig c (by simp)
    have h45 : c ≠ 45 := ne_of_isDigit hc (by decide)
    have h43 : c ≠ 43 := ne_of_isDigit hc (by decide)
    have htake : (c :: r).takeWhile isDigit = c :: r := List.takeWhile_eq_self_iff.2 hdig
    have hdrop : (c :: r).dropWhile isSpace = c :: r := by
      rw [List.dropWhile_cons, isSpace_of_isDigit hc]
      rfl
    have hlt := n.toNat_lt
    have hsign : (if c = 45 ∨ c = 43 then r else c :: r) = c :: r := by simp [h45, h43]
    rw [extract, hdrop]
    dsimp only
    rw [hsign, htake, hval, if_neg (by omega), if_neg h45, UInt64.ofNat_toNat]

end StdString
