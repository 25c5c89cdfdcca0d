/-
# Records laid end to end and read in pieces

A `RecordCodec` writes a record as a string and reads the first whole record of a string.  The strings
of many records, laid end to end, are cut at any place: whoever reads a piece gets the records that lie
in it as a whole (`read_take`) and drops a part of a record at its end.

A reader that resumes at an offset needs no memory of what it has read when every record carries the
offset of its own end (`Linked`): the offset of the last record is where the records not yet read begin
(`Linked.resume`).  A `Cursor` is such a reader, and `Cursor.Stands` is the invariant its steps keep.
-/
import Mathlib

/-- How a record is written, and how the first whole record of a string is read, with what follows
it. -/
structure RecordCodec (α β : Type*) where
  encode : α → List β
  parse : List β → Option (α × List β)

namespace RecordCodec

variable {α β : Type*} {c : RecordCodec α β} {P : α → Prop} {off : α → ℕ} {r : α} {rs : List α}

/-- The records with the property `P` are read back, and no part of one is taken for a record. -/
structure Lawful (c : RecordCodec α β) (P : α → Prop) : Prop where
  encode_ne_nil : ∀ r, P r → c.encode r ≠ []
  parse_nil : c.parse [] = none
  parse_whole : ∀ r rest, P r → c.parse (c.encode r ++ rest) = some (r, rest)
  parse_part : ∀ r n, P r → n < (c.encode r).length → c.parse ((c.encode r).take n) = none

/-- The strings of the records, end to end. -/
def encodeAll (c : RecordCodec α β) (rs : List α) : List β := rs.flatMap c.encode

@[simp] theorem encodeAll_nil : c.encodeAll [] = [] := rfl

@[simp] theorem encodeAll_cons : c.encodeAll (r :: rs) = c.encode r ++ c.encodeAll rs := rfl

@[simp] theorem encodeAll_append {rs' : List α} :
    c.encodeAll (rs ++ rs') = c.encodeAll rs ++ c.encodeAll rs' :=
  List.flatMap_append

theorem length_encode_le (hr : r ∈ rs) : (c.encode r).length ≤ (c.encodeAll rs).length := by
  induction rs with
  | nil => simp at hr
  | cons r' rs ih =>
    rw [encodeAll_cons, List.length_append]
    rcases List.mem_cons.1 hr with rfl | hr
    · omega
    · have := ih hr
      omega

/-- The first records of a string, at most `n` of them, up to the first part that is no record. -/
def read (c : RecordCodec α β) : ℕ → List β → List α
  | 0, _ => []
  | n + 1, bs =>
    match c.parse bs with
    | none => []
    | some (r, rest) => r :: c.read n rest

/-- The records that lie in the first `m` places as a whole. -/
def fitting (c : RecordCodec α β) : ℕ → List α → List α
  | _, [] => []
  | m, r :: rs =>
    if (c.encode r).length ≤ m then r :: c.fitting (m - (c.encode r).length) rs else []

/-! ## Reading a piece -/

theorem fitting_isPrefix (m : ℕ) : c.fitting m rs <+: rs := by
  induction rs generalizing m with
  | nil => exact List.prefix_rfl
  | cons r rs ih =>
    rw [fitting]
    split_ifs
    · exact List.cons_prefix_cons.2 ⟨rfl, ih _⟩
    · exact List.nil_prefix

theorem Lawful.read_nil (hc : c.Lawful P) (n : ℕ) : c.read n [] = [] := by
  cases n with
  | zero => rfl
  | succ n => rw [read, hc.parse_nil]

/-- **What is read of a piece**: the records that lie in it as a whole, as many as are asked for. -/
theorem Lawful.read_take (hc : c.Lawful P) (hrs : ∀ r ∈ rs, P r) (n m : ℕ) :
    c.read n ((c.encodeAll rs).take m) = (c.fitting m rs).take n := by
  induction rs generalizing n m with
  | nil => simp [fitting, hc.read_nil]
  | cons r rs ih =>
    have hr := hrs r (List.mem_cons_self ..)
    rw [encodeAll_cons, List.take_append, fitting]
    cases n with
    | zero => simp [read]
    | succ n =>
      split_ifs with hm
      · -- the whole first record, and then a piece of the rest
        rw [List.take_of_length_le hm, read, hc.parse_whole _ _ hr, List.take_succ_cons]
        exact congrArg (r :: ·) (ih (fun x hx => hrs x (List.mem_cons_of_mem _ hx)) n _)
      · -- the cut is inside the first record
        rw [Nat.sub_eq_zero_of_le (by omega), List.take_zero, List.append_nil, read,
          hc.parse_part _ _ hr (by omega), List.take_nil]

/-! ## Offsets -/

/-- Each record carries the offset of its end, when the first one begins at `start`. -/
def Linked (c : RecordCodec α β) (off : α → ℕ) : ℕ → List α → Prop
  | _, [] => True
  | start, r :: rs =>
    off r = start + (c.encode r).length ∧ c.Linked off (start + (c.encode r).length) rs

theorem Linked.of_append {start : ℕ} {pre rest : List α} (h : c.Linked off start (pre ++ rest)) :
    c.Linked off (start + (c.encodeAll pre).length) rest := by
  induction pre generalizing start with
  | nil => simpa using h
  | cons r pre ih =>
    have hrest := ih h.2
    rwa [add_assoc, ← List.length_append] at hrest

/-- Where to go on after the records `rs`: at the offset of the last one. -/
def resume (off : α → ℕ) (start : ℕ) (rs : List α) : ℕ := (rs.getLast?.map off).getD start

@[simp] theorem resume_nil {start : ℕ} : resume off start [] = start := rfl

theorem resume_cons {start : ℕ} : resume off start (r :: rs) = resume off (off r) rs := by
  rw [resume, resume, List.getLast?_cons]
  cases rs.getLast? <;> rfl

/-- **The last offset is the end of what has been read.** -/
theorem Linked.resume_eq {start : ℕ} {pre rest : List α} (h : c.Linked off start (pre ++ rest)) :
    resume off start pre = start + (c.encodeAll pre).length := by
  induction pre generalizing start with
  | nil => simp
  | cons r pre ih =>
    obtain ⟨hoff, hlink⟩ := h
    rw [resume_cons, hoff, ih hlink, encodeAll_cons, List.length_append, add_assoc]

/-! ## A reader that resumes at an offset -/

/-- The offset the next piece is asked for, and the records read so far. -/
@[ext]
structure Cursor (α : Type*) where
  pos : ℕ
  taken : List α

namespace Cursor

variable {cur : Cursor α} {n m : ℕ}

/-- The piece of length at most `m` at the offset of the cursor. -/
def piece (c : RecordCodec α β) (rs : List α) (m : ℕ) (cur : Cursor α) : List β :=
  ((c.encodeAll rs).drop cur.pos).take m

/-- Take up to `n` records of the string `bs` and go on at the offset of the last one. -/
def advance (c : RecordCodec α β) (off : α → ℕ) (n : ℕ) (bs : List β) (cur : Cursor α) : Cursor α where
  pos := resume off cur.pos (c.read n bs)
  taken := cur.taken ++ c.read n bs

/-- The cursor has read the records before its offset, and this is the end of a record. -/
def Stands (c : RecordCodec α β) (rs : List α) (cur : Cursor α) : Prop :=
  ∃ rest, rs = cur.taken ++ rest ∧ cur.pos = (c.encodeAll cur.taken).length

theorem stands_start : Stands c rs ⟨0, []⟩ := ⟨rs, rfl, rfl⟩

/-- What a cursor is given begins with a whole record, or nothing is left. -/
theorem Stands.piece_eq (h : Stands c rs cur) :
    ∃ rest, rs = cur.taken ++ rest ∧ cur.piece c rs m = (c.encodeAll rest).take m := by
  obtain ⟨rest, hrs, hpos⟩ := h
  refine ⟨rest, hrs, ?_⟩
  rw [piece, hpos, hrs, encodeAll_append, List.drop_left]

/-- **A step of the cursor**: it takes the next records, whatever the length of the piece. -/
theorem Stands.advance (hc : c.Lawful P) (hrs : ∀ r ∈ rs, P r) (hlink : c.Linked off 0 rs)
    (h : Stands c rs cur) : Stands c rs (cur.advance c off n (cur.piece c rs m)) := by
  obtain ⟨rest, heq, hpiece⟩ := h.piece_eq (m := m)
  obtain ⟨-, -, hpos⟩ := h
  have hrest : ∀ r ∈ rest, P r := fun r hr => hrs r (by rw [heq]; exact List.mem_append_right _ hr)
  have hgot : c.read n (cur.piece c rs m) <+: rest := by
    rw [hpiece, hc.read_take hrest]
    exact (List.take_prefix _ _).trans (fitting_isPrefix m)
  obtain ⟨rest', hrest'⟩ := hgot
  refine ⟨rest', ?_, ?_⟩
  · rw [Cursor.advance, List.append_assoc, hrest']
    exact heq
  · rw [heq] at hlink
    have hlink' := hlink.of_append
    rw [← hrest', zero_add, ← hpos] at hlink'
    rw [Cursor.advance, hlink'.resume_eq, hpos, encodeAll_append, List.length_append]

/-- With room for every record, only the cursor that has read them all is given nothing. -/
theorem Stands.piece_eq_nil_iff (hc : c.Lawful P) (hrs : ∀ r ∈ rs, P r)
    (hroom : ∀ r ∈ rs, (c.encode r).length ≤ m) (h : Stands c rs cur) :
    cur.piece c rs m = [] ↔ cur.taken = rs := by
  obtain ⟨rest, heq, hpiece⟩ := h.piece_eq (m := m)
  rw [hpiece]
  cases rest with
  | nil => simpa using heq.symm
  | cons r rest =>
    have hr : r ∈ rs := by rw [heq]; simp
    have hpos := List.length_pos_iff.2 (hc.encode_ne_nil r (hrs r hr))
    have hm := hroom r hr
    refine iff_of_false ?_ ?_
    · intro hnil
      have hlen := congrArg List.length hnil
      rw [List.length_take, encodeAll_cons, List.length_append, List.length_nil] at hlen
      omega
    · intro htaken
      have hlen := congrArg List.length (htaken.trans heq)
      rw [List.length_append, List.length_cons] at hlen
      omega

/-- With room for every record, a cursor that has not read them all and may take one does so. -/
theorem Stands.read_length_pos (hc : c.Lawful P) (hrs : ∀ r ∈ rs, P r)
    (hroom : ∀ r ∈ rs, (c.encode r).length ≤ m) (hn : 0 < n) (h : Stands c rs cur)
    (hleft : cur.taken ≠ rs) : 0 < (c.read n (cur.piece c rs m)).length := by
  obtain ⟨rest, heq, hpiece⟩ := h.piece_eq (m := m)
  have hrest : ∀ r ∈ rest, P r := fun r hr => hrs r (by rw [heq]; exact List.mem_append_right _ hr)
  cases rest with
  | nil => exact absurd (by simpa using heq.symm) hleft
  | cons r rest =>
    have hm : (c.encode r).length ≤ m := hroom r (by rw [heq]; simp)
    rw [hpiece, hc.read_take hrest, fitting, if_pos hm, List.length_take, List.length_cons]
    omega

end Cursor

end RecordCodec
