/-
# Files as arrays

What a file is for its readers and writers: an array that a write extends with zeros up to its offset
and overwrites from there on, and of which a read takes a slice.

* `written off buf content` is the array after a write; `getElem?_written` says which byte stands at
  each index, and `Posix` says the same in the words of the standard.
* `written_comm`: writes inside the array to disjoint ranges commute.
* `slice content i j` is the part from `i` up to `j`, clipped at the end.
-/
import Mathlib

namespace ArrayFile

variable {α : Type} [Zero α]

/-- The array after `buf` has been written at `off`, with zeros between the old end and `off`. -/
def written (off : ℕ) (buf content : List α) : List α :=
  content.take off ++ List.replicate (off - content.length) 0 ++ buf ++
    content.drop (off + buf.length)

/-- The array `new` is `content` after `buf` has been written at `off`, in the words of POSIX. -/
structure Posix (content : List α) (off : ℕ) (buf new : List α) : Prop where
  length : new.length = max content.length (off + buf.length)
  inside : ∀ i, i < buf.length → new[off + i]? = buf[i]?
  outside : ∀ i, i < content.length → i < off ∨ off + buf.length ≤ i → new[i]? = content[i]?
  gap : ∀ i, content.length ≤ i → i < off → new[i]? = some 0

theorem length_written (off : ℕ) (buf content : List α) :
    (written off buf content).length = max content.length (off + buf.length) := by
  simp only [written, List.length_append, List.length_take, List.length_replicate, List.length_drop]
  omega

/-- The bytes of the array after a write. -/
theorem getElem?_written (off : ℕ) (buf content : List α) (i : ℕ) :
    (written off buf content)[i]? =
      if i < off then (if i < content.length then content[i]? else some 0)
      else if i < off + buf.length then buf[i - off]?
      else content[i]? := by
  have hfront : (content.take off ++ List.replicate (off - content.length) (0 : α)).length = off := by
    simp only [List.length_append, List.length_take, List.length_replicate]
    omega
  rw [written, List.append_assoc]
  split_ifs with hi hlen hbuf
  · rw [List.getElem?_append_left (by omega), List.getElem?_append_left (by simp; omega),
      List.getElem?_take_of_lt hi]
  · rw [List.getElem?_append_left (by omega), List.getElem?_append_right (by simp; omega),
      List.getElem?_replicate, if_pos (by simp; omega)]
  · rw [List.getElem?_append_right (by omega), hfront, List.getElem?_append_left (by omega)]
  · rw [List.getElem?_append_right (by omega), hfront, List.getElem?_append_right (by omega),
      List.getElem?_drop]
    congr 1
    omega

theorem posix_written (off : ℕ) (buf content : List α) :
    Posix content off buf (written off buf content) := by
  refine ⟨length_written off buf content, ?_, ?_, ?_⟩
  · intro i hi
    rw [getElem?_written, if_neg (by omega), if_pos (by omega), Nat.add_sub_cancel_left]
  · intro i hi hout
    rw [getElem?_written]
    split_ifs
    · rfl
    · omega
    · rfl
  · intro i hi hoff
    rw [getElem?_written, if_pos hoff, if_neg (by omega)]

/-- **Writes inside the array to disjoint ranges commute.** -/
theorem written_comm {off₁ off₂ : ℕ} {buf₁ buf₂ content : List α}
    (h₁ : off₁ + buf₁.length ≤ content.length) (h₂ : off₂ + buf₂.length ≤ content.length)
    (hdisj : off₁ + buf₁.length ≤ off₂ ∨ off₂ + buf₂.length ≤ off₁) :
    written off₂ buf₂ (written off₁ buf₁ content) = written off₁ buf₁ (written off₂ buf₂ content) := by
  apply List.ext_getElem?
  intro i
  -- a byte lies in at most one of the ranges, and no write moves the end
  have hl₁ : (written off₁ buf₁ content).length = content.length := by
    rw [length_written]
    omega
  have hl₂ : (written off₂ buf₂ content).length = content.length := by
    rw [length_written]
    omega
  rw [getElem?_written, getElem?_written, getElem?_written, getElem?_written, hl₁, hl₂]
  split_ifs <;> first | rfl | omega

/-- The part of the array from `i` up to `j`. -/
def slice (content : List α) (i j : ℕ) : List α := (content.take j).drop i

omit [Zero α] in
/-- The bytes from `off` on, at most `size` of them. -/
theorem slice_min (content : List α) (off size : ℕ) :
    slice content off (min (off + size) content.length) = (content.drop off).take size := by
  rw [slice, List.drop_take, List.take_eq_take_iff, List.length_drop]
  omega

end ArrayFile
