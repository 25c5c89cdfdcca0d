/-
# Network order

The bytes of a fixed-width word, the most significant one first, and the word put together from its
bytes by shifts.  Both directions are stated on the machine types; the proofs go through natural
numbers, where a number is its high part shifted back, joined with its low part (`or_mod_two_pow`).
-/
import Mathlib

namespace NetworkOrder

/-- The bytes of a 16-bit word. -/
def be16 (x : UInt16) : List UInt8 := [(x >>> 8).toUInt8, x.toUInt8]

/-- The bytes of a 32-bit word. -/
def be32 (x : UInt32) : List UInt8 :=
  [(x >>> 24).toUInt8, (x >>> 16).toUInt8, (x >>> 8).toUInt8, x.toUInt8]

/-- The bytes of a 64-bit word. -/
def be64 (x : UInt64) : List UInt8 := be32 (x >>> 32).toUInt32 ++ be32 x.toUInt32

/-- The 32-bit word with the given bytes. -/
def word32 (a b c d : UInt8) : UInt32 :=
  (a.toUInt32 <<< 24) ||| (b.toUInt32 <<< 16) ||| (c.toUInt32 <<< 8) ||| d.toUInt32

@[simp] theorem length_be16 (x : UInt16) : (be16 x).length = 2 := rfl

@[simp] theorem length_be32 (x : UInt32) : (be32 x).length = 4 := rfl

@[simp] theorem length_be64 (x : UInt64) : (be64 x).length = 8 := rfl

/-- A number is its high part and its low part. -/
theorem or_mod_two_pow (n k : ℕ) : (n >>> k) <<< k ||| n % 2 ^ k = n := by
  rw [← Nat.shiftLeft_add_eq_or_of_lt (Nat.mod_lt n (Nat.two_pow_pos k)), Nat.shiftLeft_eq,
    Nat.shiftRight_eq_div_pow]
  exact Nat.div_add_mod' n (2 ^ k)

/-- One more byte joins the high part. -/
theorem or_byte (n k : ℕ) :
    (n >>> (k + 8)) <<< (k + 8) ||| (n >>> k % 2 ^ 8) <<< k = (n >>> k) <<< k := by
  rw [Nat.shiftRight_add, Nat.add_comm k 8, Nat.shiftLeft_add, ← Nat.shiftLeft_or_distrib,
    or_mod_two_pow]

/-- A byte shifted within 32 bits loses nothing. -/
theorem byte_shift_mod (v : ℕ) {k : ℕ} (hk : k ≤ 24) :
    (v % 2 ^ 8) <<< k % 2 ^ 32 = (v % 2 ^ 8) <<< k := by
  apply Nat.mod_eq_of_lt
  rw [Nat.shiftLeft_eq]
  calc v % 2 ^ 8 * 2 ^ k < 2 ^ 8 * 2 ^ k := by gcongr; omega
    _ ≤ 2 ^ 8 * 2 ^ 24 := by gcongr; omega

/-- The bytes of a 32-bit word make the word. -/
theorem word32_be32 (x : UInt32) :
    word32 (x >>> 24).toUInt8 (x >>> 16).toUInt8 (x >>> 8).toUInt8 x.toUInt8 = x := by
  apply UInt32.toNat_inj.1
  have hx := x.toNat_lt
  have htop : x.toNat >>> 24 % 2 ^ 8 = x.toNat >>> 24 := by
    rw [Nat.shiftRight_eq_div_pow]
    omega
  unfold word32
  simp only [UInt32.toNat_or, UInt32.toNat_shiftLeft, UInt8.toNat_toUInt32, UInt32.toNat_toUInt8,
    UInt32.toNat_shiftRight, UInt32.reduceToNat, Nat.reduceMod]
  rw [byte_shift_mod _ (by omega), byte_shift_mod _ (by omega), byte_shift_mod _ (by omega), htop,
    or_byte _ 16, or_byte _ 8]
  exact or_mod_two_pow _ 8

/-- The two halves of a 64-bit word make the word. -/
theorem or_halves (x : UInt64) :
    x.toUInt32.toUInt64 ||| ((x >>> 32).toUInt32.toUInt64 <<< 32) = x := by
  apply UInt64.toNat_inj.1
  have hx := x.toNat_lt
  have hfit : (x.toNat >>> 32 % 2 ^ 32) <<< 32 % 2 ^ 64 = (x.toNat >>> 32) <<< 32 := by
    rw [Nat.shiftLeft_eq, Nat.shiftLeft_eq, Nat.shiftRight_eq_div_pow]
    omega
  simp only [UInt64.toNat_or, UInt64.toNat_shiftLeft, UInt32.toNat_toUInt64, UInt64.toNat_toUInt32,
    UInt64.toNat_shiftRight, UInt64.reduceToNat, Nat.reduceMod]
  rw [hfit, Nat.or_comm]
  exact or_mod_two_pow _ 32

/-- The two bytes of a 16-bit word make the word; the sum is formed in 32 bits. -/
theorem or_bytes16 (x : UInt16) :
    ((((x >>> 8).toUInt8.toUInt32 <<< 8).toUInt16.toUInt32) ||| x.toUInt8.toUInt32).toUInt16 = x := by
  apply UInt16.toNat_inj.1
  have hx := x.toNat_lt
  have hfit : (x.toNat >>> 8 % 2 ^ 8) <<< 8 % 2 ^ 32 % 2 ^ 16 = (x.toNat >>> 8) <<< 8 := by
    rw [Nat.shiftLeft_eq, Nat.shiftLeft_eq, Nat.shiftRight_eq_div_pow]
    omega
  simp only [UInt32.toNat_or, UInt32.toNat_toUInt16, UInt16.toNat_toUInt32, UInt32.toNat_shiftLeft,
    UInt8.toNat_toUInt32, UInt16.toNat_toUInt8, UInt16.toNat_shiftRight, UInt32.reduceToNat,
    UInt16.reduceToNat, Nat.reduceMod]
  rw [hfit, or_mod_two_pow]
  exact Nat.mod_eq_of_lt hx

/-- The same in a signed 16-bit word, which is widened with its sign. -/
theorem or_signed16 (x : UInt16) :
    (((x >>> 8).toUInt8.toUInt32 <<< 8).toUInt16.toInt16.toInt32.toUInt32 |||
      x.toUInt8.toUInt32).toUInt16 = x := by
  have hwide : ∀ y : UInt16, y.toInt16.toInt32.toUInt32.toUInt16 = y.toUInt32.toUInt16 := by
    intro y
    apply UInt16.toBitVec_inj.1
    apply BitVec.eq_of_getLsbD_eq
    intro i hi
    simp [BitVec.getElem_signExtend, hi, show i < 32 by omega]
  rw [UInt32.toUInt16_or, hwide, ← UInt32.toUInt16_or]
  exact or_bytes16 x

/-- The lowest byte, masked. -/
theorem toUInt8_and (x : UInt32) : (x &&& 0xff).toUInt8 = x.toUInt8 := by
  apply UInt8.toNat_inj.1
  have h : x.toNat &&& 255 = x.toNat % 2 ^ 8 := Nat.and_two_pow_sub_one_eq_mod _ 8
  rw [UInt32.toNat_toUInt8, UInt32.toNat_toUInt8, UInt32.toNat_and]
  show (x.toNat &&& 255) % 2 ^ 8 = _
  rw [h, Nat.mod_mod]

theorem toUInt8_and16 (x : UInt16) : (x &&& 0xff).toUInt8 = x.toUInt8 := by
  apply UInt8.toNat_inj.1
  have h : x.toNat &&& 255 = x.toNat % 2 ^ 8 := Nat.and_two_pow_sub_one_eq_mod _ 8
  rw [UInt16.toNat_toUInt8, UInt16.toNat_toUInt8, UInt16.toNat_and]
  show (x.toNat &&& 255) % 2 ^ 8 = _
  rw [h, Nat.mod_mod]

/-- The bytes of a signed word: the shift that keeps the sign moves the same bits down. -/
theorem be32_toUInt32 (x : Int32) : be32 x.toUInt32 =
    [(x >>> 24 &&& 0xff).toUInt32.toUInt8, (x >>> 16 &&& 0xff).toUInt32.toUInt8,
      (x >>> 8 &&& 0xff).toUInt32.toUInt8, (x &&& 0xff).toUInt32.toUInt8] := by
  unfold be32
  simp only [List.cons.injEq, and_true]
  refine ⟨?_, ?_, ?_, ?_⟩
  all_goals
    apply UInt8.toBitVec_inj.1
    apply BitVec.eq_of_getLsbD_eq
    intro i hi
    interval_cases i <;> simp [BitVec.getElem_sshiftRight]

/-- Masking undoes the extension of the sign of a byte. -/
theorem signExtend_and (b : UInt8) : b.toInt8.toInt32.toUInt32 &&& 0xff = b.toUInt32 := by
  apply UInt32.toBitVec_inj.1
  apply BitVec.eq_of_getLsbD_eq
  intro i hi
  interval_cases i <;> simp [BitVec.getElem_signExtend]

end NetworkOrder
