import Mathlib.Data.List.Basic
import Mathlib.Algebra.Order.Ring.Nat
import Mathlib.Algebra.GroupWithZero.Nat

/-!
# Numbers and words as bytes

The little-endian bytes of a number, and records that are rows of words of eight
bytes each: a word is read back from its place.
-/

namespace LittleEndian

def bytes : (size : Nat) → Nat → List UInt8
  | 0, _ => []
  | size + 1, v => UInt8.ofNat v :: bytes size (v / 256)

def value : List UInt8 → Nat
  | [] => 0
  | b :: l => b.toNat + 256 * value l

@[simp] theorem length_bytes (size v : Nat) : (bytes size v).length = size := by
  induction size generalizing v with
  | zero => rfl
  | succ size ih => rw [bytes, List.length_cons, ih]

theorem value_bytes (size v : Nat) : value (bytes size v) = v % 256 ^ size := by
  induction size generalizing v with
  | zero => rw [bytes, value, Nat.pow_zero, Nat.mod_one]
  | succ size ih =>
    have hbyte : (UInt8.ofNat v).toNat = v % 256 := UInt8.toNat_ofNat'
    rw [bytes, value, ih, hbyte, Nat.pow_succ', Nat.mod_mul]

/-- The word at `offset`. -/
def word (l : List UInt8) (offset : Nat) : BitVec 64 :=
  BitVec.ofNat 64 (value ((l.drop offset).take 8))

/-- A row of words. -/
def row (ws : List (BitVec 64)) : List UInt8 := ws.flatMap fun w => bytes 8 w.toNat

theorem row_cons (w : BitVec 64) (ws : List (BitVec 64)) :
    row (w :: ws) = bytes 8 w.toNat ++ row ws := rfl

theorem row_append (ws vs : List (BitVec 64)) : row (ws ++ vs) = row ws ++ row vs :=
  List.flatMap_append

@[simp] theorem length_row (ws : List (BitVec 64)) : (row ws).length = 8 * ws.length := by
  induction ws with
  | nil => rfl
  | cons w ws ih =>
    rw [row_cons, List.length_append, length_bytes, ih, List.length_cons]
    omega

theorem word_bytes (w : BitVec 64) (rest : List UInt8) : word (bytes 8 w.toNat ++ rest) 0 = w := by
  have hlen : (bytes 8 w.toNat).length = 8 := length_bytes 8 _
  have hlt : w.toNat < 256 ^ 8 := w.isLt
  rw [word, List.drop_zero, List.take_append_of_le_length hlen.ge, List.take_of_length_le hlen.le,
    value_bytes, Nat.mod_eq_of_lt hlt, BitVec.ofNat_toNat, BitVec.setWidth_eq]

theorem word_append (l rest : List UInt8) (offset : Nat) :
    word (l ++ rest) (l.length + offset) = word rest offset := by
  rw [word, List.drop_append, List.drop_of_length_le (Nat.le_add_right _ _), List.nil_append,
    Nat.add_sub_cancel_left, word]

/-- A word of a row, whatever follows the row. -/
theorem word_row (ws : List (BitVec 64)) (rest : List UInt8) {i : Nat} {w : BitVec 64}
    (h : ws[i]? = some w) : word (row ws ++ rest) (8 * i) = w := by
  induction ws generalizing i with
  | nil => simp at h
  | cons v ws ih =>
    rw [row_cons, List.append_assoc]
    cases i with
    | zero =>
      have hv : v = w := Option.some.inj h
      rw [hv, Nat.mul_zero]
      exact word_bytes w _
    | succ i =>
      have hoffset : 8 * (i + 1) = (bytes 8 v.toNat).length + 8 * i := by
        rw [length_bytes]
        omega
      rw [hoffset, word_append]
      exact ih h

end LittleEndian
