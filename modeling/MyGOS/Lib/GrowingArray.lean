import Mathlib.Data.List.TakeDrop

/-!
# Arrays that grow

A list that is read and written from any index on. A write after the end fills
the gap with a default element; writing one list after another is writing their
concatenation.
-/

namespace GrowingArray

variable {α : Type*}

def readAt (xs : List α) (start n : Nat) : List α := (xs.drop start).take n

def writeAt (d : α) (xs : List α) (start : Nat) (ys : List α) : List α :=
  xs.takeD start d ++ ys ++ xs.drop (start + ys.length)

theorem length_readAt (xs : List α) (start n : Nat) :
    (readAt xs start n).length = min n (xs.length - start) := by
  rw [readAt, List.length_take, List.length_drop]

theorem readAt_append (xs : List α) (start n k : Nat) :
    readAt xs start n ++ readAt xs (start + n) k = readAt xs start (n + k) := by
  rw [readAt, readAt, readAt, ← List.drop_drop, ← List.take_add]

theorem readAt_of_length_le {xs : List α} {start : Nat} (h : xs.length ≤ start) (n : Nat) :
    readAt xs start n = [] := by
  rw [readAt, List.drop_of_length_le h, List.take_nil]

theorem drop_take_add (xs : List α) (start n : Nat) :
    (xs.take (start + n)).drop start = readAt xs start n := by
  rw [readAt, List.drop_take, Nat.add_sub_cancel_left]

variable (d : α)

theorem length_writeAt (xs : List α) (start : Nat) (ys : List α) :
    (writeAt d xs start ys).length = max (start + ys.length) xs.length := by
  rw [writeAt, List.length_append, List.length_append, List.takeD_length, List.length_drop]
  omega

theorem writeAt_of_le {xs : List α} {start : Nat} (h : start ≤ xs.length) (ys : List α) :
    writeAt d xs start ys = xs.take start ++ ys ++ xs.drop (start + ys.length) := by
  rw [writeAt, List.takeD_eq_take d h]

theorem writeAt_nil {xs : List α} {start : Nat} (h : start ≤ xs.length) :
    writeAt d xs start [] = xs := by
  rw [writeAt_of_le d h, List.append_nil, List.length_nil, Nat.add_zero, List.take_append_drop]

/-- A write in two parts: what is there is replaced, and the rest is appended. -/
theorem writeAt_eq_parts {xs : List α} {start : Nat} (h : start ≤ xs.length) (ys : List α) :
    writeAt d xs start ys =
      xs.take start ++ ys.take (xs.length - start) ++
        xs.drop (start + min (xs.length - start) ys.length) ++ ys.drop (xs.length - start) := by
  rw [writeAt_of_le d h]
  by_cases hlen : ys.length ≤ xs.length - start
  · rw [List.take_of_length_le hlen, List.drop_of_length_le hlen, Nat.min_eq_right hlen,
      List.append_nil]
  · have hend : xs.drop (start + ys.length) = [] := List.drop_of_length_le (by omega)
    have hpart : xs.drop (start + (xs.length - start)) = [] := List.drop_of_length_le (by omega)
    rw [Nat.min_eq_left (by omega), hend, hpart, List.append_nil, List.append_nil,
      List.append_assoc, List.take_append_drop]

/-- A write that goes on where the one before it ended. -/
theorem writeAt_writeAt (xs : List α) (start : Nat) (ys zs : List α) :
    writeAt d (writeAt d xs start ys) (start + ys.length) zs =
      writeAt d xs start (ys ++ zs) := by
  have hfront : (xs.takeD start d ++ ys).length = start + ys.length := by
    rw [List.length_append, List.takeD_length]
  have hle : start + ys.length ≤ (writeAt d xs start ys).length := by
    rw [length_writeAt]
    exact Nat.le_max_left ..
  have hdrop : (writeAt d xs start ys).drop (start + ys.length + zs.length) =
      xs.drop (start + (ys ++ zs).length) := by
    rw [writeAt, ← hfront, ← List.drop_drop, List.drop_left, List.drop_drop, hfront,
      List.length_append, Nat.add_assoc]
  rw [writeAt_of_le d hle, hdrop, writeAt, List.take_left' hfront, writeAt, List.append_assoc _ ys]

end GrowingArray
