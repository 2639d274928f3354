import Mathlib.Data.List.GetD

/-!
# Logs of writes

Lists of values are written to an array, each from an index on. The value at an
index is that of the last write that covers it, and the array ends behind the
write that goes furthest.
-/

namespace WriteLog

variable {α : Type*} {i : Nat} {ws ws' : List (Nat × List α)}

/-- What a write leaves at an index. -/
def value (i : Nat) (w : Nat × List α) : Option α := if w.1 ≤ i then w.2[i - w.1]? else none

def last (i : Nat) (ws : List (Nat × List α)) : Option α := ws.reverse.findSome? (value i)

/-- The size of an array that had `n` values. -/
def extent (n : Nat) (ws : List (Nat × List α)) : Nat :=
  ws.foldl (fun n w => max n (w.1 + w.2.length)) n

@[simp] theorem last_nil : last i ([] : List (Nat × List α)) = none := rfl

@[simp] theorem extent_nil (n : Nat) : extent n ([] : List (Nat × List α)) = n := rfl

theorem last_append : last i (ws ++ ws') = (last i ws').or (last i ws) := by
  rw [last, List.reverse_append, List.findSome?_append, last, last]

theorem extent_append (n : Nat) : extent n (ws ++ ws') = extent (extent n ws) ws' :=
  List.foldl_append

@[simp] theorem last_singleton (w : Nat × List α) : last i [w] = value i w := by
  rw [last, List.reverse_singleton, List.findSome?_singleton]

@[simp] theorem extent_singleton (n : Nat) (w : Nat × List α) :
    extent n [w] = max n (w.1 + w.2.length) := rfl

theorem getD_value (start : Nat) (xs : List α) (x y : α) :
    (value i (start, xs)).getD x =
      if start ≤ i ∧ i < start + xs.length then xs.getD (i - start) y else x := by
  by_cases hle : start ≤ i
  · by_cases hlt : i < start + xs.length
    · have hin : i - start < xs.length := by omega
      rw [value, if_pos hle, if_pos ⟨hle, hlt⟩, List.getD_eq_getElem _ _ hin,
        List.getElem?_eq_getElem hin]
      rfl
    · have hout : xs.length ≤ i - start := by omega
      rw [value, if_pos hle, if_neg fun h => hlt h.2, List.getElem?_eq_none hout]
      rfl
  · rw [value, if_neg hle, if_neg fun h => hle h.1]
    rfl

theorem last_cons (w : Nat × List α) : last i (w :: ws) = (last i ws).or (value i w) := by
  rw [← List.singleton_append, last_append, last_singleton]

theorem le_extent (n : Nat) (ws : List (Nat × List α)) : n ≤ extent n ws := by
  induction ws generalizing n with
  | nil => exact Nat.le_refl n
  | cons w ws ih => exact Nat.le_trans (Nat.le_max_left ..) (ih _)

theorem value_lt {w : Nat × List α} {x : α} (h : value i w = some x) : i < w.1 + w.2.length := by
  rw [value] at h
  split at h
  · obtain ⟨hlt, -⟩ := List.getElem?_eq_some_iff.mp h
    omega
  · cases h

/-- What is written is in the array. -/
theorem lt_extent {x : α} (n : Nat) (h : last i ws = some x) : i < extent n ws := by
  induction ws generalizing n with
  | nil => cases h
  | cons w ws ih =>
    rw [last_cons, Option.or_eq_some_iff] at h
    obtain h | ⟨-, h⟩ := h
    · exact ih _ h
    · exact Nat.lt_of_lt_of_le (value_lt h)
        (Nat.le_trans (Nat.le_max_right ..) (le_extent _ ws))

end WriteLog
