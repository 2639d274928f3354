import Mathlib.Logic.Function.Basic
import Mathlib.Data.List.Range
import Mathlib.Algebra.GroupWithZero.Nat

/-!
# Arrays whose indices wrap

An array over all indices below a modulus `m`, written element after element
from an index on. Writing one list after another is writing their
concatenation; a list that does not reach `m` replaces a range.
-/

namespace FlatArray

universe u

variable {α : Type u} {m : Nat}

def put (m : Nat) (v : Nat → α) : (start : Nat) → List α → Nat → α
  | _, [] => v
  | start, x :: xs => put m (Function.update v start x) ((start + 1) % m) xs

/-- Where the element after a list of length `n` goes. -/
def stop (m start n : Nat) : Nat := (start + n) % m

theorem stop_stop (start n k : Nat) : stop m (stop m start n) k = stop m start (n + k) := by
  simp [stop, Nat.add_assoc]

theorem stop_lt (hm : 0 < m) (start n : Nat) : stop m start n < m := Nat.mod_lt _ hm

theorem stop_zero {start : Nat} (h : start < m) : stop m start 0 = start := Nat.mod_eq_of_lt h

theorem put_append (v : Nat → α) {start : Nat} (h : start < m) (xs ys : List α) :
    put m v start (xs ++ ys) = put m (put m v start xs) (stop m start xs.length) ys := by
  induction xs generalizing v start with
  | nil => rw [List.length_nil, stop_zero h, List.nil_append, put]
  | cons x xs ih =>
    have hm : 0 < m := by omega
    rw [List.cons_append, put, ih _ (Nat.mod_lt _ hm), put]
    congr 1
    rw [List.length_cons, Nat.add_comm xs.length, ← stop_stop]
    rfl

/-- The range that a list replaces. -/
theorem put_apply (v : Nat → α) {start : Nat} {xs : List α} (h : start + xs.length ≤ m) (i : Nat)
    (d : α) : put m v start xs i =
      if start ≤ i ∧ i < start + xs.length then xs.getD (i - start) d else v i := by
  induction xs generalizing v start with
  | nil =>
    rw [List.length_nil, if_neg (by omega)]
    rfl
  | cons x xs ih =>
    rw [List.length_cons] at h
    rw [put]
    by_cases hxs : xs = []
    · subst hxs
      by_cases hi : i = start
      · subst hi
        simp [put]
      · rw [put, Function.update_of_ne hi, if_neg (by simp; omega)]
    · have hlen : 0 < xs.length := List.length_pos_iff.mpr hxs
      rw [Nat.mod_eq_of_lt (by omega), ih _ (by omega), List.length_cons]
      by_cases hi : i = start
      · subst hi
        simp
      · rw [Function.update_of_ne hi]
        by_cases hin : start + 1 ≤ i ∧ i < start + 1 + xs.length
        · obtain ⟨k, rfl⟩ : ∃ k, i = start + 1 + k := ⟨i - (start + 1), by omega⟩
          have hk : start + 1 + k - start = k + 1 := by omega
          rw [if_pos hin, if_pos (by omega), hk, List.getD_cons_succ, Nat.add_sub_cancel_left]
        · rw [if_neg hin, if_neg (by omega)]

theorem put_of_forall_ne (v : Nat → α) {start j : Nat} {xs : List α} (hs : start < m)
    (h : ∀ i < xs.length, (start + i) % m ≠ j) : put m v start xs j = v j := by
  induction xs generalizing v start with
  | nil => rfl
  | cons x xs ih =>
    have hstart := h 0 (Nat.zero_lt_succ _)
    rw [Nat.add_zero, Nat.mod_eq_of_lt hs] at hstart
    rw [put, ih _ (Nat.mod_lt _ (Nat.zero_lt_of_lt hs)) fun i hi => ?_,
      Function.update_of_ne hstart.symm]
    rw [Nat.mod_add_mod, Nat.add_assoc, Nat.add_comm 1]
    exact h (i + 1) (Nat.succ_lt_succ hi)

/-- Where a second array shows that nothing was put. -/
theorem put_of_put_none {v : Nat → α} {g : Nat → Option α} {xs : List α} {start i : Nat}
    (h : put m g start (xs.map some) i = none) : g i = none ∧ put m v start xs i = v i := by
  induction xs generalizing v g start with
  | nil => exact ⟨h, rfl⟩
  | cons x xs ih =>
    obtain ⟨hg, hv⟩ := @ih (Function.update v start x) _ _ h
    have hne : i ≠ start := by
      rintro rfl
      rw [Function.update_self] at hg
      cases hg
    rw [Function.update_of_ne hne] at hg
    rw [put, hv, Function.update_of_ne hne]
    exact ⟨hg, rfl⟩

/-- The array tells what was written. -/
theorem put_injective {v : Nat → α} {start : Nat} {xs ys : List α} (hs : start < m)
    (hlen : xs.length = ys.length) (hm : xs.length ≤ m)
    (h : put m v start xs = put m v start ys) : xs = ys := by
  induction xs generalizing v start ys with
  | nil => exact (List.length_eq_zero_iff.mp hlen.symm).symm
  | cons x xs ih =>
    cases ys with
    | nil => cases hlen
    | cons y ys =>
      rw [List.length_cons, List.length_cons, Nat.succ.injEq] at hlen
      rw [List.length_cons] at hm
      have hnext : (start + 1) % m < m := Nat.mod_lt _ (Nat.zero_lt_of_lt hs)
      -- the elements after the first one are not put in its place
      have hne : ∀ i < xs.length, ((start + 1) % m + i) % m ≠ start := by
        intro i hi
        rw [Nat.mod_add_mod]
        by_cases hwrap : start + 1 + i < m
        · rw [Nat.mod_eq_of_lt hwrap]
          omega
        · rw [Nat.mod_eq_sub_mod (not_lt.mp hwrap), Nat.mod_eq_of_lt (by omega)]
          omega
      have hhead : x = y := by
        have hstart := congrFun h start
        rw [put, put, put_of_forall_ne _ hnext hne, put_of_forall_ne _ hnext (hlen ▸ hne),
          Function.update_self, Function.update_self] at hstart
        exact hstart
      subst hhead
      rw [ih hnext hlen (by omega) h]

/-- The last element of a list is in the array. -/
theorem exists_put_eq (v : Nat → α) (start : Nat) {xs : List α} (h : xs ≠ []) :
    ∃ i, ∃ x ∈ xs, put m v start xs i = x := by
  induction xs generalizing v start with
  | nil => exact absurd rfl h
  | cons x xs ih =>
    by_cases hxs : xs = []
    · subst hxs
      exact ⟨start, x, List.mem_cons_self, Function.update_self ..⟩
    · obtain ⟨i, y, hy, hi⟩ := ih (Function.update v start x) ((start + 1) % m) hxs
      exact ⟨i, y, List.mem_cons_of_mem _ hy, hi⟩

/-- A range of an array. -/
def slice (v : Nat → α) (start n : Nat) : List α := (List.range' start n).map v

@[simp] theorem length_slice (v : Nat → α) (start n : Nat) : (slice v start n).length = n := by
  simp [slice]

theorem getD_slice (v : Nat → α) (start n i : Nat) (d : α) :
    (slice v start n).getD i d = if i < n then v (start + i) else d := by
  split
  · next hi => simp [slice, hi]
  · next hi => simp [slice, hi]

theorem slice_append (v : Nat → α) (start n k : Nat) :
    slice v start n ++ slice v (start + n) k = slice v start (n + k) := by
  rw [slice, slice, slice, ← List.map_append, List.range'_append_1]

theorem slice_shift (v : Nat → α) (k start n : Nat) :
    slice (fun j => v (k + j)) start n = slice v (k + start) n := by
  rw [slice, slice, ← List.map_add_range', List.map_map]
  rfl

theorem slice_congr {v w : Nat → α} {start n : Nat}
    (h : ∀ i, start ≤ i → i < start + n → v i = w i) : slice v start n = slice w start n := by
  apply List.map_congr_left
  intro i hi
  rw [List.mem_range'_1] at hi
  exact h i hi.1 hi.2

end FlatArray
