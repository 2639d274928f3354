import Mathlib.Algebra.BigOperators.Group.Finset.Basic
import Mathlib.Algebra.Order.BigOperators.Group.Finset
import Mathlib.Data.List.Perm.Basic
import Mathlib.Data.Nat.Find

/-!
# A list in portions

A cursor hands out a list in portions, each with a capacity of its own. A reader
that stops at the first empty portion has the whole list, unless a capacity was
zero before the end.
-/

namespace MyGOS

open Finset

variable {α : Type*}

/-- What is handed out before the portion `i`. -/
def consumed (cap : Nat → Nat) (i : Nat) : Nat := ∑ j ∈ range i, cap j

/-- The portion `i` of a list. -/
def portion (items : List α) (cap : Nat → Nat) (i : Nat) : List α :=
  (items.drop (consumed cap i)).take (cap i)

/-- The portions before the first empty one have each item once. -/
def ReadsAll (items : List α) (portions : Nat → List α) : Prop :=
  ∃ m, portions m = [] ∧ (∀ i < m, portions i ≠ []) ∧
    ((List.range m).flatMap portions).Perm items

section Consumed

variable (cap : Nat → Nat)

theorem consumed_zero : consumed cap 0 = 0 := sum_range_zero cap

theorem consumed_succ (i : Nat) : consumed cap (i + 1) = consumed cap i + cap i :=
  sum_range_succ cap i

theorem consumed_mono : Monotone (consumed cap) := by
  apply monotone_nat_of_le_succ
  intro i
  rw [consumed_succ]
  exact Nat.le_add_right _ _

theorem le_consumed {n : Nat} (h : ∀ i < n, cap i ≠ 0) : n ≤ consumed cap n := by
  induction n with
  | zero => exact Nat.zero_le _
  | succ n ih =>
    have hn := h n (Nat.lt_succ_self n)
    have hle := ih fun i hi => h i (Nat.lt_succ_of_lt hi)
    rw [consumed_succ]
    omega

end Consumed

variable (items : List α) (cap : Nat → Nat)

theorem portion_eq_nil {i : Nat} :
    portion items cap i = [] ↔ cap i = 0 ∨ items.length ≤ consumed cap i := by
  rw [portion, List.take_eq_nil_iff, List.drop_eq_nil_iff]

theorem flatMap_portion (m : Nat) :
    (List.range m).flatMap (portion items cap) = items.take (consumed cap m) := by
  induction m with
  | zero => rw [consumed_zero, List.take_zero, List.range_zero, List.flatMap_nil]
  | succ m ih =>
    rw [List.range_succ, List.flatMap_append, ih, List.flatMap_singleton, portion, consumed_succ,
      List.take_add]

/-- A portion without room is not before the end. -/
theorem ReadsAll.le_consumed {items : List α} {portions : Nat → List α} {cap : Nat → Nat}
    (h : ReadsAll items portions) (hcap : ∀ i, (portions i).length ≤ cap i) {i : Nat}
    (hi : cap i = 0) : items.length ≤ consumed cap i := by
  obtain ⟨m, -, hne, hperm⟩ := h
  have hlen : ∀ n, ((List.range n).flatMap portions).length ≤ consumed cap n := by
    intro n
    induction n with
    | zero => exact Nat.zero_le _
    | succ n ih =>
      have hn := hcap n
      rw [List.range_succ, List.flatMap_append, List.flatMap_singleton, List.length_append,
        consumed_succ]
      omega
  have hm : m ≤ i := by
    by_contra hlt
    have hle := hcap i
    rw [hi] at hle
    exact hne i (not_le.mp hlt) (List.length_eq_zero_iff.mp (Nat.le_zero.mp hle))
  exact hperm.length_eq ▸ (hlen m).trans (consumed_mono cap hm)

/-- The reader has the whole list, unless a capacity was zero before the end. -/
theorem readsAll_portion_iff : ReadsAll items (portion items cap) ↔
    ∀ i, cap i = 0 → items.length ≤ consumed cap i := by
  constructor
  · intro h i hi
    refine h.le_consumed (fun j => ?_) hi
    rw [portion, List.length_take]
    exact Nat.min_le_left _ _
  · intro h
    have hex : ∃ m, items.length ≤ consumed cap m := by
      by_cases hzero : ∃ i, cap i = 0
      · obtain ⟨i, hi⟩ := hzero
        exact ⟨i, h i hi⟩
      · exact ⟨_, le_consumed cap fun i _ hi => hzero ⟨i, hi⟩⟩
    refine ⟨Nat.find hex, (portion_eq_nil items cap).mpr (.inr (Nat.find_spec hex)), ?_, ?_⟩
    · intro i hi hnil
      have hlt := Nat.find_min hex hi
      exact hlt (((portion_eq_nil items cap).mp hnil).elim (h i) id)
    · rw [flatMap_portion, List.take_of_length_le (Nat.find_spec hex)]

end MyGOS
