import Mathlib.Data.List.Nodup
import Mathlib.Logic.Function.Basic

/-!
# Linked lists in a table of successors

A table names for each element the next one, or something that ends the list.
A list that is linked in a table has no element twice, is determined by its
first element, and does not depend on the table elsewhere.
-/

universe u

section

variable {α : Type u} (next : α → α) (stop : α → Prop)

/-- Each element is followed by its successor, and the successor of the last one ends the list. -/
def Linked : List α → Prop
  | [] => True
  | [x] => stop (next x)
  | x :: y :: xs => next x = y ∧ ¬ stop y ∧ Linked (y :: xs)

end

namespace Linked

variable {α : Type u} {next : α → α} {stop : α → Prop} {xs ys : List α} {x y v : α}

theorem tail (h : Linked next stop (x :: xs)) : Linked next stop xs := by
  cases xs with
  | nil => trivial
  | cons y xs => exact h.2.2

theorem drop (h : Linked next stop xs) (n : Nat) : Linked next stop (xs.drop n) := by
  induction n generalizing xs with
  | zero => exact h
  | succ n ih =>
    cases xs with
    | nil => exact h
    | cons x xs => exact ih h.tail

/-- The table is looked up at the elements of the list only. -/
theorem congr {next' : α → α} (h : Linked next stop xs) (heq : ∀ x ∈ xs, next' x = next x) :
    Linked next' stop xs := by
  induction xs with
  | nil => trivial
  | cons x xs ih =>
    have htail := ih h.tail fun y hy => heq y (List.mem_cons_of_mem _ hy)
    have hx := heq x List.mem_cons_self
    cases xs with
    | nil =>
      show stop (next' x)
      rw [hx]
      exact h
    | cons y xs => exact ⟨hx.trans h.1, h.2.1, htail⟩

theorem update [DecidableEq α] (h : Linked next stop xs) (hx : x ∉ xs) :
    Linked (Function.update next x v) stop xs := by
  apply h.congr
  intro y hy
  apply Function.update_of_ne
  rintro rfl
  exact hx hy

/-- Two lists with the same first element are the same. -/
theorem unique (hxs : Linked next stop (x :: xs)) (hys : Linked next stop (x :: ys)) : xs = ys := by
  induction xs generalizing x ys with
  | nil =>
    cases ys with
    | nil => rfl
    | cons y ys => exact absurd (hys.1 ▸ hxs) hys.2.1
  | cons a xs ih =>
    cases ys with
    | nil => exact absurd (hxs.1 ▸ hys) hxs.2.1
    | cons y ys =>
      obtain ⟨rfl, _, hxs⟩ := hxs
      obtain ⟨rfl, _, hys⟩ := hys
      rw [ih hxs hys]

theorem nodup (h : Linked next stop xs) : xs.Nodup := by
  induction xs with
  | nil => exact List.nodup_nil
  | cons x xs ih =>
    rw [List.nodup_cons]
    refine ⟨?_, ih h.tail⟩
    intro hmem
    obtain ⟨as, bs, rfl⟩ := List.append_of_mem hmem
    -- the list from the second occurrence on is the whole list
    have hdrop := h.drop (as.length + 1)
    rw [List.drop_succ_cons, List.drop_left] at hdrop
    have hlen := congrArg List.length (h.unique hdrop)
    rw [List.length_append, List.length_cons] at hlen
    omega

theorem not_stop_of_mem (h : Linked next stop (x :: xs)) : ∀ y ∈ xs, ¬ stop y := by
  induction xs generalizing x with
  | nil => exact fun y hy => absurd hy List.not_mem_nil
  | cons a xs ih =>
    intro y hy
    obtain rfl | hy := List.mem_cons.mp hy
    · exact h.2.1
    · exact ih h.2.2 y hy

/-- The last element is made to point to another list. -/
theorem append [DecidableEq α] (hxs : Linked next stop (xs ++ [x])) (hys : Linked next stop (y :: ys))
    (hy : ¬ stop y) (hmem : x ∉ y :: ys) :
    Linked (Function.update next x y) stop (xs ++ x :: y :: ys) := by
  induction xs with
  | nil => exact ⟨Function.update_self .., hy, hys.update hmem⟩
  | cons a xs ih =>
    have htail := ih hxs.tail
    have hne : a ≠ x := by
      rintro rfl
      have hnodup := hxs.nodup
      rw [List.cons_append, List.nodup_cons] at hnodup
      exact hnodup.1 (List.mem_append_right _ (List.mem_singleton_self a))
    cases xs with
    | nil => exact ⟨by rw [Function.update_of_ne hne]; exact hxs.1, hxs.2.1, htail⟩
    | cons b xs => exact ⟨by rw [Function.update_of_ne hne]; exact hxs.1, hxs.2.1, htail⟩

/-- The list is cut after an element. -/
theorem cut [DecidableEq α] (h : Linked next stop (xs ++ x :: ys)) (hv : stop v) :
    Linked (Function.update next x v) stop (xs ++ [x]) := by
  induction xs with
  | nil =>
    show stop _
    rwa [Function.update_self]
  | cons a xs ih =>
    have htail := ih h.tail
    have hne : a ≠ x := by
      rintro rfl
      have hnodup := h.nodup
      rw [List.cons_append, List.nodup_cons] at hnodup
      exact hnodup.1 (List.mem_append_right _ List.mem_cons_self)
    cases xs with
    | nil => exact ⟨by rw [Function.update_of_ne hne]; exact h.1, h.2.1, htail⟩
    | cons b xs => exact ⟨by rw [Function.update_of_ne hne]; exact h.1, h.2.1, htail⟩

end Linked
