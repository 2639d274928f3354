import Mathlib.Data.Fin.Basic
import Mathlib.Algebra.Order.Group.Nat
import Mathlib.Algebra.Group.Fin.Basic
import Mathlib.Algebra.GroupWithZero.Nat

/-!
# Queues in a ring of cells

The elements of a queue stand in the cells from `head` up to `tail`, around the
end of the ring. Putting one in at the tail and taking one out at the head move
one end each; the two ends meet when the queue is empty and when it is full.
-/

universe u

namespace RingQueue

variable {α : Type u} {n : Nat} [NeZero n]

/-- The `k` cells from `head` on. -/
def cells (arr : Fin n → α) (head : Fin n) : Nat → List α
  | 0 => []
  | k + 1 => arr head :: cells arr (head + 1) k

/-- The cell `k` places after `head`. -/
def cell (head : Fin n) (k : Nat) : Fin n := head + Fin.ofNat n k

variable {arr : Fin n → α} {head tail : Fin n} {l : List α} {x : α}

@[simp] theorem length_cells (arr : Fin n → α) (head : Fin n) (k : Nat) :
    (cells arr head k).length = k := by
  induction k generalizing head with
  | zero => rfl
  | succ k ih => rw [cells, List.length_cons, ih]

@[simp] theorem cell_zero (head : Fin n) : cell head 0 = head := by simp [cell]

theorem cell_succ (head : Fin n) (k : Nat) : cell head (k + 1) = cell head k + 1 := by
  apply Fin.ext
  simp [cell, Fin.val_add, Nat.add_assoc]

theorem cell_next (head : Fin n) (k : Nat) : cell (head + 1) k = cell head (k + 1) := by
  rw [cell_succ, cell, cell, add_right_comm]

theorem cell_val (head : Fin n) (k : Nat) : (cell head k).val = (head.val + k) % n := by
  simp [cell, Fin.val_add]

theorem cell_full (head : Fin n) : cell head n = head := by
  apply Fin.ext
  rw [cell_val, Nat.add_mod_right, Nat.mod_eq_of_lt head.isLt]

theorem cell_ne {k : Nat} (hpos : 0 < k) (hk : k < n) : cell head k ≠ head := by
  intro h
  have hval := congrArg Fin.val h
  rw [cell_val] at hval
  have hlt := head.isLt
  rcases Nat.lt_or_ge (head.val + k) n with h' | h'
  · rw [Nat.mod_eq_of_lt h'] at hval
    omega
  · rw [Nat.mod_eq_sub_mod h', Nat.mod_eq_of_lt (by omega)] at hval
    omega

theorem cells_concat (arr : Fin n → α) (head : Fin n) (k : Nat) :
    cells arr head (k + 1) = cells arr head k ++ [arr (cell head k)] := by
  induction k generalizing head with
  | zero => simp [cells]
  | succ k ih => rw [cells, ih, cells, cell_next, List.cons_append]

/-- A write to a cell behind the queue does not change the queue. -/
theorem cells_update {j k : Nat} (hj : j ≤ k) (hk : k < n) (x : α) :
    cells (Function.update arr (cell head k) x) head j = cells arr head j := by
  induction j generalizing head k with
  | zero => rfl
  | succ j ih =>
    obtain ⟨k, rfl⟩ := Nat.exists_eq_add_of_lt hj
    have hne : head ≠ cell head (j + k + 1) := (cell_ne (Nat.succ_pos _) hk).symm
    rw [cells, cells, Function.update_of_ne hne, ← cell_next, ih (by omega) (by omega)]

/-- The queue `l` stands in the cells from `head` up to `tail`. -/
structure Queued (arr : Fin n → α) (head tail : Fin n) (l : List α) : Prop where
  length_le : l.length ≤ n
  tail_eq : tail = cell head l.length
  cells_eq : cells arr head l.length = l

namespace Queued

theorem nil (arr : Fin n → α) (head : Fin n) : Queued arr head head [] :=
  ⟨Nat.zero_le _, (cell_zero head).symm, rfl⟩

theorem push (h : Queued arr head tail l) (hlt : l.length < n) (x : α) :
    Queued (Function.update arr tail x) head (tail + 1) (l ++ [x]) where
  length_le := by
    rw [List.length_append]
    exact hlt
  tail_eq := by rw [List.length_append, List.length_singleton, cell_succ, ← h.tail_eq]
  cells_eq := by
    rw [List.length_append, List.length_singleton, cells_concat, ← h.tail_eq, Function.update_self]
    rw [h.tail_eq, cells_update (Nat.le_refl _) hlt, h.cells_eq]

theorem head_eq (h : Queued arr head tail (x :: l)) : arr head = x := by
  have hcells := h.cells_eq
  rw [List.length_cons, cells] at hcells
  exact (List.cons.inj hcells).1

theorem pop (h : Queued arr head tail (x :: l)) : Queued arr (head + 1) tail l where
  length_le := (Nat.le_succ _).trans h.length_le
  tail_eq := by rw [h.tail_eq, List.length_cons, cell_next]
  cells_eq := by
    have hcells := h.cells_eq
    rw [List.length_cons, cells] at hcells
    exact (List.cons.inj hcells).2

/-- The two ends are at one place only in an empty and in a full ring. -/
theorem tail_eq_head_iff (h : Queued arr head tail l) :
    tail = head ↔ l.length = 0 ∨ l.length = n := by
  rw [h.tail_eq]
  constructor
  · intro heq
    by_contra hne
    rw [not_or] at hne
    exact cell_ne (Nat.pos_of_ne_zero hne.1) (lt_of_le_of_ne h.length_le hne.2) heq
  · rintro (hzero | hfull)
    · rw [hzero, cell_zero]
    · rw [hfull, cell_full]

/-- The length of a queue that is not empty, from the places of its ends. -/
theorem length_eq (h : Queued arr head tail l) (hpos : 0 < l.length) :
    l.length = if head.val < tail.val then tail.val - head.val else tail.val + n - head.val := by
  have hlt := head.isLt
  have hle := h.length_le
  rw [h.tail_eq, cell_val]
  rcases Nat.lt_or_ge (head.val + l.length) n with hin | hwrap
  · rw [Nat.mod_eq_of_lt hin, if_pos (by omega)]
    omega
  · rw [Nat.mod_eq_sub_mod hwrap, Nat.mod_eq_of_lt (by omega), if_neg (by omega)]
    omega

end Queued

end RingQueue
