import Mathlib.Data.List.Defs
import Mathlib.Data.List.Basic

/-!
# Lists in chunks

`toChunks` cuts a list into parts of the same length; only the last one may be
shorter.
-/

namespace List

universe u

variable {α : Type u} {n : Nat}

/-- A chunk is completed, and the rest is cut from the start. -/
theorem toChunks_go (hn : 0 < n) (xs : List α) {acc : Array α} (hpos : 0 < acc.size)
    (hle : acc.size ≤ n) (chunks : Array (List α)) :
    toChunks.go n xs acc chunks = chunks.toList ++
      (acc.toList ++ xs.take (n - acc.size)) :: (xs.drop (n - acc.size)).toChunks n := by
  induction xs generalizing acc chunks with
  | nil => simp [toChunks.go, toChunks]
  | cons x xs ih =>
    obtain ⟨k, rfl⟩ := Nat.exists_eq_add_of_le' hn
    rw [toChunks.go]
    by_cases hsize : acc.size = k + 1
    · have hnext := @ih #[x] (by simp) (by simp) (chunks.push acc.toList)
      have hstart := @ih #[x] (by simp) (by simp) #[]
      have hfull : (x :: xs).toChunks (k + 1) = toChunks.go (k + 1) xs #[x] #[] := rfl
      rw [if_pos (by simpa using hsize)]
      simp only [hsize, Nat.sub_self, take_zero, append_nil, drop_zero, hfull]
      refine hnext.trans ?_
      rw [hstart]
      simp
    · rw [if_neg (by simpa using hsize), ih (by simp) (by simp; omega)]
      have hsub : k + 1 - acc.size = k + 1 - (acc.size + 1) + 1 := by omega
      rw [hsub]
      simp

theorem toChunks_cons (hn : 0 < n) (x : α) (xs : List α) :
    (x :: xs).toChunks n = (x :: xs).take n :: ((x :: xs).drop n).toChunks n := by
  obtain ⟨k, rfl⟩ := Nat.exists_eq_add_of_le' hn
  have hgo := @toChunks_go _ _ hn xs #[x] (by simp) (by simp) #[]
  exact hgo

theorem toChunks_flatten (hn : 0 < n) (xs : List α) : (xs.toChunks n).flatten = xs := by
  induction h : xs.length using Nat.strongRecOn generalizing xs with
  | _ len ih =>
    cases xs with
    | nil => rfl
    | cons x xs =>
      rw [toChunks_cons hn, flatten_cons, ih _ ?_ _ rfl, take_append_drop]
      rw [length_drop, ← h, length_cons]
      omega

/-- The chunks of a list that is cut evenly. -/
theorem toChunks_of_length_mul (hn : 0 < n) {m : Nat} {xs : List α} (h : xs.length = n * m) :
    (xs.toChunks n).length = m ∧ ∀ chunk ∈ xs.toChunks n, chunk.length = n := by
  induction m generalizing xs with
  | zero =>
    cases length_eq_zero_iff.mp h
    exact ⟨rfl, fun _ hc => absurd hc not_mem_nil⟩
  | succ m ih =>
    cases xs with
    | nil =>
      rw [length_nil, Nat.mul_succ] at h
      omega
    | cons x xs =>
      rw [Nat.mul_succ] at h
      obtain ⟨hlen, hchunks⟩ := @ih ((x :: xs).drop n) (by rw [length_drop]; omega)
      rw [toChunks_cons hn]
      refine ⟨by rw [length_cons, hlen], forall_mem_cons.mpr ⟨?_, hchunks⟩⟩
      rw [length_take]
      omega

end List
