import Mathlib.Algebra.BigOperators.Group.List.Basic
import Mathlib.Data.List.AList
import Mathlib.Algebra.GroupWithZero.Nat

/-!
# Sums over the values of a map

`total f m` adds up `f` over the values of a finite map. An update changes the
sum by the difference at its key.
-/

namespace MapTotal

universe u v

variable {κ : Type u} {ν : Type v} [DecidableEq κ] {f : ν → Nat} {m : AList fun _ : κ => ν}
  {k : κ} {v w : ν}

def total (f : ν → Nat) (m : AList fun _ : κ => ν) : Nat := (m.entries.map fun e => f e.2).sum

omit [DecidableEq κ] in
theorem total_empty : total f (∅ : AList fun _ : κ => ν) = 0 := rfl

theorem total_erase_of_none (h : m.lookup k = none) : total f (m.erase k) = total f m := by
  have hnot : k ∉ m.entries.keys := AList.lookup_eq_none.mp h
  show (((m.entries.kerase k).map fun e => f e.2).sum) = _
  rw [List.kerase_of_notMem_keys hnot]
  rfl

/-- The value at a key, and the rest. -/
theorem total_erase (h : m.lookup k = some v) : total f m = f v + total f (m.erase k) := by
  have hmem : k ∈ m.entries.keys := AList.lookup_isSome.mp (by rw [h]; rfl)
  obtain ⟨w, l₁, l₂, _, hentries, hkerase⟩ := List.exists_of_kerase hmem
  have hw : w = v := by
    have hlookup : m.lookup k = some w := AList.mem_lookup_iff.mpr (by rw [hentries]; simp)
    exact Option.some.inj (hlookup.symm.trans h)
  show (m.entries.map fun e => f e.2).sum = f v + ((m.entries.kerase k).map fun e => f e.2).sum
  rw [hkerase, hentries, hw]
  simp only [List.map_append, List.map_cons, List.sum_append, List.sum_cons]
  omega

theorem total_insert : total f (m.insert k v) = f v + total f (m.erase k) := by
  show (((m.entries.kinsert k v).map fun e => f e.2).sum) = _
  rw [List.kinsert_def, List.map_cons, List.sum_cons]
  rfl

/-- A new value in the place of an old one. -/
theorem total_insert_of_some (h : m.lookup k = some w) :
    total f (m.insert k v) + f w = total f m + f v := by
  rw [total_insert, total_erase h]
  omega

theorem total_insert_of_none (h : m.lookup k = none) :
    total f (m.insert k v) = f v + total f m := by
  rw [total_insert, total_erase_of_none h]

theorem le_total (h : m.lookup k = some v) : f v ≤ total f m := by
  rw [total_erase h]
  exact Nat.le_add_right _ _

/-- Two keys count twice. -/
theorem add_le_total {k' : κ} (h : m.lookup k = some v) (h' : m.lookup k' = some w)
    (hne : k ≠ k') : f v + f w ≤ total f m := by
  rw [total_erase h]
  have hle := le_total (f := f) ((AList.lookup_erase_ne (s := m) hne.symm).trans h')
  omega

theorem exists_of_total_pos (h : 0 < total f m) : ∃ k v, m.lookup k = some v ∧ 0 < f v := by
  by_contra hnot
  have hzero : ∀ n ∈ m.entries.map fun e => f e.2, n = 0 := by
    intro n hn
    obtain ⟨⟨k, v⟩, he, rfl⟩ := List.mem_map.mp hn
    by_contra hpos
    exact hnot ⟨k, v, AList.mem_lookup_iff.mpr he, Nat.pos_of_ne_zero hpos⟩
  have := List.sum_eq_zero hzero
  unfold total at h
  omega

end MapTotal
