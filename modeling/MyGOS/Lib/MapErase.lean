import Mathlib.Data.List.AList

/-!
# Erasing keys of a map, and counting its values
-/

namespace MapErase

universe u v

variable {κ : Type u} {ν : Type v} [DecidableEq κ] {m : AList fun _ : κ => ν} {k : κ} {v : ν}

theorem mem_entries_iff : ⟨k, v⟩ ∈ m.entries ↔ m.lookup k = some v := by
  rw [← AList.mem_lookup_iff]
  rfl

theorem lookup_foldl_erase (es : List (Sigma fun _ : κ => ν)) (m : AList fun _ : κ => ν) (k : κ) :
    (es.foldl (fun c e => c.erase e.1) m).lookup k =
      if k ∈ es.map Sigma.fst then none else m.lookup k := by
  induction es generalizing m with
  | nil => simp
  | cons e es ih =>
    rw [List.foldl_cons, ih]
    by_cases hk : k = e.1
    · subst hk
      simp
    · have hmem : k ∈ (e :: es).map Sigma.fst ↔ k ∈ es.map Sigma.fst := by
        rw [List.map_cons, List.mem_cons, or_iff_right hk]
      rw [AList.lookup_erase_ne hk]
      exact (if_congr hmem rfl rfl).symm

/-- The entries that a predicate on the values picks. -/
theorem lookup_erase_filter (P : ν → Prop) [DecidablePred P] :
    ((m.entries.filter fun e => P e.2).foldl (fun c e => c.erase e.1) m).lookup k =
      (m.lookup k).filter fun v => ¬ P v := by
  rw [lookup_foldl_erase]
  cases hv : m.lookup k with
  | none => simp
  | some v =>
    have hmem : (k ∈ (m.entries.filter fun e => P e.2).map Sigma.fst) ↔ P v := by
      constructor
      · intro h
        obtain ⟨⟨k', w⟩, hw, rfl⟩ := List.mem_map.mp h
        obtain ⟨hw, hP⟩ := List.mem_filter.mp hw
        cases (mem_entries_iff.mp hw).symm.trans hv
        simpa using hP
      · intro hP
        refine List.mem_map.mpr ⟨⟨k, v⟩, List.mem_filter.mpr ⟨mem_entries_iff.mpr hv, ?_⟩, rfl⟩
        simpa using hP
    by_cases hP : P v
    · simp [hmem, hP, Option.filter]
    · simp [hmem, hP, Option.filter]

theorem mem_values (h : m.lookup k = some v) : v ∈ m.entries.map Sigma.snd :=
  List.mem_map.mpr ⟨⟨k, v⟩, mem_entries_iff.mpr h, rfl⟩

end MapErase
