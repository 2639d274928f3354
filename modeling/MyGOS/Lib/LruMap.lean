import Mathlib.Data.List.AList

/-!
# A map that remembers the order of use

The entries of an association list, most recently used first. `get` and `put`
move a key to the front; `pop_lru` drops the last entry. What a lookup sees is
independent of the order.
-/

universe u v

abbrev LruMap (κ : Type u) (ν : Type v) := AList fun _ : κ => ν

namespace LruMap

variable {κ : Type u} {ν : Type v}

def len (m : LruMap κ ν) : Nat := m.entries.length

def peek_lru (m : LruMap κ ν) : Option (Sigma fun _ : κ => ν) := m.entries.getLast?

def pop_lru (m : LruMap κ ν) : LruMap κ ν where
  entries := m.entries.dropLast
  nodupKeys := m.nodupKeys.sublist m.entries.dropLast_sublist

section

variable {m : LruMap κ ν} {e : Sigma fun _ : κ => ν}

theorem exists_peek_lru (h : 0 < m.len) : ∃ e, m.peek_lru = some e :=
  Option.isSome_iff_exists.mp (List.getLast?_isSome.mpr (List.ne_nil_of_length_pos h))

theorem entries_pop_lru (h : m.peek_lru = some e) : m.entries = m.pop_lru.entries ++ [e] :=
  (List.dropLast_append_getLast? e h).symm

theorem len_pop_lru : m.pop_lru.len = m.len - 1 := by
  simp [pop_lru, len]

end

section

variable [DecidableEq κ]

/-- A hit makes the key the most recently used one. -/
def get (m : LruMap κ ν) (k : κ) : Option ν × LruMap κ ν :=
  match m.lookup k with
  | none => (none, m)
  | some v => (some v, m.insert k v)

def put (m : LruMap κ ν) (k : κ) (v : ν) : LruMap κ ν := m.insert k v

variable {m : LruMap κ ν} {k k' : κ} {v : ν} {e : Sigma fun _ : κ => ν}

theorem lookup_put : (m.put k v).lookup k' = if k' = k then some v else m.lookup k' := by
  by_cases h : k' = k
  · subst h
    simp [put]
  · simp [put, h]

theorem get_fst : (m.get k).1 = m.lookup k := by
  unfold get
  split <;> rename_i h <;> exact h.symm

theorem lookup_get : (m.get k).2.lookup k' = m.lookup k' := by
  unfold get
  split
  · rfl
  · rename_i v hv
    by_cases h : k' = k
    · subst h
      simp [hv]
    · simp [h]

theorem len_put (h : m.lookup k = none) : (m.put k v).len = m.len + 1 := by
  rw [put, len, AList.entries_insert_of_notMem (AList.lookup_eq_none.mp h), List.length_cons, len]

theorem len_get : (m.get k).2.len = m.len := by
  unfold get
  split
  · rfl
  · rename_i v hv
    have hmem : k ∈ m := AList.lookup_isSome.mp (by simp [hv])
    have hlen := congrArg List.length (AList.keys_insert (b := v) (a := k) m)
    rw [List.length_cons, List.length_erase_of_mem (AList.mem_keys.mp hmem)] at hlen
    have hpos : 0 < m.keys.length := List.length_pos_of_mem (AList.mem_keys.mp hmem)
    simp only [AList.keys, List.keys, List.length_map] at hlen hpos
    simp only [len]
    omega

theorem lookup_peek_lru (h : m.peek_lru = some e) : m.lookup e.1 = some e.2 :=
  AList.mem_lookup_iff.mpr (List.mem_of_getLast? h)

theorem lookup_pop_lru (h : m.peek_lru = some e) :
    m.pop_lru.lookup k = if k = e.1 then none else m.lookup k := by
  have hentries := entries_pop_lru h
  have hnodup := m.nodupKeys
  rw [hentries, List.NodupKeys, List.keys, List.map_append, List.nodup_append] at hnodup
  by_cases hk : k = e.1
  · rw [if_pos hk, AList.lookup_eq_none]
    intro hmem
    exact hnodup.2.2 k (AList.mem_keys.mp hmem) e.1 (by simp) hk
  · rw [if_neg hk]
    apply Option.ext
    intro v
    show v ∈ m.pop_lru.lookup k ↔ v ∈ m.lookup k
    rw [AList.mem_lookup_iff, AList.mem_lookup_iff, hentries, List.mem_append,
      List.mem_singleton]
    constructor
    · exact Or.inl
    · rintro (hmem | rfl)
      · exact hmem
      · exact absurd rfl hk

end

end LruMap
