import MyGOS.Basic
import MyGOS.Lib.Outcome

/-!
# User buffers

A buffer of the user comes as the slices of the pages it lies on. Its iterator
gives out the place of one byte after another.
-/

namespace MyGOS.Mm

open Outcome

structure UserBufferIterator where
  buffers : List (List UInt8)
  current_buffer : Nat := 0
  current_idx : Nat := 0
deriving DecidableEq, Repr

namespace UserBufferIterator

/-- The place of the next byte. The first byte of a slice is looked up even when the slice has none. -/
def next (it : UserBufferIterator) : Except Panic (Option (Nat × Nat) × UserBufferIterator) :=
  match it.buffers[it.current_buffer]? with
  | none => .ok (none, it)
  | some slice =>
    if it.current_idx < slice.length then
      .ok (some (it.current_buffer, it.current_idx),
        if it.current_idx + 1 = slice.length then
          { it with current_idx := 0, current_buffer := it.current_buffer + 1 }
        else { it with current_idx := it.current_idx + 1 })
    else .error .outOfBounds

/-- `*byte_ref` as a value. -/
def load (it : UserBufferIterator) (place : Nat × Nat) : UInt8 :=
  (it.buffers.getD place.1 []).getD place.2 0

/-- `*byte_ref = byte`. -/
def store (it : UserBufferIterator) (place : Nat × Nat) (byte : UInt8) : UserBufferIterator :=
  { it with
    buffers := it.buffers.set place.1 ((it.buffers.getD place.1 []).set place.2 byte) }

/-- The bytes of the whole buffer. -/
def bytes (it : UserBufferIterator) : List UInt8 := it.buffers.flatten

/-- The iterator has given out the first `k` bytes. -/
structure At (it : UserBufferIterator) (k : Nat) : Prop where
  idx : it.current_idx = 0 ∨
    ∃ n ∈ (it.buffers.map List.length)[it.current_buffer]?, it.current_idx < n
  passed : ((it.buffers.map List.length).take it.current_buffer).sum + it.current_idx = k

variable {it : UserBufferIterator} {k i j : Nat} {slice : List UInt8}

theorem split_buffers {buffers : List (List UInt8)} (h : buffers[i]? = some slice) :
    ∃ front back, buffers = front ++ slice :: back ∧ front.length = i := by
  obtain ⟨hlt, hslice⟩ := List.getElem?_eq_some_iff.mp h
  refine ⟨buffers.take i, buffers.drop (i + 1), ?_, List.length_take_of_le (Nat.le_of_lt hlt)⟩
  rw [← hslice, List.getElem_cons_drop, List.take_append_drop]

theorem At.start (buffers : List (List UInt8)) : At ⟨buffers, 0, 0⟩ 0 := ⟨.inl rfl, rfl⟩

theorem At.next_none (h : it.At k) (hnone : it.buffers[it.current_buffer]? = none) :
    it.bytes.length = k := by
  have hle : it.buffers.length ≤ it.current_buffer := List.getElem?_eq_none_iff.mp hnone
  have hpassed := h.passed
  rw [List.take_of_length_le (by rwa [List.length_map]), ← List.length_flatten] at hpassed
  rcases h.idx with hidx | ⟨n, hn, _⟩
  · rw [hidx] at hpassed
    exact hpassed
  · rw [List.getElem?_map, hnone] at hn
    cases hn

/-- The bytes around the place the iterator stands at. -/
theorem At.split (h : it.At k) (hslice : it.buffers[it.current_buffer]? = some slice) :
    ∃ front back, it.buffers = front ++ slice :: back ∧ front.length = it.current_buffer ∧
      front.flatten.length + it.current_idx = k := by
  obtain ⟨front, back, hbuffers, hlen⟩ := split_buffers hslice
  have hpassed := h.passed
  rw [hbuffers, ← hlen, List.map_append, ← List.length_map (f := List.length), List.take_left,
    ← List.length_flatten] at hpassed
  exact ⟨front, back, hbuffers, hlen, hpassed⟩

theorem At.le_length (h : it.At k) : k ≤ it.bytes.length := by
  cases hslice : it.buffers[it.current_buffer]? with
  | none => exact Nat.le_of_eq (h.next_none hslice).symm
  | some slice =>
    obtain ⟨front, back, hbuffers, hlen, rfl⟩ := h.split hslice
    have hle : it.current_idx ≤ slice.length := by
      rcases h.idx with hidx | ⟨n, hn, hidx⟩
      · rw [hidx]
        exact Nat.zero_le _
      · rw [List.getElem?_map, hslice] at hn
        cases hn
        exact Nat.le_of_lt hidx
    rw [bytes, hbuffers, List.flatten_append, List.length_append, List.flatten_cons,
      List.length_append]
    omega

theorem At.load (h : it.At k) (hslice : it.buffers[it.current_buffer]? = some slice)
    (hidx : it.current_idx < slice.length) :
    it.bytes[k]? = some (it.load (it.current_buffer, it.current_idx)) := by
  obtain ⟨front, back, hbuffers, hlen, rfl⟩ := h.split hslice
  have hload : it.load (it.current_buffer, it.current_idx) = slice[it.current_idx] := by
    simp [UserBufferIterator.load, hslice, hidx]
  rw [hload, bytes, hbuffers, List.flatten_append, List.getElem?_append_right (Nat.le_add_right ..),
    Nat.add_sub_cancel_left, List.flatten_cons, List.getElem?_append_left hidx,
    List.getElem?_eq_getElem hidx]

theorem At.store (h : it.At k) (hslice : it.buffers[it.current_buffer]? = some slice)
    (hidx : it.current_idx < slice.length) (byte : UInt8) :
    (it.store (it.current_buffer, it.current_idx) byte).bytes = it.bytes.set k byte := by
  obtain ⟨front, back, hbuffers, hlen, rfl⟩ := h.split hslice
  have hslice' : it.buffers.getD it.current_buffer [] = slice := by simp [hslice]
  simp only [bytes, UserBufferIterator.store, hslice']
  rw [hbuffers, ← hlen, List.set_append_right _ _ (Nat.le_refl _), Nat.sub_self,
    List.set_cons_zero, List.flatten_append, List.flatten_append,
    List.set_append_right _ _ (Nat.le_add_right ..), Nat.add_sub_cancel_left, List.flatten_cons,
    List.flatten_cons, List.set_append_left _ _ hidx]

theorem map_length_store (it : UserBufferIterator) (place : Nat × Nat) (byte : UInt8) :
    (it.store place byte).buffers.map List.length = it.buffers.map List.length := by
  simp only [UserBufferIterator.store, List.map_set, List.length_set]
  by_cases hlt : place.1 < it.buffers.length
  · have hlt' : place.1 < (it.buffers.map List.length).length := by rwa [List.length_map]
    have hlength : (it.buffers.getD place.1 []).length = (it.buffers.map List.length)[place.1] := by
      simp [hlt]
    rw [hlength, List.set_getElem_self]
  · rw [List.set_eq_of_length_le (by rw [List.length_map]; exact Nat.le_of_not_lt hlt)]

/-- What comes after the byte at place `k`. -/
structure Next (it : UserBufferIterator) (k : Nat) (place : Nat × Nat) (it' : UserBufferIterator) :
    Prop where
  buffers : it'.buffers = it.buffers
  at_succ : it'.At (k + 1)
  load : it.bytes[k]? = some (it'.load place)
  store : ∀ byte, (it'.store place byte).bytes = it.bytes.set k byte

theorem Next.at_store {place : Nat × Nat} {it' : UserBufferIterator} (h : Next it k place it')
    (byte : UInt8) : (it'.store place byte).At (k + 1) := by
  have hlen := map_length_store it' place byte
  exact ⟨by rw [hlen]; exact h.at_succ.idx, by rw [hlen]; exact h.at_succ.passed⟩

theorem At.next_meets (h : it.At k) : Meets it.next (· = .outOfBounds) fun r =>
    match r.1 with
    | none => r.2 = it ∧ it.bytes.length = k
    | some place => it.Next k place r.2 := by
  unfold next
  split
  · next hnone => exact ⟨rfl, h.next_none hnone⟩
  · next slice hslice =>
    split
    · next hidx =>
      have hload := h.load hslice hidx
      have hstore := h.store hslice hidx
      have hlength : (it.buffers.map List.length)[it.current_buffer]? = some slice.length := by
        rw [List.getElem?_map, hslice, Option.map_some]
      simp only [meets_ok]
      split
      · next hlast =>
        refine ⟨rfl, ⟨.inl rfl, ?_⟩, hload, hstore⟩
        rw [List.take_add_one, hlength, Option.toList_some, List.sum_append, List.sum_singleton,
          ← h.passed, ← hlast]
        rfl
      · next hlast =>
        refine ⟨rfl, ⟨.inr ⟨_, hlength, ?_⟩, ?_⟩, hload, hstore⟩
        · exact Nat.lt_of_le_of_ne hidx hlast
        · rw [← h.passed]
          rfl
    · rfl

/-- Where no slice is empty, there is a place to look up. -/
theorem At.exists_next (h : it.At k) (hs : ∀ slice ∈ it.buffers, slice ≠ []) :
    ∃ r, it.next = .ok r := by
  rw [next]
  cases hslice : it.buffers[it.current_buffer]? with
  | none => exact ⟨_, rfl⟩
  | some slice =>
    have hlt : it.current_idx < slice.length := by
      obtain hidx | ⟨n, hn, hidx⟩ := h.idx
      · rw [hidx]
        exact List.length_pos_of_ne_nil (hs slice (List.mem_of_getElem? hslice))
      · rw [List.getElem?_map, hslice] at hn
        cases hn
        exact hidx
    simp only [if_pos hlt]
    exact ⟨_, rfl⟩

end UserBufferIterator

end MyGOS.Mm
