import MyGOS.Mm.BufferCover

/-!
# Copies seen by address

On mapped pages `copyin` reads what the process sees, and `copyout` of at most a
page writes each byte where the process sees it, and wherever else the place of
that byte is mapped.
-/

namespace MyGOS.Mm

open Outcome

namespace MemorySet

/-- The addresses are user addresses of mapped pages. -/
structure Backed (ms : MemorySet) (ptr len : Nat) : Prop where
  user : ptr + len ≤ 2 ^ 38
  mapped : ∀ va, ptr ≤ va → va < ptr + len → ms.translate (floor va) ≠ none

/-- The bytes that the process sees. -/
def seen (ms : MemorySet) (ph : Phys) (ptr len : Nat) : List UInt8 :=
  (List.range' ptr len).map fun va => (ms.view ph va).getD 0

/-- What the process sees at an address after a write of `v` to `ptr`. -/
def overlay (ms : MemorySet) (ph : Phys) (ptr : Nat) (v : List UInt8) (va : Nat) : Option UInt8 :=
  match (List.range v.length).find? fun j =>
    ms.page_table.translate_va (ptr + j) = ms.page_table.translate_va va with
  | some j => v[j]?
  | none => ms.view ph va

/-- The bytes that the process sees after the write. -/
def seen_over (ms : MemorySet) (ph : Phys) (ptr : Nat) (v : List UInt8) (start len : Nat) :
    List UInt8 :=
  (List.range' start len).map fun va => (ms.overlay ph ptr v va).getD 0

end MemorySet

variable {ms : MemorySet} {ph : Phys} {ptr len va : Nat} {slices : List Slice} {v dst : List UInt8}

theorem view_eq_map (ms : MemorySet) (ph : Phys) (va : Nat) :
    ms.view ph va = (ms.page_table.translate_va va).map fun place => ph.bytes place.1 place.2 := by
  rw [MemorySet.view, PageTable.translate_va, Option.map_map]
  rfl

theorem Spans.read_slices (h : Spans ms (ptr + len) ptr slices) (ph : Phys) :
    read_slices ph slices = ms.seen ph ptr len := by
  have hplaces := h.places (Nat.le_add_right _ _)
  rw [Nat.add_sub_cancel_left] at hplaces
  have hseen : ms.seen ph ptr len =
      ((List.range' ptr len).map ms.page_table.translate_va).map fun place =>
        (place.map fun place => ph.bytes place.1 place.2).getD 0 := by
    rw [MemorySet.seen, List.map_map]
    exact List.map_congr_left fun va _ => congrArg (Option.getD · 0) (view_eq_map ms ph va)
  rw [hseen, ← hplaces, List.map_map, read_slices_eq]
  rfl

/-- The places of at most a page are different. -/
theorem Spans.nodup (h : Spans ms (ptr + len) ptr slices) (hlen : len ≤ PAGE_SIZE) :
    (Mm.places slices).Nodup := by
  have hplaces := h.places (Nat.le_add_right _ _)
  rw [Nat.add_sub_cancel_left] at hplaces
  refine List.Nodup.of_map some ?_
  rw [hplaces]
  refine List.Nodup.map_on (fun a ha b hb heq => ?_) List.nodup_range'
  have hsome : ms.page_table.translate_va a ∈ (Mm.places slices).map some := by
    rw [hplaces]
    exact List.mem_map_of_mem ha
  obtain ⟨place, _, hplace⟩ := List.mem_map.mp hsome
  have hoffset {c : Nat} (hc : ms.page_table.translate_va c = some place) :
      page_offset c = place.2 := by
    obtain ⟨pte, _, hpte⟩ := Option.map_eq_some_iff.mp hc
    exact congrArg Prod.snd hpte
  have ha' := hoffset hplace.symm
  have hb' := hoffset (heq.symm.trans hplace.symm)
  rw [List.mem_range'_1] at ha hb
  simp only [page_offset, PAGE_SIZE] at *
  omega

theorem copyin_backed (h : ms.Backed ptr dst.length) (ph : Phys) (hpos : 0 < dst.length) :
    copyin ms ph dst ptr = .ok (ms.seen ph ptr dst.length, ms, ph) := by
  obtain ⟨slices, _, hspans⟩ := translated_bytes_buffer_mapped ph h.user h.mapped
  rw [copyin_ok hpos h.user hspans ph rfl, hspans.read_slices]

/-- A write of at most a page is seen at its addresses and at those of the same places. -/
theorem copyout_backed (h : ms.Backed ptr v.length) (ph : Phys) (hpos : 0 < v.length)
    (hlen : v.length ≤ PAGE_SIZE) : ∃ ph', copyout ms ph ptr v = .ok (ms, ph') ∧
      ms.seen ph' ptr v.length = v ∧
      ∀ start len, ms.seen ph' start len = ms.seen_over ph ptr v start len := by
  obtain ⟨slices, hbuffer, hspans⟩ := translated_bytes_buffer_mapped ph h.user h.mapped
  have hsum := hspans.sum_eq (Nat.le_add_right _ _)
  rw [Nat.add_sub_cancel_left] at hsum
  have hplaces := hspans.places (Nat.le_add_right _ _)
  rw [Nat.add_sub_cancel_left] at hplaces
  have hread : read_slices (write_slices ph slices v) slices = v :=
    read_write_slices (hspans.nodup hlen) hsum.symm
  refine ⟨_, copyout_ok hpos hbuffer hspans rfl, ?_, fun start len =>
    List.map_congr_left fun va _ => congrArg (Option.getD · 0) ?_⟩
  · rw [← hspans.read_slices, hread]
  · rw [MemorySet.overlay]
    split
    · rename_i j hfind
      have hfound := List.find?_some hfind
      have hsame := of_decide_eq_true hfound
      have hj := List.mem_range.mp (List.mem_of_find?_eq_some hfind)
      have hget : ((places slices).map some)[j]? = some (ms.page_table.translate_va va) := by
        rw [hplaces, List.getElem?_map, List.getElem?_range' hj, Option.map_some, Nat.one_mul,
          hsame]
      obtain ⟨place, hplace, hva⟩ := Option.map_eq_some_iff.mp ((List.getElem?_map ..).symm.trans hget)
      rw [view_eq_map, ← hva, ← congrArg (·[j]?) hread, read_slices_eq, List.getElem?_map, hplace]
    · rename_i hfind
      rw [view_eq_map, view_eq_map]
      cases hva : ms.page_table.translate_va va with
      | none => rfl
      | some place =>
        have hout : ¬ Covered slices place.1 place.2 := by
          intro hcovered
          have hmem : some place ∈ (places slices).map some :=
            List.mem_map_of_mem (mem_places.mpr hcovered)
          rw [hplaces] at hmem
          obtain ⟨a, ha, heq⟩ := List.mem_map.mp hmem
          rw [List.mem_range'_1] at ha
          refine List.find?_eq_none.mp hfind (a - ptr) (List.mem_range.mpr (by omega)) ?_
          rw [Nat.add_sub_cancel' ha.1, heq, hva]
          exact decide_eq_true rfl
        exact congrArg some (write_slices_outside hout)

end MyGOS.Mm
