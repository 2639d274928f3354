import MyGOS.Mm.UserCopySteps

/-!
# Buffers on mapped pages

Where the pages of a user buffer are mapped to frames of their own, a copy to it
is a write to the bytes the process sees, and an object that lies in one page is
read back by `translated_ref`.
-/

namespace MyGOS.Mm

open Outcome

/-- `copyin` over a destination of the bytes `dst`. -/
def copyin (ms : MemorySet) (ph : Phys) (dst : List UInt8) (src : Nat) :
    Except Panic (List UInt8 × MemorySet × Phys) := do
  let (slices, ms, ph) ← translated_bytes_buffer ms ph src dst.length
  -- the first slice is taken unasked, and the destination is indexed up to the end of the last one
  if slices.isEmpty ∨ dst.length < (slices.map Slice.len).sum then .error .outOfBounds
  else return (read_slices ph slices ++ dst.drop (slices.map Slice.len).sum, ms, ph)

/-- The bytes of an object behind the place that `translated_ref` returns. -/
def Phys.object (ph : Phys) (place : Nat × Nat) (size : Nat) : List UInt8 :=
  (List.range size).map fun i => ph.bytes place.1 (place.2 + i)

/-- The addresses of `[lo, hi)` are user addresses of mapped pages, each page with a frame of
its own. -/
structure MemorySet.Stack (ms : MemorySet) (lo hi : Nat) : Prop where
  user : hi ≤ 2 ^ 38
  mapped : ∀ va, lo ≤ va → va < hi → ms.translate (floor va) ≠ none
  own : ∀ va va' pte pte', lo ≤ va → va < hi → lo ≤ va' → va' < hi →
    ms.translate (floor va) = some pte → ms.translate (floor va') = some pte' →
    pte.ppn = pte'.ppn → floor va = floor va'

/-- The slices follow each other from `start` to `end_`, each one inside a page. -/
def Spans (ms : MemorySet) (end_ : Nat) : Nat → List Slice → Prop
  | start, [] => end_ ≤ start
  | start, s :: slices => (∃ pte, ms.translate (floor start) = some pte ∧ s.ppn = pte.ppn) ∧
      s.offset = page_offset start ∧ 0 < s.len ∧ start + s.len ≤ end_ ∧
      page_offset start + s.len ≤ PAGE_SIZE ∧ Spans ms end_ (start + s.len) slices

variable {ms : MemorySet} {ph : Phys} {lo hi start end_ va ptr size : Nat} {data : List UInt8}

theorem virt_addr_of_lt {value : Nat} (h : value < 2 ^ 39) : virt_addr value = value := if_pos h

theorem MemorySet.Stack.mono (h : ms.Stack lo hi) {lo' hi' : Nat} (hlo : lo ≤ lo') (hhi : hi' ≤ hi) :
    ms.Stack lo' hi' where
  user := Nat.le_trans hhi h.user
  mapped va hle hlt := h.mapped va (by omega) (by omega)
  own va va' pte pte' hle hlt hle' hlt' :=
    h.own va va' pte pte' (by omega) (by omega) (by omega) (by omega)

theorem Spans.sum_eq {slices : List Slice} (h : Spans ms end_ start slices) (hle : start ≤ end_) :
    (slices.map Slice.len).sum = end_ - start := by
  induction slices generalizing start with
  | nil =>
    have hend : end_ ≤ start := h
    rw [List.map_nil, List.sum_nil]
    omega
  | cons s slices ih =>
    obtain ⟨_, _, _, hstop, _, hrest⟩ := h
    rw [List.map_cons, List.sum_cons, ih hrest hstop]
    omega

/-- Where the loop stands after the page of `start`. -/
theorem page_step {next stop fuel : Nat} (hend : end_ ≤ 2 ^ 38) (hlt : start < end_)
    (hfuel : floor end_ + 2 ≤ floor start + (fuel + 1))
    (hnext : min ((floor start + 1) * PAGE_SIZE % 2 ^ 64) end_ = next)
    (hstop : (if page_offset next = 0 then PAGE_SIZE else page_offset next) = stop) :
    (start < next ∧ next ≤ end_ ∧ page_offset start ≤ stop ∧
      start + (stop - page_offset start) = next ∧ stop ≤ PAGE_SIZE) ∧
      (end_ ≤ next ∧ 0 < fuel ∨ next < end_ ∧ floor end_ + 2 ≤ floor next + fuel) := by
  constructor
  · split at hstop <;> simp only [floor, page_offset, PAGE_SIZE] at * <;> omega
  · simp only [floor, PAGE_SIZE] at *
    omega

/-- The loop over mapped pages maps nothing. -/
theorem buffer_loop_mapped (hend : end_ ≤ 2 ^ 38) (fuel : Nat) : ∀ start,
    (∀ va, start ≤ va → va < end_ → ms.translate (floor va) ≠ none) →
      (end_ ≤ start ∧ 0 < fuel ∨ start < end_ ∧ floor end_ + 2 ≤ floor start + fuel) →
      ∃ slices, buffer_loop end_ fuel start ms ph = .ok (slices, ms, ph) ∧
        Spans ms end_ start slices := by
  induction fuel with
  | zero =>
    rintro start _ (⟨_, hfuel⟩ | ⟨hlt, hfuel⟩)
    · exact absurd hfuel (Nat.lt_irrefl 0)
    · simp only [floor, PAGE_SIZE] at hfuel
      omega
  | succ fuel ih =>
    rintro start hmapped (⟨hle, _⟩ | ⟨hlt, hfuel⟩)
    · refine ⟨[], ?_, hle⟩
      rw [buffer_loop, if_neg (by omega)]
    · obtain ⟨pte, hpte⟩ := Option.ne_none_iff_exists'.mp (hmapped start (Nat.le_refl _) hlt)
      have hframe : buffer_frame ms ph start = .ok (pte.ppn, ms, ph) := by
        rw [buffer_frame, hpte]
      generalize hnext : min ((floor start + 1) * PAGE_SIZE % 2 ^ 64) end_ = next
      generalize hstop : (if page_offset next = 0 then PAGE_SIZE else page_offset next) = stop
      obtain ⟨⟨hsn, hne, hos, hsum, hpage⟩, hleft⟩ := page_step hend hlt hfuel hnext hstop
      obtain ⟨slices, hloop, hspans⟩ :=
        ih next (fun va hle hva => hmapped va (by omega) hva) hleft
      refine ⟨⟨pte.ppn, page_offset start, stop - page_offset start⟩ :: slices, ?_, ⟨pte, hpte, rfl⟩,
        rfl, ?_, ?_, ?_, ?_⟩
      · rw [buffer_loop, if_pos hlt, hframe]
        simp only [bind, Except.bind]
        rw [hnext, hstop, if_neg (by omega), hloop]
        rfl
      · dsimp only
        omega
      · dsimp only
        omega
      · dsimp only
        omega
      · dsimp only
        rw [hsum]
        exact hspans

theorem translated_bytes_buffer_mapped (ph : Phys) {len : Nat} (huser : ptr + len ≤ 2 ^ 38)
    (hmapped : ∀ va, ptr ≤ va → va < ptr + len → ms.translate (floor va) ≠ none) :
    ∃ slices, translated_bytes_buffer ms ph ptr len = .ok (slices, ms, ph) ∧
      Spans ms (ptr + len) ptr slices := by
  have hptr : virt_addr ptr = ptr := virt_addr_of_lt (by omega)
  have hend : virt_addr ((ptr + len) % 2 ^ 64) = ptr + len := by
    rw [Nat.mod_eq_of_lt (by omega), virt_addr_of_lt (by omega)]
  rw [translated_bytes_buffer, hptr, hend]
  apply buffer_loop_mapped huser _ _ hmapped
  simp only [floor, PAGE_SIZE]
  omega

/-- A write to one slice of a stack, seen at the address `va`. -/
theorem MemorySet.Stack.view_write (h : ms.Stack lo hi) {pte : PageTableEntry}
    (hpte : ms.translate (floor start) = some pte) (hlo : lo ≤ start) (hhi : start < hi)
    (hpage : page_offset start + data.length ≤ PAGE_SIZE) (hle : lo ≤ va) (hlt : va < hi) :
    ms.view (ph.write pte.ppn (page_offset start) data) va =
      if start ≤ va ∧ va < start + data.length then data[va - start]? else ms.view ph va := by
  obtain ⟨pte', hpte'⟩ := Option.ne_none_iff_exists'.mp (h.mapped va hle hlt)
  rw [MemorySet.view, MemorySet.view, hpte', Option.map_some, Option.map_some, Phys.write_bytes]
  by_cases hin : start ≤ va ∧ va < start + data.length
  · have hfloor : floor va = floor start ∧ page_offset va - page_offset start = va - start ∧
        page_offset start ≤ page_offset va := by
      simp only [floor, page_offset, PAGE_SIZE] at *
      omega
    obtain ⟨hfloor, hoffset, hge⟩ := hfloor
    rw [hfloor, hpte] at hpte'
    cases hpte'
    rw [if_pos hin, if_pos ⟨rfl, hge⟩, hoffset, List.getElem?_eq_getElem (by omega),
      Option.getD_some]
  · rw [if_neg hin]
    split
    · next hsame =>
      have hfloor := h.own va start pte' pte hle hlt hlo hhi hpte' hpte hsame.1
      have hout : data.length ≤ page_offset va - page_offset start := by
        have hge := hsame.2
        simp only [floor, page_offset, PAGE_SIZE] at *
        omega
      rw [List.getElem?_eq_none hout, Option.getD_none]
    · rfl

/-- A write over a buffer of a stack. -/
theorem MemorySet.Stack.view_write_slices (h : ms.Stack lo hi) {slices : List Slice}
    (hspans : Spans ms end_ start slices) (hlo : lo ≤ start) (hhi : end_ ≤ hi)
    (hlen : start + data.length = end_) (hle : lo ≤ va) (hlt : va < hi) :
    ms.view (write_slices ph slices data) va =
      if start ≤ va ∧ va < end_ then data[va - start]? else ms.view ph va := by
  induction slices generalizing start data ph with
  | nil =>
    have hend : end_ ≤ start := hspans
    rw [write_slices, if_neg (by omega)]
  | cons s slices ih =>
    obtain ⟨⟨pte, hpte, hppn⟩, hoffset, hpos, hstop, hpage, hrest⟩ := hspans
    have htake : (data.take s.len).length = s.len := by
      rw [List.length_take]
      omega
    have hdrop : start + s.len + (data.drop s.len).length = end_ := by
      rw [List.length_drop]
      omega
    rw [write_slices, ih hrest (by omega) hdrop, hppn, hoffset,
      h.view_write hpte hlo (by omega) (by omega) hle hlt, htake]
    by_cases hfirst : start ≤ va ∧ va < start + s.len
    · rw [if_neg (by omega), if_pos hfirst, if_pos (by omega), List.getElem?_take,
        if_pos (by omega)]
    · rw [if_neg hfirst]
      by_cases hsecond : start + s.len ≤ va ∧ va < end_
      · have hindex : s.len + (va - (start + s.len)) = va - start := by omega
        rw [if_pos hsecond, if_pos (by omega), List.getElem?_drop, hindex]
      · rw [if_neg hsecond, if_neg (by omega)]

/-- A copy to a buffer of a stack is a write to what the process sees there. -/
theorem MemorySet.Stack.copyout (h : ms.Stack lo hi) (ph : Phys) (hpos : data ≠ []) (hlo : lo ≤ ptr)
    (hhi : ptr + data.length ≤ hi) : ∃ ph', copyout ms ph ptr data = .ok (ms, ph') ∧
      ∀ va, lo ≤ va → va < hi → ms.view ph' va =
        if ptr ≤ va ∧ va < ptr + data.length then data[va - ptr]? else ms.view ph va := by
  obtain ⟨slices, hbuffer, hspans⟩ := translated_bytes_buffer_mapped ph (hhi.trans h.user)
    fun va hle hlt => h.mapped va (hlo.trans hle) (Nat.lt_of_lt_of_le hlt hhi)
  have hlen := List.length_pos_iff.mpr hpos
  have hsum := hspans.sum_eq (Nat.le_add_right ptr data.length)
  have hne : slices ≠ [] := by
    rintro rfl
    have hend : ptr + data.length ≤ ptr := hspans
    omega
  refine ⟨write_slices ph slices data, ?_, fun va hle hlt => ?_⟩
  · have hfalse : ¬(slices.isEmpty = true ∨ data.length < (slices.map Slice.len).sum) := by
      rw [hsum, List.isEmpty_iff]
      rintro (hnil | hlt)
      · exact hne hnil
      · omega
    rw [Mm.copyout, hbuffer]
    simp only [bind, Except.bind]
    rw [if_neg hfalse]
    rfl
  · exact h.view_write_slices hspans hlo hhi rfl hle hlt

theorem translated_ref_cross (h : PAGE_SIZE < ptr % PAGE_SIZE + size) :
    translated_ref ms ptr size = .error (.crossPage ptr) := by
  have hlt : ptr % PAGE_SIZE < PAGE_SIZE := Nat.mod_lt _ (by decide)
  rw [translated_ref, if_pos (by omega)]

/-- An object inside one mapped page is read as the process sees it. -/
theorem translated_ref_mapped (ph : Phys) (hsize : 0 < size) (h : ptr % PAGE_SIZE + size ≤ PAGE_SIZE)
    (huser : ptr < 2 ^ 39) (hmapped : ms.translate (floor ptr) ≠ none) :
    ∃ place, translated_ref ms ptr size = .ok place ∧
      ∀ i, i < size → (ph.object place size)[i]? = ms.view ph (ptr + i) := by
  obtain ⟨pte, hpte⟩ := Option.ne_none_iff_exists'.mp hmapped
  refine ⟨(pte.ppn, page_offset ptr), ?_, fun i hi => ?_⟩
  · have hva : ms.page_table.translate_va ptr = some (pte.ppn, page_offset ptr) := by
      have hfind : ms.page_table.find_pte (floor ptr) = some pte := hpte
      rw [PageTable.translate_va, hfind, Option.map_some]
    rw [translated_ref, if_neg (by omega), virt_addr_of_lt huser, hva]
  · have hplace : floor (ptr + i) = floor ptr ∧ page_offset (ptr + i) = page_offset ptr + i := by
      simp only [floor, page_offset, PAGE_SIZE] at *
      omega
    rw [Phys.object, List.getElem?_map, List.getElem?_range hi, Option.map_some, MemorySet.view,
      hplace.1, hpte, hplace.2]
    rfl

end MyGOS.Mm
