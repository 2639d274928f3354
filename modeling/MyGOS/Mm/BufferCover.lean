import MyGOS.Mm.MappedBuffer
import MyGOS.Mm.SparedFrames

/-!
# What a user buffer covers

The loop of `translated_bytes_buffer` visits the pages of its range one after
another, and `check_lazy` maps those that are not mapped. The places behind the
slices are then the places of the addresses of the range, in their order. A
value copied to the range is read back if no two of these places are the same,
which two mappings of one segment of shared memory make them.
-/

namespace MyGOS.Mm

open Outcome

/-- The addresses at which the loop comes to the pages of `[start, end_)`. -/
def visited (start end_ : Nat) : List Nat :=
  if start < end_ then
    (List.range' (floor start) (ceil end_ - floor start)).map fun vpn => max start (vpn * PAGE_SIZE)
  else []

/-- The pages at the addresses are mapped, or `check_lazy` maps them when their turn comes. -/
def MemorySet.Mappable : List Nat → MemorySet → Phys → Prop
  | [], _, _ => True
  | va :: rest, ms, ph => ((ms.translate (floor va)).isSome ∧ Mappable rest ms ph) ∨
      (ms.translate (floor va) = none ∧
        ∃ ms' ph', ms.check_lazy ph va = .ok (0, ms', ph') ∧ Mappable rest ms' ph')

/-- The frame of each byte of a slice, and the place in it. -/
def Slice.places (s : Slice) : List (Nat × Nat) :=
  (List.range s.len).map fun i => (s.ppn, s.offset + i)

def places (slices : List Slice) : List (Nat × Nat) := slices.flatMap Slice.places

/-- Each value of `len` bytes is read back as it was written. -/
def RoundTrips (ms : MemorySet) (ph : Phys) (ptr len : Nat) : Prop :=
  ∀ v dst : List UInt8, v.length = len → dst.length = len →
    ∃ ms' ph', copyout ms ph ptr v = .ok (ms', ph') ∧ copyin ms' ph' dst ptr = .ok (v, ms', ph')

section Places

variable {slices : List Slice} {data : List UInt8} {ph : Phys} {q i : Nat}

theorem mem_places : (q, i) ∈ places slices ↔ Covered slices q i := by
  simp only [places, Slice.places, List.mem_flatMap, List.mem_map, List.mem_range, Prod.mk.injEq,
    Covered]
  constructor
  · rintro ⟨s, hs, k, hk, hppn, rfl⟩
    exact ⟨s, hs, hppn, Nat.le_add_right _ _, Nat.add_lt_add_left hk _⟩
  · rintro ⟨s, hs, hppn, hle, hlt⟩
    exact ⟨s, hs, i - s.offset, by omega, hppn, by omega⟩

theorem read_slices_eq (ph : Phys) (slices : List Slice) :
    read_slices ph slices = (places slices).map fun place => ph.bytes place.1 place.2 := by
  simp only [read_slices, places, Slice.places, List.map_flatMap, List.map_map, Function.comp_def]

theorem length_places (slices : List Slice) :
    (places slices).length = (slices.map Slice.len).sum := by
  simp only [places, Slice.places, List.length_flatMap, List.length_map, List.length_range]

/-- What is written to places of their own is read back. -/
theorem read_write_slices (hnodup : (places slices).Nodup)
    (hlen : data.length = (slices.map Slice.len).sum) :
    read_slices (write_slices ph slices data) slices = data := by
  induction slices generalizing ph data with
  | nil => exact (List.length_eq_zero_iff.mp hlen).symm
  | cons s slices ih =>
    rw [List.map_cons, List.sum_cons] at hlen
    rw [places, List.flatMap_cons, List.nodup_append] at hnodup
    obtain ⟨_, hrest, hapart⟩ := hnodup
    have hhead : s.places.map (fun place =>
        (write_slices (ph.write s.ppn s.offset (data.take s.len)) slices
          (data.drop s.len)).bytes place.1 place.2) = data.take s.len := by
      refine List.ext_getElem ?_ fun k hk hk' => ?_
      · simp only [Slice.places, List.length_map, List.length_range, List.length_take]
        omega
      · have hlt : k < s.len := by simpa [Slice.places] using hk
        have hplace : (s.ppn, s.offset + k) ∈ s.places :=
          List.mem_map.mpr ⟨k, List.mem_range.mpr hlt, rfl⟩
        have hout : ¬ Covered slices s.ppn (s.offset + k) := fun hcovered =>
          hapart _ hplace _ (mem_places.mpr hcovered) rfl
        simp only [Slice.places, List.getElem_map, List.getElem_range]
        rw [write_slices_outside hout, Phys.write_bytes, if_pos ⟨rfl, Nat.le_add_right _ _⟩,
          Nat.add_sub_cancel_left, List.getElem?_eq_getElem hk', Option.getD_some]
    have hdrop : (data.drop s.len).length = (slices.map Slice.len).sum := by
      rw [List.length_drop]
      omega
    have htail : read_slices (write_slices (ph.write s.ppn s.offset (data.take s.len)) slices
        (data.drop s.len)) slices = data.drop s.len := ih hrest hdrop
    rw [read_slices_eq] at htail ⊢
    rw [write_slices, places, List.flatMap_cons, List.map_append, hhead]
    exact (congrArg _ htail).trans (List.take_append_drop _ _)

end Places

section Loop

variable {ms ms' ms'' : MemorySet} {ph ph' ph'' : Phys} {start end_ q : Nat} {slices : List Slice}

theorem Spans.mem (h : Spans ms end_ start slices) :
    ∀ s ∈ slices, 0 < s.len ∧ s.offset + s.len ≤ PAGE_SIZE := by
  induction slices generalizing start with
  | nil => exact fun _ hs => nomatch hs
  | cons s slices ih =>
    obtain ⟨_, hoffset, hpos, _, hpage, hrest⟩ := h
    exact List.forall_mem_cons.mpr ⟨⟨hpos, hoffset ▸ hpage⟩, ih hrest⟩

/-- The places of the slices are those of the addresses. -/
theorem Spans.places (h : Spans ms end_ start slices) (hle : start ≤ end_) :
    (places slices).map some =
      (List.range' start (end_ - start)).map ms.page_table.translate_va := by
  induction slices generalizing start with
  | nil =>
    have hend : end_ ≤ start := h
    rw [Nat.sub_eq_zero_of_le hend]
    rfl
  | cons s slices ih =>
    obtain ⟨⟨pte, hpte, hppn⟩, hoffset, hpos, hstop, hpage, hrest⟩ := h
    have hsplit : end_ - start = s.len + (end_ - (start + s.len)) := by omega
    rw [hsplit, ← List.range'_append_1, List.map_append, ← ih hrest hstop, Mm.places,
      List.flatMap_cons, List.map_append, List.range'_eq_map_range]
    refine congrArg (· ++ _) ?_
    rw [Slice.places, List.map_map, List.map_map]
    refine List.map_congr_left fun i hi => ?_
    have hlt := List.mem_range.mp hi
    have hplace : floor (start + i) = floor start ∧ page_offset (start + i) = page_offset start + i := by
      simp only [floor, page_offset, PAGE_SIZE] at *
      omega
    have hfind : ms.page_table.find_pte (floor start) = some pte := hpte
    simp only [Function.comp_apply, PageTable.translate_va]
    rw [hplace.1, hplace.2, hfind, hppn, hoffset]
    rfl

theorem max_page {vpn : Nat} (hle : floor start + 1 ≤ vpn) :
    max start (vpn * PAGE_SIZE) = max ((floor start + 1) * PAGE_SIZE) (vpn * PAGE_SIZE) := by
  simp only [floor, PAGE_SIZE] at *
  omega

/-- The first page of the range, and the others. -/
theorem visited_next (hlt : start < end_) (hend : end_ ≤ 2 ^ 38) :
    visited start end_ = start :: visited (min ((floor start + 1) * PAGE_SIZE) end_) end_ := by
  unfold visited
  rw [if_pos hlt]
  rcases Nat.lt_or_ge ((floor start + 1) * PAGE_SIZE) end_ with hmore | hlast
  · have hpages : ceil end_ - floor start = ceil end_ - (floor start + 1) + 1 ∧
        floor ((floor start + 1) * PAGE_SIZE) = floor start + 1 ∧
        max start (floor start * PAGE_SIZE) = start := by
      simp only [ceil, floor, PAGE_SIZE] at *
      omega
    obtain ⟨hpages, hfloor, hmax⟩ := hpages
    rw [min_eq_left hmore.le, if_pos hmore, hpages, List.range'_succ, List.map_cons, hmax, hfloor]
    exact congrArg _ (List.map_congr_left fun vpn hvpn => max_page (List.mem_range'_1.mp hvpn).1)
  · have hpages : ceil end_ - floor start = 1 ∧ max start (floor start * PAGE_SIZE) = start := by
      simp only [ceil, floor, PAGE_SIZE] at *
      omega
    rw [min_eq_right hlast, if_neg (lt_irrefl _), hpages.1, List.range'_one, List.map_singleton,
      hpages.2]

/-- Pages are mapped, and nothing else happens. -/
structure Loads (ms : MemorySet) (ph : Phys) (ms' : MemorySet) (ph' : Phys) : Prop where
  kept : ∀ v pte, ms.translate v = some pte → ms'.translate v = some pte
  keyed : ms.Keyed → ms'.Keyed
  spared : ms.Keyed → ∀ q, ms.InUse ph q → ms'.InUse ph' q ∧ ph'.bytes q = ph.bytes q

theorem Loads.refl (ms : MemorySet) (ph : Phys) : Loads ms ph ms ph where
  kept _ _ h := h
  keyed h := h
  spared _ _ h := ⟨h, rfl⟩

theorem Loads.trans (h : Loads ms ph ms' ph') (h' : Loads ms' ph' ms'' ph'') :
    Loads ms ph ms'' ph'' where
  kept v pte hv := h'.kept v pte (h.kept v pte hv)
  keyed hkeyed := h'.keyed (h.keyed hkeyed)
  spared hkeyed q huse := by
    obtain ⟨huse', hbytes⟩ := h.spared hkeyed q huse
    obtain ⟨huse'', hbytes'⟩ := h'.spared (h.keyed hkeyed) q huse'
    exact ⟨huse'', hbytes'.trans hbytes⟩

theorem check_lazy_loads {va : Nat} (hnone : ms.translate (floor va) = none)
    (h : ms.check_lazy ph va = .ok (0, ms', ph')) : Loads ms ph ms' ph' where
  kept v pte hv := by
    obtain ⟨_, ⟨hne, _⟩ | ⟨_, pte', hpt, _⟩⟩ := check_lazy_ok h
    · exact absurd rfl hne
    · refine (hpt v).trans ((if_neg fun hindex => ?_).trans hv)
      cases hnone.symm.trans ((PageTable.find_pte_congr _ hindex).symm.trans hv)
  keyed hkeyed := (check_lazy_spares (q := 0) hkeyed hnone h).keyed
  spared hkeyed _ huse := (check_lazy_spares hkeyed hnone h).inUse huse

/-- The frame of the page that the loop has come to. -/
theorem buffer_frame_mappable {rest : List Nat} (h : MemorySet.Mappable (start :: rest) ms ph) :
    ∃ pte ms' ph', buffer_frame ms ph start = .ok (pte.ppn, ms', ph') ∧
      ms'.translate (floor start) = some pte ∧ Loads ms ph ms' ph' ∧
      MemorySet.Mappable rest ms' ph' := by
  unfold buffer_frame
  rcases h with ⟨hmapped, hrest⟩ | ⟨hnone, ms', ph', hlazy, hrest⟩
  · obtain ⟨pte, hpte⟩ := Option.isSome_iff_exists.mp hmapped
    rw [hpte]
    exact ⟨pte, ms, ph, rfl, hpte, Loads.refl ms ph, hrest⟩
  · obtain ⟨_, ⟨hne, _⟩ | ⟨_, pte, hpt, _⟩⟩ := check_lazy_ok hlazy
    · exact absurd rfl hne
    · have hpte : ms'.translate (floor start) = some pte := hpt.self
      refine ⟨pte, ms', ph', ?_, hpte, check_lazy_loads hnone hlazy, hrest⟩
      rw [hnone]
      dsimp only
      rw [hlazy, ok_bind]
      dsimp only
      rw [if_neg (not_not.mpr rfl), hpte]

theorem buffer_loop_mappable (hend : end_ ≤ 2 ^ 38) (fuel : Nat) : ∀ {start ms ph},
    (end_ ≤ start ∧ 0 < fuel ∨ start < end_ ∧ floor end_ + 2 ≤ floor start + fuel) →
      MemorySet.Mappable (visited start end_) ms ph →
      ∃ slices ms' ph', buffer_loop end_ fuel start ms ph = .ok (slices, ms', ph') ∧
        Spans ms' end_ start slices ∧ Loads ms ph ms' ph' := by
  induction fuel with
  | zero =>
    rintro start ms ph (⟨_, hfuel⟩ | ⟨hlt, hfuel⟩) _
    · exact absurd hfuel (Nat.lt_irrefl 0)
    · simp only [floor, PAGE_SIZE] at hfuel
      omega
  | succ fuel ih =>
    rintro start ms ph (⟨hle, _⟩ | ⟨hlt, hfuel⟩) hmap
    · refine ⟨[], ms, ph, ?_, hle, Loads.refl ms ph⟩
      rw [buffer_loop, if_neg (by omega)]
    · rw [visited_next hlt hend] at hmap
      obtain ⟨pte, ms₁, ph₁, hframe, hpte, hloads, hrest⟩ := buffer_frame_mappable hmap
      have hwrap : min ((floor start + 1) * PAGE_SIZE) end_ =
          min ((floor start + 1) * PAGE_SIZE % 2 ^ 64) end_ := by
        clear hmap hrest
        simp only [floor, PAGE_SIZE] at *
        omega
      rw [hwrap] at hrest
      generalize hnext : min ((floor start + 1) * PAGE_SIZE % 2 ^ 64) end_ = next at hrest
      generalize hstop : (if page_offset next = 0 then PAGE_SIZE else page_offset next) = stop
      obtain ⟨⟨hsn, hne, hos, hsum, hpage⟩, hleft⟩ := page_step hend hlt hfuel hnext hstop
      obtain ⟨slices, ms', ph', hloop, hspans, hloads'⟩ := ih hleft hrest
      refine ⟨⟨pte.ppn, page_offset start, stop - page_offset start⟩ :: slices, ms', ph', ?_,
        ⟨⟨pte, hloads'.kept _ pte hpte, rfl⟩, rfl, ?_, ?_, ?_, ?_⟩, hloads.trans hloads'⟩
      · rw [buffer_loop, if_pos hlt, hframe, ok_bind]
        dsimp only
        rw [hnext, hstop, if_neg (by omega), hloop]
        rfl
      · dsimp only
        omega
      · dsimp only
        omega
      · dsimp only
        omega
      · dsimp only
        rw [hsum]
        exact hspans

theorem translated_bytes_buffer_mappable {ptr len : Nat} (hend : ptr + len ≤ 2 ^ 38)
    (hmap : MemorySet.Mappable (visited ptr (ptr + len)) ms ph) :
    ∃ slices ms' ph', translated_bytes_buffer ms ph ptr len = .ok (slices, ms', ph') ∧
      Spans ms' (ptr + len) ptr slices ∧ Loads ms ph ms' ph' := by
  have hptr : virt_addr ptr = ptr := virt_addr_of_lt (by omega)
  have hstop : virt_addr ((ptr + len) % 2 ^ 64) = ptr + len := by
    rw [Nat.mod_eq_of_lt (by omega), virt_addr_of_lt (by omega)]
  rw [translated_bytes_buffer, hptr, hstop]
  apply buffer_loop_mappable hend _ _ hmap
  simp only [floor, PAGE_SIZE]
  omega

end Loop

section Copies

variable {ms ms' : MemorySet} {ph ph' : Phys} {ptr len : Nat} {slices : List Slice}
  {v dst : List UInt8}

theorem Spans.ne_nil (h : Spans ms (ptr + len) ptr slices) (hpos : 0 < len) :
    slices.isEmpty = false := by
  cases slices with
  | nil =>
    have hend : ptr + len ≤ ptr := h
    omega
  | cons s slices => rfl

theorem copyout_ok (hpos : 0 < len)
    (hbuffer : translated_bytes_buffer ms ph ptr len = .ok (slices, ms', ph'))
    (hspans : Spans ms' (ptr + len) ptr slices) (hv : v.length = len) :
    copyout ms ph ptr v = .ok (ms', write_slices ph' slices v) := by
  subst hv
  rw [copyout, hbuffer, ok_bind]
  dsimp only
  rw [hspans.sum_eq (Nat.le_add_right _ _), hspans.ne_nil hpos, if_neg]
  · rfl
  · simp

/-- What `copyin` finds behind pages that `copyout` has mapped. -/
theorem copyin_ok (hpos : 0 < len) (huser : ptr + len ≤ 2 ^ 38)
    (hspans : Spans ms' (ptr + len) ptr slices) (ph' : Phys) (hdst : dst.length = len) :
    copyin ms' ph' dst ptr = .ok (read_slices ph' slices, ms', ph') := by
  subst hdst
  have hplaces := hspans.places (Nat.le_add_right _ _)
  have hmapped : ∀ va, ptr ≤ va → va < ptr + dst.length → ms'.translate (floor va) ≠ none := by
    intro va hle hlt hnone
    have hfind : ms'.page_table.find_pte (floor va) = none := hnone
    have hmem : ms'.page_table.translate_va va ∈
        (List.range' ptr (ptr + dst.length - ptr)).map ms'.page_table.translate_va :=
      List.mem_map_of_mem (List.mem_range'_1.mpr ⟨hle, by omega⟩)
    rw [← hplaces, PageTable.translate_va, hfind] at hmem
    obtain ⟨_, _, hcontra⟩ := List.mem_map.mp hmem
    cases hcontra
  obtain ⟨slices₂, hbuffer, hspans₂⟩ := translated_bytes_buffer_mapped ph' huser hmapped
  have hsame : places slices₂ = places slices := by
    refine (List.map_inj_right fun _ _ => Option.some.inj).mp ?_
    exact (hspans₂.places (Nat.le_add_right _ _)).trans hplaces.symm
  have hread : read_slices ph' slices₂ = read_slices ph' slices := by
    rw [read_slices_eq, read_slices_eq, hsame]
  rw [copyin, hbuffer, ok_bind]
  dsimp only
  rw [hspans₂.sum_eq (Nat.le_add_right _ _), hspans₂.ne_nil hpos, if_neg]
  · rw [Nat.add_sub_cancel_left, List.drop_length, List.append_nil, hread]
    rfl
  · simp

/-- Two places of one byte cannot hold different values. -/
theorem nodup_of_read_write (h : ∀ v : List UInt8, v.length = (slices.map Slice.len).sum →
    read_slices (write_slices ph slices v) slices = v) : (places slices).Nodup := by
  rw [List.nodup_iff_getElem?_ne_getElem?]
  intro i j hij hj heq
  have hi := hij.trans hj
  have hlen := length_places slices
  have hread := h ((List.range (places slices).length).map fun k => if k = i then 1 else 0)
    (by rw [List.length_map, List.length_range, hlen])
  generalize write_slices ph slices _ = ph' at hread
  have hsame : (read_slices ph' slices)[i]? = (read_slices ph' slices)[j]? := by
    rw [read_slices_eq, List.getElem?_map, List.getElem?_map, heq]
  rw [hread, List.getElem?_map, List.getElem?_map, List.getElem?_range hi, List.getElem?_range hj,
    Option.map_some, Option.map_some, if_pos rfl, if_neg hij.ne'] at hsame
  cases hsame

theorem roundTrips_iff (hpos : 0 < len) (hend : ptr + len ≤ 2 ^ 38)
    (hbuffer : translated_bytes_buffer ms ph ptr len = .ok (slices, ms', ph'))
    (hspans : Spans ms' (ptr + len) ptr slices) :
    RoundTrips ms ph ptr len ↔ (places slices).Nodup := by
  have hsum : (slices.map Slice.len).sum = len := by
    rw [hspans.sum_eq (Nat.le_add_right _ _), Nat.add_sub_cancel_left]
  constructor
  · intro htrips
    have hread : ∀ v : List UInt8, v.length = (slices.map Slice.len).sum →
        read_slices (write_slices ph' slices v) slices = v := by
      intro v hv
      obtain ⟨ms₁, ph₁, hcopyout, hcopyin⟩ := htrips v v (hv.trans hsum) (hv.trans hsum)
      cases (copyout_ok hpos hbuffer hspans (hv.trans hsum)).symm.trans hcopyout
      rw [copyin_ok hpos hend hspans _ (hv.trans hsum)] at hcopyin
      exact congrArg Prod.fst (Except.ok.inj hcopyin)
    exact nodup_of_read_write hread
  · intro hnodup v dst hv hdst
    refine ⟨ms', _, copyout_ok hpos hbuffer hspans hv, ?_⟩
    rw [copyin_ok hpos hend hspans _ hdst, read_write_slices hnodup (hv.trans hsum.symm)]

/-- The slices cover the range in its order, a copy to it changes no other byte, and a value is
read back from it if and only if no two of its addresses are places of one byte. -/
theorem buffer_covers (hend : ptr + len ≤ 2 ^ 38)
    (hmap : MemorySet.Mappable (visited ptr (ptr + len)) ms ph) :
    ∃ slices ms' ph', translated_bytes_buffer ms ph ptr len = .ok (slices, ms', ph') ∧
      (∀ s ∈ slices, 0 < s.len ∧ s.offset + s.len ≤ PAGE_SIZE) ∧
      (places slices).map some = (List.range' ptr len).map ms'.page_table.translate_va ∧
      (0 < len →
        (∀ v : List UInt8, v.length = len → ∃ ph'', copyout ms ph ptr v = .ok (ms', ph'') ∧
          (∀ q i, (q, i) ∉ places slices → ph''.bytes q i = ph'.bytes q i) ∧
          (ms.Keyed → ∀ q i, ms.InUse ph q → (q, i) ∉ places slices →
            ph''.bytes q i = ph.bytes q i)) ∧
        (RoundTrips ms ph ptr len ↔ (places slices).Nodup)) := by
  obtain ⟨slices, ms', ph', hbuffer, hspans, hloads⟩ := translated_bytes_buffer_mappable hend hmap
  refine ⟨slices, ms', ph', hbuffer, hspans.mem, ?_, fun hpos => ⟨fun v hv => ?_, ?_⟩⟩
  · rw [hspans.places (Nat.le_add_right _ _), Nat.add_sub_cancel_left]
  · have hout (q i : Nat) (hplace : (q, i) ∉ places slices) :
        (write_slices ph' slices v).bytes q i = ph'.bytes q i :=
      write_slices_outside fun hcovered => hplace (mem_places.mpr hcovered)
    refine ⟨_, copyout_ok hpos hbuffer hspans hv, hout, fun hkeyed q i huse hplace => ?_⟩
    exact (hout q i hplace).trans (congrFun (hloads.spared hkeyed q huse).2 i)
  · exact roundTrips_iff hpos hend hbuffer hspans

/-- The pages 0x10 and 0x11 on two frames. -/
def two_pages (p q : Nat) : Except Panic (MemorySet × Phys) := do
  let (ms, ph) ← MemorySet.new_bare ⟨StackFrameAllocator.new.init 32 64, fun _ _ => 0⟩
  let flags := PTEFlags.U ||| PTEFlags.R ||| PTEFlags.W
  let (page_table, ph) ← ms.page_table.map ph 0x10 p flags
  let (page_table, ph) ← page_table.map ph 0x11 q flags
  return ({ ms with page_table := page_table }, ph)

theorem buffer_covers_two_pages : ∃ ms ph, two_pages 5 6 = .ok (ms, ph) ∧
    RoundTrips ms ph 0x10FFC 8 := by
  obtain ⟨⟨ms, ph⟩, hpages, hfirst, hsecond, hbuffer⟩ : ∃ r, two_pages 5 6 = .ok r ∧
      (r.1.translate 0x10).isSome ∧ (r.1.translate 0x11).isSome ∧
        Meets (translated_bytes_buffer r.1 r.2 0x10FFC 8) (fun _ => False)
          fun b => (places b.1).Nodup := Meets.exists_ok (by decide +kernel)
  have hmap : MemorySet.Mappable (visited 0x10FFC (0x10FFC + 8)) ms ph :=
    Or.inl ⟨hfirst, Or.inl ⟨hsecond, trivial⟩⟩
  obtain ⟨slices, ms', ph', hslices, _, _, hcopies⟩ := buffer_covers (by decide) hmap
  exact ⟨ms, ph, hpages, (hcopies (by decide)).2.mpr (hbuffer.of_ok hslices)⟩

/-- Where two pages lie on one frame, as those of a segment that is attached twice do, a value of
more than a page is not read back. -/
theorem aliased_not_roundTrips : ∃ ms ph, two_pages 5 5 = .ok (ms, ph) ∧
    MemorySet.Mappable (visited 0x10000 (0x10000 + 4097)) ms ph ∧
    ¬ RoundTrips ms ph 0x10000 4097 := by
  obtain ⟨⟨ms, ph⟩, hpages, hfirst, hsecond, halias⟩ : ∃ r, two_pages 5 5 = .ok r ∧
      (r.1.translate 0x10).isSome ∧ (r.1.translate 0x11).isSome ∧
        r.1.page_table.translate_va 0x10000 = r.1.page_table.translate_va 0x11000 :=
    Meets.exists_ok (by decide +kernel)
  have hmap : MemorySet.Mappable (visited 0x10000 (0x10000 + 4097)) ms ph :=
    Or.inl ⟨hfirst, Or.inl ⟨hsecond, trivial⟩⟩
  refine ⟨ms, ph, hpages, hmap, fun htrips => ?_⟩
  have huser : 0x10000 + 4097 ≤ 2 ^ 38 := by decide
  obtain ⟨slices, ms', ph', hbuffer, hspans, hloads⟩ := translated_bytes_buffer_mappable huser hmap
  have hnodup := (roundTrips_iff (by decide) huser hbuffer hspans).mp htrips
  have hplaces := hspans.places (Nat.le_add_right _ _)
  have hkept (va : Nat) (hsome : (ms.translate (floor va)).isSome) :
      ms'.page_table.translate_va va = ms.page_table.translate_va va := by
    obtain ⟨pte, hpte⟩ := Option.isSome_iff_exists.mp hsome
    have hfind : ms.page_table.find_pte (floor va) = some pte := hpte
    have hfind' : ms'.page_table.find_pte (floor va) = some pte := hloads.kept _ pte hpte
    rw [PageTable.translate_va, PageTable.translate_va, hfind, hfind']
  have hget {i : Nat} (hi : i < 4097) : ((places slices).map some)[i]? =
      some (ms'.page_table.translate_va (0x10000 + i)) := by
    rw [hplaces, List.getElem?_map, List.getElem?_range' hi]
    simp
  have hsame : ((places slices).map some)[0]? = ((places slices).map some)[4096]? := by
    rw [hget (by decide : 0 < 4097), hget (by decide : 4096 < 4097)]
    exact congrArg some ((hkept 0x10000 hfirst).trans (halias.trans (hkept 0x11000 hsecond).symm))
  have hlen : (places slices).length = 4097 := by
    rw [← List.length_map (f := some), hplaces, List.length_map, List.length_range',
      Nat.add_sub_cancel_left]
  refine List.nodup_iff_getElem?_ne_getElem?.mp (hnodup.map (Option.some_injective _)) 0 4096
    (by decide) ?_ hsame
  rw [List.length_map, hlen]
  decide

end Copies

end MyGOS.Mm
