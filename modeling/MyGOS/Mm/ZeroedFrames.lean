import MyGOS.Mm.VmArea

/-!
# New pages are zero

A frame is zeroed when it is allocated, and building the path to a page writes
nothing but zeros; so the pages that an area gets are zero until something is
copied to them.
-/

namespace MyGOS.Mm

open Outcome

section Frames

variable {ph ph' : Phys} {frame : FrameTracker} {m m' : FrameMap} {pt pt' : PageTable}
  {vpn q i : Nat}

theorem Phys.alloc_frame_bytes (h : ph.alloc_frame = .ok (frame, ph')) :
    ph'.bytes = Function.update ph.bytes frame.ppn fun _ => 0 := by
  obtain ⟨r, _, h⟩ := bind_eq_ok.mp h
  split at h
  · cases h
  · cases h
    rfl

/-- A byte that is zero stays zero when a frame is allocated. -/
theorem Phys.alloc_frame_zero (h : ph.alloc_frame = .ok (frame, ph')) (hzero : ph.bytes q i = 0) :
    ph'.bytes q i = 0 := by
  rw [alloc_frame_bytes h]
  rcases eq_or_ne q frame.ppn with rfl | hne
  · rw [Function.update_self]
  · rw [Function.update_of_ne hne, hzero]

theorem PageTable.map_zero {ppn : Nat} {flags : PTEFlags}
    (h : pt.map ph vpn ppn flags = .ok (pt', ph')) (hzero : ph.bytes q i = 0) :
    ph'.bytes q i = 0 := by
  obtain ⟨⟨pt₂, ph₂⟩, hcreate, h⟩ := bind_eq_ok.mp h
  obtain ⟨⟨pt₁, ph₁⟩, hdir, htab⟩ := bind_eq_ok.mp hcreate
  have hzero₁ : ph₁.bytes q i = 0 := by
    unfold create_dir at hdir
    split at hdir
    · cases hdir
      exact hzero
    · obtain ⟨⟨frame, ph₃⟩, halloc, hdir⟩ := bind_eq_ok.mp hdir
      cases hdir
      exact Phys.alloc_frame_zero halloc hzero
  have hzero₂ : ph₂.bytes q i = 0 := by
    unfold create_tab at htab
    dsimp only at htab
    split at htab
    · cases htab
      exact hzero₁
    · obtain ⟨⟨frame, ph₃⟩, halloc, htab⟩ := bind_eq_ok.mp htab
      cases htab
      exact Phys.alloc_frame_zero halloc hzero₁
  dsimp only at h
  split at h
  · cases h
  · cases h
    exact hzero₂

/-- A new page for which there was no tracker. -/
theorem FrameMap.insert_new_zero (hnone : m[vpn]? = none)
    (h : m.insert_new ph vpn = .ok (frame, m', ph')) (i : Nat) : ph'.bytes frame.ppn i = 0 := by
  obtain ⟨⟨frame₁, ph₁⟩, halloc, h⟩ := bind_eq_ok.mp h
  obtain ⟨⟨m₁, ph₂⟩, hinsert, h⟩ := bind_eq_ok.mp h
  unfold FrameMap.insert_frame at hinsert
  rw [hnone] at hinsert
  cases hinsert
  cases h
  rw [Phys.alloc_frame_bytes halloc, Function.update_self]

end Frames

namespace VmArea

variable {area area' : VmArea} {pt pt' : PageTable} {ph ph' : Phys} {vpn q i : Nat}

/-- One page more: it is zero, and what was zero stays so. -/
theorem inflate_page_zero (hmap : area.map_type = .Framed)
    (h : inflate_page (area, pt, ph) vpn = .ok (area', pt', ph')) :
    area'.map_type = .Framed ∧ (∀ q i, ph.bytes q i = 0 → ph'.bytes q i = 0) ∧
      ∃ pte : PageTableEntry, (∀ i, ph'.bytes pte.ppn i = 0) ∧
        ∀ v, pt'.find_pte v = if index v = index vpn then some pte else pt.find_pte v := by
  simp only [inflate_page, hmap] at h
  obtain ⟨⟨frame, ph₁⟩, halloc, h⟩ := bind_eq_ok.mp h
  dsimp only at h
  split at h
  · cases h
  · obtain ⟨⟨pt₁, ph₂⟩, hpt, h⟩ := bind_eq_ok.mp h
    cases h
    refine ⟨rfl, fun q i hzero => ?_, _, fun i => ?_, (PageTable.map_ok hpt).2⟩
    · exact PageTable.map_zero hpt (Phys.alloc_frame_zero halloc hzero)
    · refine PageTable.map_zero hpt ?_
      rw [Phys.alloc_frame_bytes halloc, Function.update_self]

theorem inflate_pagetable_zero (hmap : area.map_type = .Framed)
    (h : area.inflate_pagetable pt ph = .ok (area', pt', ph')) {v : Nat}
    (hv : index v ∈ area.vpn_range.vpns.map index) {pte : PageTableEntry}
    (hpte : pt'.find_pte v = some pte) (i : Nat) : ph'.bytes pte.ppn i = 0 := by
  have hloop := foldlM_ok (f := inflate_page)
    (I := fun rest s => s.1.map_type = .Framed ∧ ∀ v pte,
      index v ∈ area.vpn_range.vpns.map index → index v ∉ rest.map index →
        s.2.1.find_pte v = some pte → ∀ i, s.2.2.bytes pte.ppn i = 0) ?_
    ⟨hmap, fun v _ hin hout => absurd hin hout⟩ h
  · exact hloop.2 v pte hv (by simp) hpte i
  · rintro vpn rest ⟨area₁, pt₁, ph₁⟩ ⟨area₂, pt₂, ph₂⟩ ⟨hmap₁, hzero⟩ hpage
    obtain ⟨hmap₂, hkept, pte', hnew, hfind⟩ := inflate_page_zero hmap₁ hpage
    refine ⟨hmap₂, fun v pte hin hout hpte i => ?_⟩
    dsimp only at hpte hzero
    rw [hfind v] at hpte
    split at hpte
    · cases hpte
      exact hnew i
    · rename_i hne
      refine hkept _ _ (hzero v pte hin ?_ hpte i)
      rw [List.map_cons, List.mem_cons]
      exact not_or.mpr ⟨hne, hout⟩

end VmArea

end MyGOS.Mm
