import MyGOS.Mm.Ownership

/-!
# Page faults

What `check_lazy` does to the ownership of frames: a lazy allocation or a copy
puts one new frame under the index of the page, and the only other case
changes the flags of an entry.
-/

namespace MyGOS.Mm

open Outcome

/-- A page mapped by the region with the frame map `m`, whose frame is `p`. -/
structure NewPage (E : Multiset Nat) (m : FrameMap) (pt : PageTable) (ph : Phys) (vpn p : Nat)
    (flags : PTEFlags) (m' : FrameMap) (pt' : PageTable) (ph' : Phys) : Prop where
  fresh : p ∉ pt.owned + m.owned + E
  moves : Moves E (pt.owned + m.owned) (pt'.owned + m'.owned) ph ph'
  calm : Calm (pt.owned + m.owned + E) (pt'.owned + m'.owned + E)
  put : Put (index vpn) p m.slots m'.slots
  quiet : Quiet E ph ph'
  find : ∀ v, pt'.find_pte v = if index v = index vpn then some ⟨p, flags⟩ else pt.find_pte v

/-- The page may be filled after that. -/
theorem NewPage.fill {E : Multiset Nat} {m m' : FrameMap} {pt pt' : PageTable}
    {ph ph' ph'' : Phys} {vpn p : Nat} {flags : PTEFlags}
    (h : NewPage E m pt ph vpn p flags m' pt' ph') (hallocator : ph''.allocator = ph'.allocator)
    (hbytes : ∀ q, q ≠ p → ph''.bytes q = ph'.bytes q) :
    NewPage E m pt ph vpn p flags m' pt' ph'' where
  fresh := h.fresh
  moves := by
    refine ⟨?_, ?_⟩
    · rw [hallocator]
      exact h.moves.owned
    · rw [hallocator]
      exact h.moves.base
  calm := h.calm
  put := h.put
  quiet := by
    have hp : p ∈ pt'.owned + m'.owned + E := by
      simp only [Multiset.mem_add, FrameMap.owned]
      exact Or.inl (Or.inr (Multiset.mem_map_of_mem Prod.snd h.put.mem))
    refine h.quiet.trans (Quiet.of_update ?_ (h.moves.owned.base_le hp) hbytes) h.moves.base
    exact fun hq => h.fresh (Multiset.mem_add.mpr (Or.inr hq))
  find := h.find

section NewPages

variable {E : Multiset Nat} {m : FrameMap} {pt : PageTable} {ph : Phys} {vpn : Nat}

/-- `insert_new`, something that may stop, and `map`. -/
theorem newPage_meets (h : Owned ph.allocator (pt.owned + m.owned + E)) (vpn : Nat) {α : Type}
    {f : FrameTracker × FrameMap × Phys → Except Panic α} {Q : α → Prop} {Err : Panic → Prop}
    (hmem : Err .outOfMemory)
    (hf : ∀ frame m₁ ph₁, frame.ppn ∉ pt.owned + m.owned + E →
      (∀ flags, Meets (pt.map ph₁ vpn frame.ppn flags)
        (fun e => e = .outOfMemory ∨ (pt.find_pte vpn).isSome) fun r =>
          pt.find_pte vpn = none ∧ NewPage E m pt ph vpn frame.ppn (flags ||| PTEFlags.V)
            m₁ r.1 r.2) → Meets (f (frame, m₁, ph₁)) Err Q) :
    Meets (m.insert_new ph vpn >>= f) Err Q := by
  have h' : Owned ph.allocator (m.owned + (pt.owned + E)) := by
    rwa [← add_assoc, add_comm m.owned]
  refine ((FrameMap.insert_new_meets h' vpn).mono_error fun e he => he ▸ hmem).bind ?_
  rintro ⟨frame, m₁, ph₁⟩ ⟨hfresh, hmoves, hcalm, hput, hquiet⟩
  dsimp only at hfresh hmoves hcalm hput hquiet
  have hassoc (M N : Multiset Nat) : N + M + E = M + (N + E) := by
    rw [← add_assoc, add_comm M]
  have howned := hmoves.owned
  rw [← hassoc, add_assoc] at howned
  refine hf frame m₁ ph₁ (by rwa [hassoc]) fun flags => ?_
  refine (PageTable.map_meets howned vpn frame.ppn flags).mono ?_
  rintro ⟨pt₂, ph₂⟩ ⟨hnone, hgrows, hfind⟩
  refine ⟨hnone, ?_, ?_, ?_, hput, ?_, hfind⟩
  · rwa [hassoc]
  · refine Moves.trans ?_ hgrows.moves.frame
    rw [add_comm pt.owned, add_comm pt.owned]
    exact hmoves.frame
  · have hcalm' := hgrows.calm
    rw [← add_assoc, ← add_assoc] at hcalm'
    rw [hassoc] at hcalm' ⊢
    exact hcalm.trans hcalm'
  · refine (hquiet.mono fun q hq => ?_).trans (hgrows.quiet.mono fun q hq => ?_) hmoves.base
    · simp only [Multiset.mem_add]
      exact Or.inr (Or.inr hq)
    · simp only [Multiset.mem_add]
      exact Or.inr (Or.inr hq)

/-- `lazy_map_vpn` of a framed area. -/
theorem VmArea.lazy_map_vpn_meets {area : VmArea}
    (h : Owned ph.allocator (pt.owned + area.frame_map.owned + E))
    (hmap : area.map_type = .Framed) (vpn : Nat) :
    Meets (area.lazy_map_vpn vpn pt ph)
      (fun e => e = .outOfMemory ∨ (pt.find_pte vpn).isSome) fun r =>
      ∃ p, pt.find_pte vpn = none ∧ r.1 = { area with frame_map := r.1.frame_map } ∧
        NewPage E area.frame_map pt ph vpn p
          (PTEFlags.from_map_permission area.permission ||| PTEFlags.V) r.1.frame_map r.2.1
          r.2.2 := by
  simp only [VmArea.lazy_map_vpn, hmap]
  refine newPage_meets h vpn (Or.inl rfl) ?_
  intro frame m₁ ph₁ hfresh hnew
  refine (hnew _).bind ?_
  rintro ⟨pt₂, ph₂⟩ ⟨hnone, hpage⟩
  exact ⟨frame.ppn, hnone, by rw [← hmap], hpage⟩

end NewPages

section Spaces

variable {text : KernelImage} {E : Multiset Nat} {R : Multiset (Nat × Nat)}
  {ms ms' : MemorySet} {ph ph' : Phys} {vpn p : Nat} {flags : PTEFlags} {m m' : FrameMap}

theorem owned_split (hslots : ms.slots = m.slots + R) :
    ms.owned + E = ms.page_table.owned + m.owned + (R.map Prod.snd + E) := by
  rw [MemorySet.owned, hslots, Multiset.map_add, FrameMap.owned]
  simp only [add_assoc]

/-- A new page of one region seen in the whole address space; `R` are the other slots. -/
theorem NewPage.faulted
    (h : NewPage (R.map Prod.snd + E) m ms.page_table ph vpn p flags m' ms'.page_table ph')
    (hslots : ms.slots = m.slots + R) (hslots' : ms'.slots = m'.slots + R)
    (hregions : SameRegions ms ms')
    (hvalid : ∀ k, k ≠ index vpn → (ms'.MmapValid k ↔ ms.MmapValid k))
    (hmmap : ∀ e, e.1 ≠ index vpn → (e ∈ ms'.mmap_slots ↔ e ∈ ms.mmap_slots))
    (hmanager : ms.mmap_manager.WellFormed → ms'.mmap_manager.WellFormed) :
    Faulted E ms ph vpn p flags ms' ph' where
  fresh := by
    rw [owned_split hslots]
    exact h.fresh
  translate := h.find
  moves := by
    have hmoves := h.moves.frame
    rwa [MemorySet.owned, MemorySet.owned, hslots, hslots', Multiset.map_add, Multiset.map_add,
      ← add_assoc, ← add_assoc]
  calm := by
    rw [owned_split hslots, owned_split hslots']
    exact h.calm
  quiet := h.quiet.mono fun q hq => Multiset.mem_add.mpr (Or.inr hq)
  put := by
    rw [hslots, hslots']
    exact h.put.add R
  regions := hregions
  valid := hvalid
  mmap := hmmap
  manager := hmanager

theorem MemorySet.slots_stack (ms : MemorySet) : ms.slots = ms.user_stack_areas.frame_map.slots +
    (MemorySet.area_slots ms.map_areas + ms.mmap_slots + ms.heap_areas.frame_map.slots) := by
  rw [MemorySet.slots]
  ac_rfl

theorem MemorySet.slots_heap (ms : MemorySet) : ms.slots = ms.heap_areas.frame_map.slots +
    (MemorySet.area_slots ms.map_areas + ms.mmap_slots + ms.user_stack_areas.frame_map.slots) := by
  rw [MemorySet.slots]
  ac_rfl

theorem MemorySet.slots_mmap (ms : MemorySet) : ms.slots = ms.mmap_manager.frame_map.slots +
    (MemorySet.area_slots ms.map_areas + ms.user_stack_areas.frame_map.slots +
      ms.heap_areas.frame_map.slots) := by
  rw [MemorySet.slots, MemorySet.mmap_slots]
  ac_rfl

/-- A lazy allocation; a frame that went to the mmap manager is one of a touched page. -/
structure Touched (text : KernelImage) (E : Multiset Nat) (ms : MemorySet) (ph : Phys)
    (vpn p : Nat) (flags : PTEFlags) (ms' : MemorySet) (ph' : Phys) : Prop extends
    Faulted E ms ph vpn p flags ms' ph' where
  unmapped : ms.translate vpn = none
  not_cow : flags.cow = false
  tracked : Tracked text ms'
  slot : (index vpn, p) ∈ ms'.mmap_slots → ms'.MmapValid (index vpn)

/-- The frame of a fault is not the mmap manager's if the mmap manager did not change. -/
theorem Faulted.notMem_mmap_slots (hf : Faulted E ms ph vpn p flags ms' ph') (k : Nat) :
    (k, p) ∉ ms.mmap_slots := by
  intro hmem
  refine hf.fresh (Multiset.mem_add.mpr (Or.inl (Multiset.mem_add.mpr (Or.inr ?_))))
  refine Multiset.mem_map.mpr ⟨(k, p), ?_, rfl⟩
  rw [ms.slots_mmap]
  exact Multiset.mem_add.mpr (Or.inl hmem)

/-- The index of an unmapped page is none of a touched page of a mapping. -/
theorem Tracked.not_mmapValid (hT : Tracked text ms) (hnone : ms.translate vpn = none) :
    ¬ ms.MmapValid (index vpn) := by
  intro hvalid
  obtain ⟨pte, hpte, _⟩ := hT.mmap_valid vpn hvalid
  cases hnone.symm.trans hpte

theorem lazy_alloc_stack_meets (hT : Tracked text ms) (h : Owned ph.allocator (ms.owned + E))
    (vpn : Nat) :
    Meets (ms.lazy_alloc_stack ph vpn)
      (fun _ => True) fun r => ∃ p flags, Touched text E ms ph vpn p flags r.1 r.2 := by
  rw [owned_split ms.slots_stack] at h
  refine ((VmArea.lazy_map_vpn_meets h hT.framed_stack vpn).mono_error fun _ _ => trivial).bind ?_
  rintro ⟨area, pt, ph'⟩ ⟨p, hnone, harea, hpage⟩
  dsimp only at harea hpage
  have hf : Faulted E ms ph vpn p _
      { ms with user_stack_areas := area, page_table := pt } ph' :=
    hpage.faulted ms.slots_stack (MemorySet.slots_stack _)
      ⟨rfl, by rw [harea]; rfl, rfl, rfl⟩ (fun _ _ => Iff.rfl) (fun _ _ => Iff.rfl) id
  have hnot := hT.not_mmapValid hnone
  exact ⟨p, _, hf, hnone, rfl, hT.faulted hf (fun hv => absurd hv hnot)
    fun _ hv => absurd hv hnot, fun hmem => absurd hmem (hf.notMem_mmap_slots _)⟩

theorem lazy_alloc_heap_meets (hT : Tracked text ms) (h : Owned ph.allocator (ms.owned + E))
    (vpn : Nat) :
    Meets (ms.lazy_alloc_heap ph vpn)
      (fun _ => True) fun r => ∃ p flags, Touched text E ms ph vpn p flags r.1 r.2 := by
  rw [owned_split ms.slots_heap] at h
  refine ((VmArea.lazy_map_vpn_meets h hT.framed_heap vpn).mono_error fun _ _ => trivial).bind ?_
  rintro ⟨area, pt, ph'⟩ ⟨p, hnone, harea, hpage⟩
  dsimp only at harea hpage
  have hf : Faulted E ms ph vpn p _ { ms with heap_areas := area, page_table := pt } ph' :=
    hpage.faulted ms.slots_heap (MemorySet.slots_heap _)
      ⟨rfl, rfl, by rw [harea]; rfl, rfl⟩ (fun _ _ => Iff.rfl) (fun _ _ => Iff.rfl) id
  have hnot := hT.not_mmapValid hnone
  exact ⟨p, _, hf, hnone, rfl, hT.faulted hf (fun hv => absurd hv hnot)
    fun _ hv => absurd hv hnot, fun hmem => absurd hmem (hf.notMem_mmap_slots _)⟩

/-- A page of a mapping; the page is touched now. -/
theorem lazy_mmap_meets (hT : Tracked text ms) (h : Owned ph.allocator (ms.owned + E))
    (hlow : floor ms.mmap_manager.mmap_start ≤ vpn) (hhigh : vpn < floor ms.mmap_manager.mmap_top) :
    Meets (ms.lazy_mmap ph vpn) (fun _ => True) fun r =>
      ∃ p flags, Touched text E ms ph vpn p flags r.1 r.2 := by
  rw [owned_split ms.slots_mmap] at h
  unfold MemorySet.lazy_mmap
  refine newPage_meets h vpn trivial ?_
  intro frame m₁ ph₁ hfresh hnew
  dsimp only
  split
  · trivial
  · rename_i page hpage
    refine ((hnew _).mono_error fun _ _ => trivial).bind ?_
    rintro ⟨pt₂, ph₂⟩ ⟨hnone, hnewPage⟩
    have hkey := hT.manager.keyed vpn page hpage
    have htranslate := (hnewPage.find page.vpn).trans (if_pos (by rw [hkey]))
    refine (MmapPage.lazy_map_page_meets htranslate).bind ?_
    rintro ⟨page', ph₃⟩ ⟨hvalid, hallocator, hbytes⟩
    dsimp only at hvalid hallocator hbytes ⊢
    have hf : Faulted E ms ph vpn frame.ppn
        (PTEFlags.from_map_ports page.prot ||| PTEFlags.U ||| PTEFlags.V) { ms with
        page_table := pt₂
        mmap_manager := { ms.mmap_manager with
          mmap_map := ms.mmap_manager.mmap_map.insert vpn page', frame_map := m₁ } } ph₃ := by
      refine (hnewPage.fill hallocator hbytes).faulted ms.slots_mmap (MemorySet.slots_mmap _)
        ⟨rfl, rfl, rfl, rfl⟩ ?_ ?_ ?_
      · intro k hk
        constructor
        · rintro ⟨v, page'', hv, hv', rfl⟩
          rw [Std.TreeMap.getElem?_insert, if_neg] at hv
          · exact ⟨v, page'', hv, hv', rfl⟩
          · intro heq
            exact hk (by rw [Std.LawfulEqCmp.eq_of_compare heq])
        · rintro ⟨v, page'', hv, hv', rfl⟩
          refine ⟨v, page'', ?_, hv', rfl⟩
          rw [Std.TreeMap.getElem?_insert, if_neg]
          · exact hv
          · intro heq
            exact hk (by rw [Std.LawfulEqCmp.eq_of_compare heq])
      · exact fun e hne => hnewPage.put.mem_iff hne
      · intro hm
        have hm' := @MmapManager.WellFormed.insert _ vpn page' hm (by rw [hvalid]; exact hkey)
          fun _ => ⟨hlow, hhigh⟩
        exact ⟨hm'.keyed, hm'.start_aligned, hm'.top_aligned, hm'.touched⟩
    refine ⟨frame.ppn, _, hf, hnone, rfl, hT.faulted hf (fun _ => hnewPage.put.mem) ?_, fun _ => ?_⟩
    · intro hcow
      cases hcow
    · exact ⟨vpn, page', Std.TreeMap.getElem?_insert_self, by rw [hvalid], rfl⟩

end Spaces

end MyGOS.Mm
