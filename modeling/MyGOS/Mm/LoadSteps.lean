import MyGOS.Mm.LocalSteps

/-!
# Creating and dropping an address space

`load_elf` maps every page it loads with a new frame, so what it builds is
tracked and shares nothing. `drop` gives back exactly what the address space
owns.
-/

namespace MyGOS.Mm

open Outcome

section Drop

variable {E : Multiset Nat} {ph : Phys}

/-- Dropping trackers one after the other. -/
theorem drop_all {α : Type} (f : α → FrameTracker) (l : List α) :
    ∀ {ph : Phys}, Owned ph.allocator (↑(l.map fun a => (f a).ppn) + E) →
      Meets (l.foldlM (fun ph a => ph.drop (f a)) ph) (fun _ => False) fun ph' =>
        Moves E ↑(l.map fun a => (f a).ppn) 0 ph ph' := by
  induction l with
  | nil => exact fun h => ⟨h, rfl⟩
  | cons a l ih =>
    intro ph h
    rw [List.map_cons, ← Multiset.cons_coe, Multiset.cons_add] at h
    obtain ⟨ph₁, hdrop, hbase, howned, _⟩ := Phys.drop_spec h
    rw [List.foldlM_cons, hdrop]
    exact (ih howned).mono fun ph' hph' => ⟨hph'.owned, hph'.base.trans hbase⟩

theorem FrameMap.drop_meets {m : FrameMap} (h : Owned ph.allocator (m.owned + E)) :
    Meets (m.drop ph) (fun _ => False) fun ph' => Moves E m.owned 0 ph ph' := by
  have howned : m.owned = ↑(m.toList.map fun e => e.2.ppn) := by
    rw [FrameMap.owned, FrameMap.slots, Multiset.map_coe, List.map_map]
    rfl
  rw [howned] at h ⊢
  exact drop_all Prod.snd m.toList h

theorem drop_areas (areas : List VmArea) :
    ∀ {ph : Phys}, Owned ph.allocator ((MemorySet.area_slots areas).map Prod.snd + E) →
      Meets (areas.foldlM (fun ph area => area.frame_map.drop ph) ph) (fun _ => False) fun ph' =>
        Moves E ((MemorySet.area_slots areas).map Prod.snd) 0 ph ph' := by
  induction areas with
  | nil => exact fun h => ⟨h, rfl⟩
  | cons area areas ih =>
    intro ph h
    have hsplit : MemorySet.area_slots (area :: areas) =
        area.frame_map.slots + MemorySet.area_slots areas := rfl
    rw [hsplit, Multiset.map_add, add_assoc] at h
    rw [List.foldlM_cons]
    refine (FrameMap.drop_meets h).bind fun ph₁ h₁ => ?_
    have howned := h₁.owned
    rw [zero_add] at howned
    exact (ih howned).mono fun ph' hph' => ⟨hph'.owned, hph'.base.trans h₁.base⟩

theorem drop_empty_areas (areas : List VmArea) (h : ∀ area ∈ areas, area.frame_map = ∅) (ph : Phys) :
    areas.foldlM (fun ph area => area.frame_map.drop ph) ph = .ok ph := by
  induction areas with
  | nil => rfl
  | cons area areas ih =>
    obtain ⟨hempty, hareas⟩ := List.forall_mem_cons.mp h
    rw [List.foldlM_cons, hempty]
    exact ih hareas

/-- Nothing is left, and nothing of anybody else is touched. The areas of shared memory have no
trackers. -/
theorem MemorySet.drop_spares {ms : MemorySet} (hshm : ∀ area ∈ ms.shm_areas, area.frame_map = ∅)
    (h : Owned ph.allocator (ms.owned + E)) :
    Meets (ms.drop ph) (fun _ => False) fun ph' => Moves E ms.owned 0 ph ph' := by
  have hsplit : ms.owned + E = ms.page_table.owned +
      ((MemorySet.area_slots ms.map_areas).map Prod.snd + (ms.mmap_manager.frame_map.owned +
        (ms.heap_areas.frame_map.owned + (ms.user_stack_areas.frame_map.owned + E)))) := by
    rw [MemorySet.owned, MemorySet.slots, MemorySet.mmap_slots]
    simp only [Multiset.map_add, FrameMap.owned]
    ac_rfl
  rw [hsplit] at h
  unfold MemorySet.drop
  refine (drop_all id ms.page_table.frames h).bind fun ph₁ h₁ => ?_
  refine (drop_areas ms.map_areas (by simpa using h₁.owned)).bind fun ph₂ h₂ => ?_
  refine (FrameMap.drop_meets (by simpa using h₂.owned)).bind fun ph₃ h₃ => ?_
  refine (FrameMap.drop_meets (by simpa using h₃.owned)).bind fun ph₄ h₄ => ?_
  rw [drop_empty_areas _ hshm]
  refine (FrameMap.drop_meets (by simpa using h₄.owned)).mono fun ph₅ h₅ => ?_
  refine ⟨h₅.owned, ?_⟩
  rw [h₅.base, h₄.base, h₃.base, h₂.base, h₁.base]

theorem MemorySet.drop_meets {ms : MemorySet} (hshm : ms.shm_areas = [])
    (h : Owned ph.allocator (ms.owned + E)) :
    Meets (ms.drop ph) (fun _ => False) fun ph' => Moves E ms.owned 0 ph ph' := by
  refine MemorySet.drop_spares (fun area harea => ?_) h
  rw [hshm] at harea
  exact absurd harea List.not_mem_nil

end Drop

section Load

variable {text : KernelImage} {E : Multiset Nat} {ms ms' : MemorySet} {ph ph' : Phys}

/-- An address space that is being built; `E` are the trackers of everybody else. -/
structure Loading (text : KernelImage) (E : Multiset Nat) (ms : MemorySet) (ph : Phys) : Prop where
  mapped : ∀ vpn pte, ms.translate vpn = some pte →
    IsTrampoline text vpn pte ∨ (index vpn, pte.ppn) ∈ ms.slots
  not_cow : ∀ vpn pte, ms.translate vpn = some pte → pte.is_cow = false
  alone : ∀ vpn pte, ms.translate vpn = some pte → pte.writable = true →
    (ms.owned + E).count pte.ppn ≤ 1
  area_mapped : ∀ vpn, ms.InArea (fun _ => True) (index vpn) → (ms.translate vpn).isSome
  kinds : ∀ area ∈ ms.map_areas.map VmArea.from_another, area.map_type = .Framed ∧
    (area.area_type = .Elf ∨ area.area_type = .TrapContext)
  framed_stack : ms.user_stack_areas.map_type = .Framed
  framed_heap : ms.heap_areas.map_type = .Framed
  empty_stack : ms.user_stack_areas.frame_map = ∅
  empty_heap : ms.heap_areas.frame_map = ∅
  no_shm : ms.shm_areas = []
  no_mmap : ms.mmap_manager = .new MMAP_BASE MMAP_BASE
  owned : Owned ph.allocator (ms.owned + E)
  calm : Calm E (ms.owned + E)

theorem Loading.mmap_slots (h : Loading text E ms ph) : ms.mmap_slots = 0 := by
  rw [MemorySet.mmap_slots, h.no_mmap]
  exact FrameMap.slots_empty

theorem Loading.not_mmapValid (h : Loading text E ms ph) (k : Nat) : ¬ ms.MmapValid k := by
  rintro ⟨vpn, page, hpage, _⟩
  rw [h.no_mmap] at hpage
  simp [MmapManager.new] at hpage

theorem Loading.tracked (h : Loading text E ms ph) : Tracked text ms where
  mapped := h.mapped
  mmap_valid vpn hv := absurd hv (h.not_mmapValid _)
  cow_apart vpn pte hpte hcow := by
    rw [h.not_cow vpn pte hpte] at hcow
    cases hcow
  area_mapped := h.area_mapped
  kinds := h.kinds
  framed_stack := h.framed_stack
  framed_heap := h.framed_heap
  no_shm := h.no_shm
  manager := by
    rw [h.no_mmap]
    exact MmapManager.WellFormed.new

theorem Loading.shares (h : Loading text E ms ph) : ms.Shares where
  cow vpn pte hpte hcow := by
    rw [h.not_cow vpn pte hpte] at hcow
    cases hcow
  mmap vpn pte _ hslot := by
    rw [h.mmap_slots] at hslot
    exact absurd hslot (Multiset.notMem_zero _)

theorem VmArea.new_meets (start_va end_va : Nat) (map_type : MapType) (area_type : VmAreaType)
    (permission : MapPermission) (file : Option File) (file_offset : Nat) :
    Meets (VmArea.new start_va end_va map_type area_type permission file file_offset)
      (fun _ => True) fun area =>
      area.map_type = map_type ∧ area.area_type = area_type ∧ area.frame_map = ∅ := by
  unfold VmArea.new
  cases VPNRange.from_va start_va end_va with
  | error e => trivial
  | ok range => exact ⟨rfl, rfl, rfl⟩

theorem new_bare_meets (text : KernelImage) (h : Owned ph.allocator E) :
    Meets (MemorySet.new_bare ph) (fun _ => True) fun r =>
      Loading text E r.1 r.2 ∧ r.2.allocator.base_num = ph.allocator.base_num := by
  unfold MemorySet.new_bare PageTable.new
  refine (((Phys.alloc_frame_meets h).mono_error fun _ _ => trivial).bind (Q := _)
    (S := fun r : PageTable × Phys => (∀ v, r.1.find_pte v = none) ∧
      r.2.allocator.base_num = ph.allocator.base_num ∧
      Owned r.2.allocator (r.1.owned + E) ∧ Calm E (r.1.owned + E)) ?_).bind ?_
  · rintro ⟨frame, ph'⟩ ⟨hfresh, _, hbase, howned, _⟩
    exact ⟨fun v => rfl, hbase, howned, Calm.cons hfresh⟩
  · rintro ⟨pt, ph'⟩ ⟨hnone, hbase, howned, hcalm⟩
    refine (VmArea.new_meets 0 0 _ _ _ _ _).bind fun heap hheap => ?_
    refine (VmArea.new_meets 0 0 _ _ _ _ _).bind fun stack hstack => ?_
    obtain ⟨hheapFramed, _, hheapEmpty⟩ := hheap
    obtain ⟨hstackFramed, _, hstackEmpty⟩ := hstack
    dsimp only at hnone hbase howned hcalm
    have hslots : MemorySet.slots
        { page_table := pt, map_areas := [], mmap_manager := .new MMAP_BASE MMAP_BASE
          heap_areas := heap, shm_areas := [], shm_top := SHM_BASE, brk_start := 0, brk := 0
          user_stack_areas := stack, user_stack_start := 0, user_stack_end := 0 } = 0 := by
      simp [MemorySet.slots, MemorySet.area_slots, MemorySet.mmap_slots, MmapManager.new,
        hheapEmpty, hstackEmpty]
    have hno {v : Nat} {pte : PageTableEntry} {P : Prop} (hv : pt.find_pte v = some pte) : P := by
      cases (hnone v).symm.trans hv
    have howned' : MemorySet.owned
        { page_table := pt, map_areas := [], mmap_manager := .new MMAP_BASE MMAP_BASE
          heap_areas := heap, shm_areas := [], shm_top := SHM_BASE, brk_start := 0, brk := 0
          user_stack_areas := stack, user_stack_start := 0, user_stack_end := 0 } = pt.owned := by
      rw [MemorySet.owned, hslots, Multiset.map_zero, add_zero]
    refine ⟨⟨fun v pte hv => hno hv, fun v pte hv => hno hv, fun v pte hv => hno hv, ?_, ?_,
      hstackFramed, hheapFramed, hstackEmpty, hheapEmpty, rfl, rfl, ?_, ?_⟩, hbase⟩
    · rintro v ⟨area, harea, _⟩
      cases harea
    · rintro area harea
      cases harea
    · rwa [howned']
    · rwa [howned']

/-- A trampoline page. -/
theorem Loading.map_page (h : Loading text E ms ph) {va ppn : Nat} {flags : PTEFlags}
    (htramp : ∀ v pte, index v = index (floor va) → pte.ppn = ppn → IsTrampoline text v pte)
    (hcow : flags.cow = false) (hw : flags.w = false) :
    Meets (ms.page_table.map ph (floor va) ppn flags) (fun _ => True) fun r =>
      Loading text E { ms with page_table := r.1 } r.2 ∧
        r.2.allocator.base_num = ph.allocator.base_num := by
  have howned := h.owned
  rw [MemorySet.owned, add_assoc] at howned
  refine ((PageTable.map_meets howned _ _ _).mono_error fun _ _ => trivial).mono ?_
  rintro ⟨pt, ph'⟩ ⟨_, hgrows, hfind⟩
  have hcalm : Calm (ms.owned + E) (MemorySet.owned { ms with page_table := pt } + E) := by
    have := hgrows.calm
    rwa [← add_assoc, ← add_assoc] at this
  refine ⟨⟨fun v pte hv => ?_, fun v pte hv => ?_, fun v pte hv hw' => ?_, fun v hv => ?_, h.kinds,
    h.framed_stack, h.framed_heap, h.empty_stack, h.empty_heap, h.no_shm, h.no_mmap, ?_,
    h.calm.trans hcalm⟩, hgrows.moves.base⟩
  · rw [MemorySet.translate, PageTable.translate, hfind v] at hv
    split at hv
    · rename_i heq
      cases hv
      exact Or.inl (htramp v _ heq rfl)
    · exact h.mapped v pte hv
  · rw [MemorySet.translate, PageTable.translate, hfind v] at hv
    split at hv
    · cases hv
      simpa [PageTableEntry.is_cow, PTEFlags.V] using hcow
    · exact h.not_cow v pte hv
  · rw [MemorySet.translate, PageTable.translate, hfind v] at hv
    split at hv
    · cases hv
      simp [PageTableEntry.writable, PTEFlags.V, hw] at hw'
    · exact (hcalm pte.ppn).trans (max_le (h.alone v pte hv hw') (le_refl 1))
  · rw [MemorySet.translate, PageTable.translate, hfind v]
    split
    · rfl
    · exact h.area_mapped v hv
  · have := hgrows.moves.owned
    rwa [← add_assoc] at this

theorem Loading.map_trampoline (h : Loading text E ms ph) :
    Meets (ms.map_trampoline text ph) (fun _ => True) fun r =>
      Loading text E r.1 r.2 ∧ r.2.allocator.base_num = ph.allocator.base_num := by
  refine (h.map_page (fun v pte hv hp => Or.inl ⟨hv, hp⟩) rfl rfl).bind ?_
  exact fun r hr => hr

theorem Loading.map_signal_trampoline (h : Loading text E ms ph) :
    Meets (ms.map_signal_trampoline text ph) (fun _ => True) fun r =>
      Loading text E r.1 r.2 ∧ r.2.allocator.base_num = ph.allocator.base_num := by
  refine (h.map_page (fun v pte hv hp => Or.inr ⟨hv, hp⟩) rfl rfl).bind ?_
  exact fun r hr => hr

theorem copy_loop_meets (file : File) (data_start : Nat) (page_table : PageTable) (fuel : Nat) :
    ∀ (offset data_len page_offset vpn : Nat) (ph : Phys),
      Meets (VmArea.copy_loop file data_start page_table fuel offset data_len page_offset vpn ph)
        (fun _ => True) fun ph' => ph'.allocator = ph.allocator := by
  induction fuel with
  | zero => exact fun _ _ _ _ _ => rfl
  | succ fuel ih =>
    intro offset data_len page_offset vpn ph
    rw [VmArea.copy_loop]
    dsimp only
    split
    · trivial
    · split
      · trivial
      · split
        · exact rfl
        · exact ih _ _ _ _ _

theorem MemorySet.slots_append_area (ms : MemorySet) (pt : PageTable) (area : VmArea) :
    MemorySet.slots { ms with page_table := pt, map_areas := ms.map_areas ++ [area] } =
      ms.slots + area.frame_map.slots := by
  have hareaSlots : MemorySet.area_slots (ms.map_areas ++ [area]) =
      MemorySet.area_slots ms.map_areas + area.frame_map.slots := by
    simp [MemorySet.area_slots]
  rw [MemorySet.slots, MemorySet.slots]
  dsimp only
  rw [hareaSlots, MemorySet.mmap_slots, MemorySet.mmap_slots]
  ac_rfl

theorem MemorySet.owned_append_area (ms : MemorySet) (pt : PageTable) (area : VmArea) :
    MemorySet.owned { ms with page_table := pt, map_areas := ms.map_areas ++ [area] } + E =
      pt.owned + area.frame_map.owned + (ms.slots.map Prod.snd + E) := by
  rw [MemorySet.owned, ms.slots_append_area pt area, Multiset.map_add, FrameMap.owned]
  ac_rfl

/-- What is owned before the pages of an area are mapped. -/
theorem MemorySet.owned_before_area {area : VmArea} (ms : MemorySet) (hempty : area.frame_map = ∅) :
    ms.owned + E =
      ms.page_table.owned + area.frame_map.owned + (ms.slots.map Prod.snd + E) := by
  rw [MemorySet.owned, hempty, FrameMap.owned, FrameMap.slots_empty, Multiset.map_zero, add_zero,
    add_assoc]

/-- The bytes of the frames may change. -/
theorem Loading.of_allocator (h : Loading text E ms ph)
    (hallocator : ph'.allocator = ph.allocator) : Loading text E ms ph' :=
  { h with owned := by rw [hallocator]; exact h.owned }

/-- An area whose pages are all mapped with new frames. -/
theorem Loading.inflated {area area' : VmArea} {pt : PageTable} (h : Loading text E ms ph)
    (hi : VmArea.Inflated (ms.slots.map Prod.snd + E) area.vpn_range.vpns area ms.page_table ph
      area' pt ph') (hmap : area.map_type = .Framed)
    (htype : area.area_type = .Elf ∨ area.area_type = .TrapContext) (hempty : area.frame_map = ∅) :
    Loading text E { ms with page_table := pt, map_areas := ms.map_areas ++ [area'] } ph' := by
  have hslots := ms.slots_append_area pt area'
  have howned := ms.owned_append_area (E := E) pt area'
  have hold := ms.owned_before_area (E := E) hempty
  have hcalm := hi.calm
  rw [← hold, ← howned] at hcalm
  have hnew : ∀ v pte, pt.find_pte v = some pte → index v ∈ area.vpn_range.vpns.map index →
      pte.ppn ∉ ms.owned + E ∧ (index v, pte.ppn) ∈ area'.frame_map.slots ∧
        pte.is_cow = false := by
    intro v pte hv hin
    obtain ⟨p, hfresh, hslot, hp⟩ := hi.new v hin
    cases hv.symm.trans hp
    rw [hold]
    exact ⟨hfresh, hslot, rfl⟩
  have hsame : area'.from_another = area.from_another := by
    rw [hi.same]
    rfl
  refine ⟨fun v pte hv => ?_, fun v pte hv => ?_, fun v pte hv hw => ?_, ?_, ?_,
    h.framed_stack, h.framed_heap, h.empty_stack, h.empty_heap, h.no_shm, h.no_mmap, ?_,
    h.calm.trans hcalm⟩
  · rw [hslots]
    rcases Decidable.em (index v ∈ area.vpn_range.vpns.map index) with hin | hin
    · exact Or.inr (Multiset.mem_add.mpr (Or.inr (hnew v pte hv hin).2.1))
    · refine (h.mapped v pte ((hi.old v hin).symm.trans hv)).imp_right fun hmem => ?_
      exact Multiset.mem_add.mpr (Or.inl hmem)
  · rcases Decidable.em (index v ∈ area.vpn_range.vpns.map index) with hin | hin
    · exact (hnew v pte hv hin).2.2
    · exact h.not_cow v pte ((hi.old v hin).symm.trans hv)
  · have hcount := hcalm pte.ppn
    rcases Decidable.em (index v ∈ area.vpn_range.vpns.map index) with hin | hin
    · rw [Multiset.count_eq_zero.mpr (hnew v pte hv hin).1] at hcount
      exact hcount
    · have hone := h.alone v pte ((hi.old v hin).symm.trans hv) hw
      omega
  · rintro v ⟨area₀, harea₀, _, vpn, hvpn, hindex⟩
    rcases Decidable.em (index v ∈ area.vpn_range.vpns.map index) with hin | hin
    · obtain ⟨p, _, _, hp⟩ := hi.new v hin
      exact Option.isSome_iff_exists.mpr ⟨_, hp⟩
    · rw [MemorySet.translate, PageTable.translate, hi.old v hin]
      refine h.area_mapped v ⟨area₀, ?_, trivial, vpn, hvpn, hindex⟩
      rw [List.map_append, List.mem_append] at harea₀
      refine harea₀.resolve_right fun hmem => hin ?_
      rw [List.map_singleton, List.mem_singleton, hsame] at hmem
      rw [hmem] at hvpn
      exact List.mem_map.mpr ⟨vpn, VPNRange.mem_vpns.mpr hvpn, hindex⟩
  · intro area₀ harea₀
    rw [List.map_append, List.mem_append] at harea₀
    rcases harea₀ with hmem | hmem
    · exact h.kinds area₀ hmem
    · rw [List.map_singleton, List.mem_singleton, hsame] at hmem
      rw [hmem]
      exact ⟨hmap, htype⟩
  · rw [howned]
    exact hi.moves.owned

theorem Loading.insert_and_map {area : VmArea} (h : Loading text E ms ph)
    (hmap : area.map_type = .Framed)
    (htype : area.area_type = .Elf ∨ area.area_type = .TrapContext) (hempty : area.frame_map = ∅)
    (data : Option (Nat × Nat × Nat)) :
    Meets (ms.insert_and_map ph area data) (fun _ => True) fun r =>
      Loading text E r.1 r.2 ∧ r.2.allocator.base_num = ph.allocator.base_num := by
  have howned := h.owned
  rw [ms.owned_before_area hempty] at howned
  unfold MemorySet.insert_and_map
  refine ((VmArea.inflate_pagetable_meets howned hmap hempty).mono_error fun _ _ => trivial).bind ?_
  rintro ⟨area', pt, ph₁⟩ hi
  have hloading := h.inflated hi hmap htype hempty
  have hbase := hi.moves.base
  cases data with
  | none => exact ⟨hloading, hbase⟩
  | some d =>
    obtain ⟨start, len, page_offset⟩ := d
    have hcopy : Meets (VmArea.copy_data area' pt ph₁ start len page_offset) (fun _ => True)
        fun ph' => ph'.allocator = ph₁.allocator := by
      unfold VmArea.copy_data
      split
      · trivial
      · exact copy_loop_meets _ _ _ _ _ _ _ _ _
    refine hcopy.bind fun ph₂ hallocator => ⟨?_, ?_⟩
    · exact hloading.of_allocator hallocator
    · rw [hallocator]
      exact hbase

/-- The segments of the program and of its interpreter. -/
theorem Loading.segments (file : File) (base : Nat) (perm : ProgramHeader → MapPermission)
    (file_offset : Nat → Nat) (headers : List ProgramHeader) (h : Loading text E ms ph) :
    Meets (headers.foldlM (MemorySet.load_segment file base perm file_offset) (ms, ph))
      (fun _ => True) fun r =>
      Loading text E r.1 r.2 ∧ r.2.allocator.base_num = ph.allocator.base_num := by
  refine Meets.foldlM (f := MemorySet.load_segment file base perm file_offset)
    (E := fun _ => True) (I := fun _ s => Loading text E s.1 s.2 ∧
      s.2.allocator.base_num = ph.allocator.base_num) ?_ headers (ms, ph) ⟨h, rfl⟩
  rintro header headers ⟨ms₁, ph₁⟩ ⟨h₁, hbase⟩
  refine (VmArea.new_meets _ _ _ _ _ _ _).bind ?_
  rintro area ⟨hmap, htype, hempty⟩
  refine (h₁.insert_and_map hmap (Or.inl htype) hempty _).mono ?_
  exact fun r hr => ⟨hr.1, hr.2.trans hbase⟩

theorem Loading.set_regions {elf : ElfFile} (h : Loading text E ms ph) :
    Meets (ms.set_regions elf) (fun _ => True) fun ms' => Loading text E ms' ph := by
  unfold MemorySet.set_regions
  refine (VmArea.new_meets _ _ _ _ _ _ _).bind ?_
  rintro stack ⟨hstack, _, hstackEmpty⟩
  refine (VmArea.new_meets _ _ _ _ _ _ _).bind ?_
  rintro heap ⟨hheap, _, hheapEmpty⟩
  have hslots : MemorySet.slots { ms with
      user_stack_start := USER_STACK_BASE - USER_STACK_SIZE
      user_stack_end := USER_STACK_BASE
      user_stack_areas := stack
      heap_areas := heap
      brk := (MemorySet.brk_start_va elf.load + PAGE_SIZE) % 2 ^ 64
      brk_start := (MemorySet.brk_start_va elf.load + PAGE_SIZE) % 2 ^ 64 } = ms.slots := by
    simp only [MemorySet.slots, MemorySet.mmap_slots, hstackEmpty, hheapEmpty, h.empty_stack,
      h.empty_heap]
  obtain ⟨h₁, h₂, h₃, h₄, h₅, _, _, _, _, h₁₀, h₁₁, h₁₂, h₁₃⟩ := h
  simp only [MemorySet.owned] at h₃ h₁₂ h₁₃
  rw [← hslots] at h₁ h₃ h₁₂ h₁₃
  exact ⟨h₁, h₂, h₃, h₄, h₅, hstack, hheap, hstackEmpty, hheapEmpty, h₁₀, h₁₁, h₁₂, h₁₃⟩

theorem load_elf_meets (text : KernelImage) (elf : ElfFile) (h : Owned ph.allocator E) :
    Meets (MemorySet.load_elf text elf ph) (fun _ => True) fun r =>
      Loading text E r.1 r.2 ∧ r.2.allocator.base_num = ph.allocator.base_num := by
  unfold MemorySet.load_elf MemorySet.map_trap_context
  refine (new_bare_meets text h).bind ?_
  rintro ⟨ms₁, ph₁⟩ ⟨h₁, hbase₁⟩
  refine h₁.map_trampoline.bind ?_
  rintro ⟨ms₂, ph₂⟩ ⟨h₂, hbase₂⟩
  refine h₂.map_signal_trampoline.bind ?_
  rintro ⟨ms₃, ph₃⟩ ⟨h₃, hbase₃⟩
  refine ((VmArea.new_meets _ _ _ _ _ _ _).bind fun area harea =>
    h₃.insert_and_map harea.1 (Or.inr harea.2.1) harea.2.2 _).bind ?_
  rintro ⟨ms₄, ph₄⟩ ⟨h₄, hbase₄⟩
  refine (h₄.segments _ _ _ _ elf.load).bind ?_
  rintro ⟨ms₅, ph₅⟩ ⟨h₅, hbase₅⟩
  refine Meets.bind (Q := fun r : MemorySet × Phys => Loading text E r.1 r.2 ∧
    r.2.allocator.base_num = ph₅.allocator.base_num) ?_ ?_
  · unfold MemorySet.load_interpreter
    split
    · exact ⟨h₅, rfl⟩
    · exact h₅.segments _ _ _ _ _
  · rintro ⟨ms₆, ph₆⟩ ⟨h₆, hbase₆⟩
    dsimp only at *
    split
    · trivial
    · refine h₆.set_regions.bind fun ms₇ h₇ => ⟨h₇, ?_⟩
      rw [hbase₆, hbase₅, hbase₄, hbase₃, hbase₂, hbase₁]

end Load

end MyGOS.Mm
