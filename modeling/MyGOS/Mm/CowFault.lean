import MyGOS.Mm.Faults

/-!
# Copy-on-write faults

`cow_alloc` either gives the page its W bit back, when nobody shares the frame,
or maps a copy of the frame. `check_lazy` is that or a lazy allocation.
-/

namespace MyGOS.Mm

open Outcome

/-- Only the flags of one entry change. -/
def MemorySet.reflag (ms : MemorySet) (vpn : Nat) (pte : PageTableEntry) (flags : PTEFlags) :
    MemorySet :=
  { ms with page_table := ms.page_table.set_entry vpn (pte.set_flags flags) }

section Reflag

variable {text : KernelImage} {ms : MemorySet} {vpn : Nat} {pte : PageTableEntry}
  {flags : PTEFlags}

theorem MemorySet.translate_reflag (h : ms.translate vpn = some pte) (hv : flags.v = true)
    (v : Nat) : (ms.reflag vpn pte flags).translate v =
      if index v = index vpn then some ⟨pte.ppn, flags⟩ else ms.translate v := by
  have hvalid : (pte.set_flags flags).is_valid = true := hv
  exact PageTable.find_pte_update h hvalid v

/-- Changing flags keeps a page where it is, as long as no page is marked COW by it. -/
theorem Tracked.reflag (hT : Tracked text ms) (h : ms.translate vpn = some pte)
    (hv : flags.v = true) (hcow : flags.cow = true → pte.is_cow = true) :
    Tracked text (ms.reflag vpn pte flags) where
  mapped v pte' hpte' := by
    rw [MemorySet.translate_reflag h hv] at hpte'
    split at hpte'
    · rename_i heq
      cases hpte'
      have hmapped := hT.mapped vpn pte h
      rw [heq]
      exact hmapped.imp_left fun htramp => htramp.congr heq rfl
    · exact hT.mapped v pte' hpte'
  mmap_valid v hvalid := by
    obtain ⟨pte', hpte', hslot⟩ := hT.mmap_valid v hvalid
    rw [MemorySet.translate_reflag h hv]
    split
    · rename_i heq
      have hsame : ms.translate v = ms.translate vpn := PageTable.find_pte_congr _ heq
      cases (hpte'.symm.trans hsame).trans h
      exact ⟨_, rfl, hslot⟩
    · exact ⟨pte', hpte', hslot⟩
  cow_apart v pte' hpte' hcow' hvalid := by
    rw [MemorySet.translate_reflag h hv] at hpte'
    split at hpte'
    · rename_i heq
      cases hpte'
      have hsame : ms.translate v = ms.translate vpn := PageTable.find_pte_congr _ heq
      exact hT.cow_apart v pte (hsame.trans h) (hcow hcow') hvalid
    · exact hT.cow_apart v pte' hpte' hcow' hvalid
  area_mapped v hv' := by
    rw [MemorySet.translate_reflag h hv]
    split
    · rfl
    · exact hT.area_mapped v hv'
  kinds := hT.kinds
  framed_stack := hT.framed_stack
  framed_heap := hT.framed_heap
  no_shm := hT.no_shm
  manager := hT.manager

end Reflag

/-- The tracker of a frame `p` was given to the slots. -/
structure Inserted (E : Multiset Nat) (k p : Nat) (M M' : Multiset (Nat × Nat)) (ph ph' : Phys) :
    Prop where
  moves : Moves E (p ::ₘ M.map Prod.snd) (M'.map Prod.snd) ph ph'
  put : Put k p M M'
  bytes : ph'.bytes = ph.bytes

section Insert

variable {E : Multiset Nat} {M M' N : Multiset (Nat × Nat)} {k p vpn : Nat} {ph ph' : Phys}
  {frame : FrameTracker}

theorem Inserted.add (h : Inserted (N.map Prod.snd + E) k p M M' ph ph') :
    Inserted E k p (M + N) (M' + N) ph ph' where
  moves := by
    rw [Multiset.map_add, Multiset.map_add, ← Multiset.cons_add]
    exact h.moves.frame
  put := h.put.add N
  bytes := h.bytes

/-- Room for the tracker of one region among the others. -/
theorem owned_cons_split (h : Owned ph.allocator (p ::ₘ ((M + N).map Prod.snd + E))) :
    Owned ph.allocator (p ::ₘ (M.map Prod.snd + (N.map Prod.snd + E))) := by
  rwa [Multiset.map_add, add_assoc] at h

theorem FrameMap.inserted {m : FrameMap}
    (h : Owned ph.allocator (frame.ppn ::ₘ (m.slots.map Prod.snd + E))) (vpn : Nat) :
    ∃ m' ph', m.insert_frame ph vpn frame = .ok (m', ph') ∧
      Inserted E (index vpn) frame.ppn m.slots m'.slots ph ph' := by
  obtain ⟨m', ph', hinsert, hmoves, hput, hbytes⟩ := FrameMap.insert_frame_spec h vpn
  exact ⟨m', ph', hinsert, hmoves, hput, hbytes⟩

theorem insert_in_areas_meets {areas : List VmArea}
    (h : Owned ph.allocator
      (frame.ppn ::ₘ ((MemorySet.area_slots areas).map Prod.snd + E))) (vpn : Nat) :
    Meets (MemorySet.insert_in_areas ph vpn frame areas) (fun _ => False) fun
      | none => ∀ area ∈ areas, vpn ∉ area.vpn_range
      | some (areas', ph') =>
        (∃ area ∈ areas, vpn ∈ area.vpn_range) ∧
          areas'.map VmArea.from_another = areas.map VmArea.from_another ∧
          Inserted E (index vpn) frame.ppn (MemorySet.area_slots areas)
            (MemorySet.area_slots areas') ph ph' := by
  have hsplit (area : VmArea) (areas : List VmArea) : MemorySet.area_slots (area :: areas) =
      area.frame_map.slots + MemorySet.area_slots areas := rfl
  induction areas generalizing E with
  | nil => exact fun _ hmem => absurd hmem List.not_mem_nil
  | cons area areas ih =>
    rw [hsplit] at h
    unfold MemorySet.insert_in_areas
    split
    · rename_i hmem
      obtain ⟨m', ph', hinsert, hinserted⟩ := FrameMap.inserted (owned_cons_split h) vpn
      rw [hinsert]
      exact ⟨⟨area, List.mem_cons_self, hmem⟩, rfl, hinserted.add⟩
    · rename_i hnot
      rw [add_comm area.frame_map.slots] at h
      refine (ih (owned_cons_split h)).bind ?_
      rintro (_ | ⟨areas', ph'⟩)
      · intro hnone area' harea'
        rcases List.mem_cons.mp harea' with rfl | harea'
        · exact hnot
        · exact hnone area' harea'
      · rintro ⟨⟨area', harea', hmem⟩, hsame, hinserted⟩
        refine ⟨⟨area', List.mem_cons_of_mem _ harea', hmem⟩, ?_, ?_⟩
        · rw [List.map_cons, List.map_cons, hsame]
        · rw [hsplit, hsplit, add_comm area.frame_map.slots, add_comm area.frame_map.slots]
          exact hinserted.add

end Insert

/-- The page is one of an area, of the mappings, of the stack or of the heap. -/
def MemorySet.Covers (ms : MemorySet) (vpn : Nat) : Prop :=
  (∃ area ∈ ms.map_areas, vpn ∈ area.vpn_range) ∨
    (floor ms.mmap_manager.mmap_start ≤ vpn ∧ vpn < floor ms.mmap_manager.mmap_top) ∨
    vpn ∈ ms.user_stack_areas.vpn_range ∨ vpn ∈ ms.heap_areas.vpn_range

/-- The mappings are the same up to the frames they own. -/
structure SameMappings (m m' : MmapManager) : Prop where
  map : m'.mmap_map = m.mmap_map
  start : m'.mmap_start = m.mmap_start
  top : m'.mmap_top = m.mmap_top

theorem SameMappings.wellFormed {m m' : MmapManager} (h : SameMappings m m') (hm : m.WellFormed) :
    m'.WellFormed := by
  obtain ⟨hkeyed, hstart, htop, htouched⟩ := hm
  constructor
  · rwa [h.map]
  · rwa [h.start]
  · rwa [h.top]
  · rwa [h.map, h.start, h.top]

theorem MmapManager.WellFormed.in_mmap_eq {m : MmapManager} (h : m.WellFormed) (vpn : Nat) :
    MemorySet.in_mmap m vpn = .ok (decide (floor m.mmap_start ≤ vpn ∧ vpn < floor m.mmap_top)) := by
  simp only [MemorySet.in_mmap, MemorySet.vpn_of, h.start_aligned, h.top_aligned, if_true]
  rcases Nat.lt_or_ge vpn (floor m.mmap_start) with hlt | hge
  · simp [Nat.not_le.mpr hlt, bind, Except.bind, pure, Except.pure]
  · simp [hge, bind, Except.bind, pure, Except.pure]

section CowAlloc

variable {text : KernelImage} {E : Multiset Nat} {ms ms' : MemorySet} {ph ph' : Phys}
  {vpn : Nat} {frame : FrameTracker} {pte : PageTableEntry}

/-- The frame of a copied page goes to the region of the page. -/
structure InsertedCow (E : Multiset Nat) (ms : MemorySet) (ph : Phys) (vpn p : Nat)
    (ms' : MemorySet) (ph' : Phys) : Prop where
  table : ms'.page_table = ms.page_table
  inserted : Inserted E (index vpn) p ms.slots ms'.slots ph ph'
  regions : SameRegions ms ms'
  mappings : SameMappings ms.mmap_manager ms'.mmap_manager
  mmap : ∀ e, e.1 ≠ index vpn → (e ∈ ms'.mmap_slots ↔ e ∈ ms.mmap_slots)
  mmap_put : ¬ ms.InRegion (index vpn) → (index vpn, p) ∈ ms'.mmap_slots

theorem MemorySet.slots_areas (ms : MemorySet) : ms.slots = MemorySet.area_slots ms.map_areas +
    (ms.mmap_slots + ms.user_stack_areas.frame_map.slots + ms.heap_areas.frame_map.slots) := by
  rw [MemorySet.slots]
  ac_rfl

theorem insert_cow_meets (hm : ms.mmap_manager.WellFormed)
    (h : Owned ph.allocator (frame.ppn ::ₘ (ms.slots.map Prod.snd + E))) (vpn : Nat) :
    Meets (ms.insert_cow ph vpn frame) (fun _ => ¬ ms.Covers vpn) fun r =>
      InsertedCow E ms ph vpn frame.ppn r.1 r.2 := by
  unfold MemorySet.insert_cow
  rw [ms.slots_areas] at h
  refine ((insert_in_areas_meets (owned_cons_split h) vpn).mono_error fun _ => False.elim).bind ?_
  rw [← ms.slots_areas] at h
  rintro (_ | ⟨areas', ph'⟩)
  · intro hareas
    simp only [hm.in_mmap_eq vpn]
    show Meets (if decide _ = true then _ else _) _ _
    split
    · rename_i hbounds
      rw [ms.slots_mmap] at h
      obtain ⟨m', ph', hinsert, hinserted⟩ := FrameMap.inserted (owned_cons_split h) vpn
      rw [hinsert]
      refine ⟨rfl, ?_, ⟨rfl, rfl, rfl, rfl⟩, ⟨rfl, rfl, rfl⟩, ?_, ?_⟩
      · rw [MemorySet.slots_mmap, MemorySet.slots_mmap]
        exact hinserted.add
      · exact fun e hne => hinserted.put.mem_iff hne
      · exact fun _ => hinserted.put.mem
    · rename_i hbounds
      split
      · rename_i hstack
        rw [ms.slots_stack] at h
        obtain ⟨m', ph', hinsert, hinserted⟩ := FrameMap.inserted (owned_cons_split h) vpn
        rw [hinsert]
        refine ⟨rfl, ?_, ⟨rfl, rfl, rfl, rfl⟩, ⟨rfl, rfl, rfl⟩, fun _ _ => Iff.rfl, ?_⟩
        · rw [MemorySet.slots_stack, MemorySet.slots_stack]
          exact hinserted.add
        · exact fun hnot => absurd (Or.inr (Or.inl ⟨vpn, hstack, rfl⟩)) hnot
      · rename_i hstack
        split
        · rename_i hheap
          rw [ms.slots_heap] at h
          obtain ⟨m', ph', hinsert, hinserted⟩ := FrameMap.inserted (owned_cons_split h) vpn
          rw [hinsert]
          refine ⟨rfl, ?_, ⟨rfl, rfl, rfl, rfl⟩, ⟨rfl, rfl, rfl⟩, fun _ _ => Iff.rfl, ?_⟩
          · rw [MemorySet.slots_heap, MemorySet.slots_heap]
            exact hinserted.add
          · exact fun hnot => absurd (Or.inr (Or.inr ⟨vpn, hheap, rfl⟩)) hnot
        · rename_i hheap
          rintro (⟨area, harea, hmem⟩ | hin | hin | hin)
          · exact hareas area harea hmem
          · exact hbounds (decide_eq_true hin)
          · exact hstack hin
          · exact hheap hin
  · rintro ⟨⟨area, harea, hmem⟩, hsame, hinserted⟩
    refine ⟨rfl, ?_, ⟨hsame, rfl, rfl, rfl⟩, ⟨rfl, rfl, rfl⟩, fun _ _ => Iff.rfl, ?_⟩
    · rw [MemorySet.slots_areas, MemorySet.slots_areas]
      exact hinserted.add
    · refine fun hnot => absurd (Or.inl ⟨area.from_another, ?_, trivial, vpn, hmem, rfl⟩) hnot
      exact List.mem_map_of_mem harea

/-- The flags that `cow_alloc` leaves on a page nobody shares. -/
def PTEFlags.restored (flags : PTEFlags) : PTEFlags := { flags with cow := false } ||| PTEFlags.W

/-- The page maps a copy of its frame, with the W bit; the COW bit stays. -/
structure Copied (E : Multiset Nat) (ms : MemorySet) (ph : Phys) (vpn : Nat)
    (pte : PageTableEntry) (p : Nat) (ms' : MemorySet) (ph' : Phys) : Prop where
  faulted : Faulted E ms ph vpn p (pte.flags ||| PTEFlags.W) ms' ph'
  mappings : SameMappings ms.mmap_manager ms'.mmap_manager
  bytes : ph'.bytes = Function.update ph.bytes p (ph.bytes pte.ppn)

theorem cow_alloc_alone (hpte : ms.translate vpn = some pte)
    (hone : ph.allocator.enquire_ref pte.ppn = .ok 1) :
    ms.cow_alloc ph vpn pte.ppn = .ok (ms.reflag vpn pte pte.flags.restored, ph) := by
  have hfind : ms.page_table.find_pte vpn = some pte := hpte
  have hvalid := PageTable.is_valid_of_find_pte hfind
  have hvalid' : pte.reset_cow.is_valid = true := hvalid
  have hfind' := PageTable.find_pte_update hfind hvalid' vpn
  rw [if_pos rfl] at hfind'
  have htranslate : (ms.page_table.set_entry vpn pte.reset_cow).translate vpn =
      some pte.reset_cow := hfind'
  simp only [MemorySet.cow_alloc, PageTable.reset_cow, PageTable.set_flags,
    PageTable.update_pte_of_find hfind, PageTable.update_pte_of_find hfind', hone, htranslate,
    bind, Except.bind, pure, Except.pure, if_true]
  simp only [MemorySet.reflag, PageTable.set_entry, Function.update_idem]
  rfl

/-- The other path, once there is a frame for the copy. -/
theorem copied_meets {ph₁ : Phys} (hT : Tracked text ms) (hpte : ms.translate vpn = some pte)
    (hcow : pte.is_cow = true) (hmem : pte.ppn ∈ ms.owned + E) (hfresh : frame.ppn ∉ ms.owned + E)
    (hle : ph.allocator.base_num ≤ frame.ppn)
    (hbase : ph₁.allocator.base_num = ph.allocator.base_num)
    (howned : Owned ph₁.allocator (frame.ppn ::ₘ (ms.owned + E)))
    (hbytes : ph₁.bytes = Function.update ph.bytes frame.ppn fun _ => 0) :
    Meets (MemorySet.insert_cow { ms with
        page_table := ms.page_table.set_entry vpn ⟨frame.ppn, pte.flags ||| PTEFlags.W⟩ }
        (ph₁.copy frame.ppn pte.ppn) vpn frame)
      (fun _ => ¬ ms.Covers vpn) fun r =>
      Tracked text r.1 ∧ Copied E ms ph vpn pte frame.ppn r.1 r.2 := by
  have hfind : ms.page_table.find_pte vpn = some pte := hpte
  have hvalid : (pte.flags ||| PTEFlags.W).v = true := by
    rw [PTEFlags.or_v, show pte.flags.v = true from PageTable.is_valid_of_find_pte hfind,
      Bool.true_or]
  have hvalid' : (⟨frame.ppn, pte.flags ||| PTEFlags.W⟩ : PageTableEntry).is_valid = true := hvalid
  have hcopied : (ph₁.copy frame.ppn pte.ppn).bytes =
      Function.update ph.bytes frame.ppn (ph.bytes pte.ppn) := by
    have hne : pte.ppn ≠ frame.ppn := fun heq => hfresh (heq ▸ hmem)
    rw [Phys.copy, hbytes, Function.update_of_ne hne, Function.update_idem]
  have hassoc (O : Multiset Nat) : ms.page_table.owned + O + E = O + (ms.page_table.owned + E) := by
    rw [add_comm ms.page_table.owned, add_assoc]
  have howned' : Owned (ph₁.copy frame.ppn pte.ppn).allocator
      (frame.ppn ::ₘ (ms.slots.map Prod.snd + (ms.page_table.owned + E))) := by
    rwa [MemorySet.owned, hassoc] at howned
  refine (@insert_cow_meets _ { ms with
    page_table := ms.page_table.set_entry vpn ⟨frame.ppn, pte.flags ||| PTEFlags.W⟩ } _ _
    hT.manager howned' vpn).mono ?_
  rintro ⟨ms', ph'⟩ ⟨htable, hinserted, hregions, hmappings, hmmap, hput⟩
  dsimp only at htable hinserted hregions hmappings hmmap hput ⊢
  have hslotsOwned : ms'.owned = ms.page_table.owned + ms'.slots.map Prod.snd := by
    rw [MemorySet.owned, htable]
    rfl
  have hf : Faulted E ms ph vpn frame.ppn (pte.flags ||| PTEFlags.W) ms' ph' := by
    refine ⟨hfresh, fun v => ?_, ⟨?_, ?_⟩, ?_, ?_, hinserted.put, ?_, ?_, hmmap,
      hmappings.wellFormed⟩
    · rw [MemorySet.translate, htable]
      exact PageTable.find_pte_update hfind hvalid' v
    · rw [hslotsOwned, hassoc]
      exact hinserted.moves.owned
    · exact hinserted.moves.base.trans hbase
    · rw [hslotsOwned]
      refine (Calm.cons hfresh).trans (Calm.of_le ?_)
      rw [MemorySet.owned, ← Multiset.cons_add, ← Multiset.add_cons]
      exact add_le_add_left (add_le_add_right hinserted.put.owned_le _) E
    · refine Quiet.of_update (fun hq => hfresh (Multiset.mem_add.mpr (Or.inr hq))) hle
        fun q hq => ?_
      rw [hinserted.bytes, hcopied, Function.update_of_ne hq]
    · exact ⟨hregions.areas, hregions.stack, hregions.heap, hregions.shm⟩
    · intro k _
      rw [MemorySet.MmapValid, hmappings.map]
      rfl
  have hsame : ms'.MmapValid (index vpn) ↔ ms.MmapValid (index vpn) := by
    rw [MemorySet.MmapValid, hmappings.map]
    rfl
  have hapart := hT.cow_apart vpn pte hpte hcow
  refine ⟨hT.faulted hf (fun hv => hput (hapart (hsame.mp hv))) fun _ hv => hapart (hsame.mp hv),
    hf, hmappings, ?_⟩
  rw [hinserted.bytes, hcopied]

theorem cow_alloc_meets (hT : Tracked text ms) (h : Owned ph.allocator (ms.owned + E))
    (hpte : ms.translate vpn = some pte) (hcow : pte.is_cow = true) :
    Meets (ms.cow_alloc ph vpn pte.ppn)
      (fun e => e = .outOfMemory ∨ pte.ppn ∉ ms.owned + E ∨ ¬ ms.Covers vpn) fun r =>
      Tracked text r.1 ∧
        ((ms.owned + E).count pte.ppn = 1 ∧ r = (ms.reflag vpn pte pte.flags.restored, ph) ∨
          ∃ p, Copied E ms ph vpn pte p r.1 r.2) := by
  have hfind : ms.page_table.find_pte vpn = some pte := hpte
  cases hcount : ph.allocator.enquire_ref pte.ppn with
  | error e =>
    simp only [MemorySet.cow_alloc, hcount]
    refine Or.inr (Or.inl fun hmem => ?_)
    cases hcount.symm.trans (h.enquire_ref hmem)
  | ok n =>
    obtain ⟨rfl, hmem⟩ := h.enquire_ref_eq hcount
    rcases eq_or_ne ((ms.owned + E).count pte.ppn) 1 with hone | hmany
    · rw [hone] at hcount
      rw [cow_alloc_alone hpte hcount]
      refine ⟨hT.reflag hpte ?_ fun _ => hcow, Or.inl ⟨hone, rfl⟩⟩
      show (pte.flags.v || _) = true
      rw [show pte.flags.v = true from PageTable.is_valid_of_find_pte hfind, Bool.true_or]
    · simp only [MemorySet.cow_alloc, hcount]
      show Meets (if _ = 1 then _ else _) _ _
      rw [if_neg hmany]
      refine ((Phys.alloc_frame_meets h).mono_error fun _ he => Or.inl he).bind ?_
      rintro ⟨frame, ph₁⟩ ⟨hfresh, hle, hbase, howned, hbytes⟩
      simp only [PageTable.remap_cow, PageTable.update_pte_of_find hfind]
      refine ((copied_meets hT hpte hcow hmem hfresh hle hbase howned hbytes).mono_error
        fun _ he => Or.inr (Or.inr he)).mono ?_
      exact fun r hr => ⟨hr.1, Or.inr ⟨frame.ppn, hr.2⟩⟩

/-- What a fault at a page can do. -/
inductive Served (text : KernelImage) (E : Multiset Nat) (ms : MemorySet) (ph : Phys) (vpn : Nat) :
    MemorySet → Phys → Prop where
  | refused : Served text E ms ph vpn ms ph
  | alone (pte : PageTableEntry) (hpte : ms.translate vpn = some pte) (hcow : pte.is_cow = true)
      (hone : (ms.owned + E).count pte.ppn = 1) :
      Served text E ms ph vpn (ms.reflag vpn pte pte.flags.restored) ph
  | copied (pte : PageTableEntry) (p : Nat) (ms' : MemorySet) (ph' : Phys)
      (hpte : ms.translate vpn = some pte) (hcow : pte.is_cow = true)
      (h : Copied E ms ph vpn pte p ms' ph') : Served text E ms ph vpn ms' ph'
  | touched (p : Nat) (flags : PTEFlags) (ms' : MemorySet) (ph' : Phys)
      (h : Touched text E ms ph vpn p flags ms' ph') : Served text E ms ph vpn ms' ph'

theorem check_lazy_meets (hT : Tracked text ms) (h : Owned ph.allocator (ms.owned + E)) (va : Nat) :
    Meets (ms.check_lazy ph va) (fun _ => True) fun r =>
      Tracked text r.2.1 ∧ Served text E ms ph (floor va) r.2.1 r.2.2 := by
  have hzero {x : Except Panic (MemorySet × Phys)} {Q : MemorySet × Phys → Prop}
      (hx : Meets x (fun _ => True) Q) :
      Meets ((fun s => ((0 : Int), s)) <$> x) (fun _ => True) fun r => Q r.2 := by
    cases x with
    | error e => trivial
    | ok s => exact hx
  unfold MemorySet.check_lazy
  dsimp only
  split
  · rename_i pte hpte
    split
    · rename_i hcow
      refine hzero (Q := fun s => Tracked text s.1 ∧ Served text E ms ph (floor va) s.1 s.2) ?_
      refine ((cow_alloc_meets hT h hpte hcow).mono_error fun _ _ => trivial).mono ?_
      rintro ⟨ms', ph'⟩ ⟨hT', ⟨hone, heq⟩ | ⟨p, hcopied⟩⟩
      · cases heq
        exact ⟨hT', .alone pte hpte hcow hone⟩
      · exact ⟨hT', .copied pte p ms' ph' hpte hcow hcopied⟩
    · exact ⟨hT, .refused⟩
  · have htouched {x : Except Panic (MemorySet × Phys)}
        (hx : Meets x (fun _ => True) fun r =>
          ∃ p flags, Touched text E ms ph (floor va) p flags r.1 r.2) :=
      hzero (hx.mono (R := fun s => Tracked text s.1 ∧ Served text E ms ph (floor va) s.1 s.2) <| by
        rintro ⟨ms', ph'⟩ ⟨p, flags, ht⟩
        exact ⟨ht.tracked, .touched p flags ms' ph' ht⟩)
    split
    · exact htouched (lazy_alloc_stack_meets hT h (floor va))
    · split
      · exact htouched (lazy_alloc_heap_meets hT h (floor va))
      · split
        · rename_i hbounds
          refine htouched (lazy_mmap_meets hT h ?_ ?_)
          · exact Nat.div_le_div_right hbounds.1
          · have haligned := hT.manager.top_aligned
            unfold page_offset at haligned
            unfold floor
            have hpos : 0 < PAGE_SIZE := by decide
            rw [Nat.div_lt_iff_lt_mul hpos, Nat.div_mul_cancel (Nat.dvd_of_mod_eq_zero haligned)]
            exact hbounds.2
        · exact ⟨hT, .refused⟩

end CowAlloc

end MyGOS.Mm
