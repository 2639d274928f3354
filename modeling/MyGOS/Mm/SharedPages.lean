import MyGOS.Mm.AttachCounts
import MyGOS.Mm.KeptBytes

/-!
# The pages of attached segments

An attached page is mapped to the frame of the segment, readable and writable,
from its attachment to its detachment, and in every child forked in between. No
page belongs to two attachments.
-/

namespace MyGOS.Mm

open Outcome StepSystem

/-- The flags `attach_shm` maps with. -/
def shm_flags : PTEFlags := PTEFlags.V ||| PTEFlags.U ||| PTEFlags.W ||| PTEFlags.R ||| PTEFlags.V

/-- The segment `key` is attached at `va`, and the page at `offset` is one of its pages. -/
structure ShmSet.AttachedPage (s : ShmSet) (m : SharedMemoryManager) (va key : Nat)
    (area : SharedMemoryArea) (offset : Nat) : Prop where
  tracker : s.shm_trackers.lookup va = some ⟨key⟩
  segment : m.lookup key = some area
  offset_mem : offset ∈ shm_offsets area.shm_size

/-- The attached pages are mapped, below the upper half of the addresses and outside of what a
fork copies, and an area for the forks lists them. -/
structure ShmSet.Joined (m : SharedMemoryManager) (s : ShmSet) : Prop where
  low : ∀ va key area o, s.AttachedPage m va key area o →
    page_offset va = 0 ∧ va + o < 2 ^ 39
  mapped : ∀ va key area o, s.AttachedPage m va key area o →
    s.ms.translate (floor (va + o)) = some ⟨floor (area.buffer + o), shm_flags⟩
  listed : ∀ va key area o, s.AttachedPage m va key area o →
    ∃ vma ∈ s.ms.shm_areas, vma.vpn_range.start = floor va ∧ floor (va + o) ∈ vma.vpn_range
  aside : ∀ va key area o, s.AttachedPage m va key area o → ¬ s.ms.Forks (floor (va + o))

section Pages

variable {m m' : SharedMemoryManager} {s s' : ShmSet} {va va' key key' o o' v : Nat}
  {area area' : SharedMemoryArea} {heap : KernelHeap} {d : Nat → Int} {ms : MemorySet}

theorem mem_shm_offsets {size : Nat} (h : o ∈ shm_offsets size) : o % PAGE_SIZE = 0 ∧ o < size := by
  obtain ⟨k, hk, rfl⟩ := List.mem_map.mp h
  have hk := List.mem_range.mp hk
  unfold PAGE_SIZE at *
  omega

theorem shm_va_low (h : va + o < 2 ^ 39) : ShmSet.shm_va va o = va + o := by
  rw [ShmSet.shm_va, Nat.mod_eq_of_lt (by omega), virt_addr, if_pos h]

theorem index_low (h : v < 2 ^ 39) : index (floor v) = floor v := by
  unfold index floor PAGE_SIZE
  omega

theorem ShmSet.Joined.index_page (h : s.Joined m) (hp : s.AttachedPage m va key area o) :
    index (floor (ShmSet.shm_va va o)) = floor (va + o) := by
  have hlow := (h.low _ _ _ _ hp).2
  rw [shm_va_low hlow, index_low hlow]

/-- The counts of a segment are no part of what its pages are. -/
theorem ShmSet.AttachedPage.adjusted (h : m.Adjusted d m')
    (hp : s.AttachedPage m' va key area o) :
    ∃ area₀, s.AttachedPage m va key area₀ o ∧ area₀.buffer = area.buffer := by
  obtain ⟨area₀, h₀, rfl⟩ := h.of_lookup hp.segment
  exact ⟨area₀, ⟨hp.tracker, h₀, hp.offset_mem⟩, rfl⟩

theorem ShmSet.Joined.adjusted (h : s.Joined m) (ha : m.Adjusted d m') : s.Joined m' := by
  constructor
  all_goals
    intro va key area o hp
    obtain ⟨area₀, hp₀, hbuffer⟩ := hp.adjusted ha
  · exact h.low _ _ _ _ hp₀
  · rw [← hbuffer]
    exact h.mapped _ _ _ _ hp₀
  · exact h.listed _ _ _ _ hp₀
  · exact h.aside _ _ _ _ hp₀

theorem floor_buffer {b : Nat} (ho : o % PAGE_SIZE = 0) (ho' : o' % PAGE_SIZE = 0)
    (h : floor (b + o) = floor (b + o')) : o = o' := by
  unfold floor PAGE_SIZE at *
  omega

/-- No page belongs to two attachments. -/
theorem ShmSet.Joined.apart (h : s.Joined m) (hplaced : m.Placed heap)
    (hp : s.AttachedPage m va key area o) (hp' : s.AttachedPage m va' key' area' o')
    (heq : floor (va + o) = floor (va' + o')) : va = va' ∧ o = o' := by
  have hsame := h.mapped _ _ _ _ hp
  rw [heq, h.mapped _ _ _ _ hp'] at hsame
  have hppn : floor (area'.buffer + o') = floor (area.buffer + o) :=
    congrArg PageTableEntry.ppn (Option.some.inj hsame)
  have hkey : key = key' := by
    refine Decidable.byContradiction fun hne => ?_
    refine hplaced.apart key key' area area' hp.segment hp'.segment hne _
      (List.mem_map_of_mem hp.offset_mem) ?_
    rw [← hppn]
    exact List.mem_map_of_mem (f := fun o => floor (area'.buffer + o)) hp'.offset_mem
  subst hkey
  cases hp.segment.symm.trans hp'.segment
  have ho := (mem_shm_offsets hp.offset_mem).1
  obtain rfl := floor_buffer ho (mem_shm_offsets hp'.offset_mem).1 hppn.symm
  have hva := (h.low _ _ _ _ hp).1
  have hva' := (h.low _ _ _ _ hp').1
  refine ⟨?_, rfl⟩
  unfold page_offset floor PAGE_SIZE at *
  omega

end Pages

section Calls

variable {text : KernelImage} {heap : KernelHeap} {m m' : SharedMemoryManager}
  {s s' par child : ShmSet} {ph ph' : Phys} {pt pt' : PageTable} {va key v : Nat}
  {area : SharedMemoryArea}

/-- Where a segment may be attached: in the lower half, and not over a region. -/
structure ShmSet.Fits (s : ShmSet) (area : SharedMemoryArea) (va : Nat) : Prop where
  low : va + area.shm_size < 2 ^ 39
  aside : ∀ o ∈ shm_offsets area.shm_size, ¬ s.ms.Forks (floor (va + o))

theorem attach_page_ok {start_pa o : Nat}
    (h : ShmSet.attach_page va start_pa (pt, ph) o = .ok (pt', ph')) :
    page_offset (ShmSet.shm_va va o) = 0 ∧ pt.find_pte (floor (ShmSet.shm_va va o)) = none ∧
      pt.Entered (floor (ShmSet.shm_va va o)) ⟨floor (start_pa + o), shm_flags⟩ pt' := by
  obtain ⟨vpn, hvpn, h⟩ := bind_eq_ok.mp h
  obtain ⟨ppn, hppn, hmap⟩ := bind_eq_ok.mp h
  have haligned : page_offset (ShmSet.shm_va va o) = 0 := by
    unfold MemorySet.vpn_of at hvpn
    split at hvpn
    · assumption
    · cases hvpn
  obtain rfl := vpn_of_ok hvpn
  obtain rfl := ppn_of_ok hppn
  obtain ⟨hnone, hpt⟩ := PageTable.map_ok hmap
  exact ⟨haligned, hnone, hpt⟩

/-- The loop maps its pages, and the others stay. -/
theorem attach_loop_ok {start_pa : Nat} {offsets : List Nat}
    (h : offsets.foldlM (ShmSet.attach_page va start_pa) (pt, ph) = .ok (pt', ph')) :
    (∀ v pte, pt.find_pte v = some pte → pt'.find_pte v = some pte) ∧
      ∀ o ∈ offsets, page_offset (ShmSet.shm_va va o) = 0 ∧
        pt'.find_pte (floor (ShmSet.shm_va va o)) = some ⟨floor (start_pa + o), shm_flags⟩ := by
  induction offsets generalizing pt ph with
  | nil =>
    cases h
    exact ⟨fun _ _ hv => hv, fun _ ho => absurd ho List.not_mem_nil⟩
  | cons o offsets ih =>
    rw [List.foldlM_cons] at h
    obtain ⟨⟨pt₁, ph₁⟩, hpage, h⟩ := bind_eq_ok.mp h
    obtain ⟨haligned, hnone, hentered⟩ := attach_page_ok hpage
    obtain ⟨hkeep, hrest⟩ := ih h
    refine ⟨fun v pte hv => hkeep v pte ?_, List.forall_mem_cons.mpr
      ⟨⟨haligned, hkeep _ _ hentered.self⟩, hrest⟩⟩
    rw [hentered v, if_neg]
    · exact hv
    · intro heq
      rw [PageTable.find_pte_congr _ heq, hnone] at hv
      cases hv

theorem new_range {start_va end_va file_offset : Nat} {map_type : MapType}
    {area_type : VmAreaType} {permission : MapPermission} {file : Option File} {vma : VmArea}
    (h : VmArea.new start_va end_va map_type area_type permission file file_offset = .ok vma) :
    vma.vpn_range.start = floor start_va ∧ vma.vpn_range.end_ = ceil end_va := by
  obtain ⟨range, hrange, h⟩ := bind_eq_ok.mp h
  cases h
  unfold VPNRange.from_va at hrange
  split at hrange
  · cases hrange
    exact ⟨rfl, rfl⟩
  · cases hrange

theorem attach_shm_joined (hs : s.Joined m) (hfits : ∀ area ∈ m.lookup key, s.Fits area va)
    (h : s.attach_shm m ph key va = .ok (s', m', ph')) : s'.Joined m' := by
  obtain ⟨d, hadjusted, _⟩ := attach_shm_recounts h
  obtain ⟨⟨start_pa, size⟩, hget, h⟩ := bind_eq_ok.mp h
  obtain ⟨⟨pt, ph₁⟩, hloop, h⟩ := bind_eq_ok.mp h
  obtain ⟨⟨tracker, m₁⟩, hnew, h⟩ := bind_eq_ok.mp h
  obtain ⟨⟨s₁, m₂⟩, hinsert, h⟩ := bind_eq_ok.mp h
  obtain ⟨vma, hvma, h⟩ := bind_eq_ok.mp h
  cases h
  obtain ⟨area, harea, rfl, rfl⟩ := get_address_and_size_ok hget
  obtain ⟨rfl, _⟩ := tracker_new_ok hnew
  obtain ⟨rfl, _⟩ := insert_tracker_ok hinsert
  obtain ⟨hkeep, hpages⟩ := attach_loop_ok hloop
  have hfit := hfits area harea
  refine ShmSet.Joined.adjusted (m := m) ?_ hadjusted
  have hold {s₂ : ShmSet} (htrackers : s₂.shm_trackers = s.shm_trackers.insert va ⟨key⟩)
      {va' key' o : Nat} {area' : SharedMemoryArea} (hp : s₂.AttachedPage m va' key' area' o) :
      (va' = va ∧ key' = key ∧ area' = area) ∨ s.AttachedPage m va' key' area' o := by
    have htracker := hp.tracker
    rw [htrackers] at htracker
    rcases eq_or_ne va' va with rfl | hne
    · rw [AList.lookup_insert] at htracker
      cases htracker
      exact Or.inl ⟨rfl, rfl, Option.some.inj (hp.segment.symm.trans harea)⟩
    · exact Or.inr ⟨(AList.lookup_insert_ne hne).symm.trans htracker, hp.segment, hp.offset_mem⟩
  have hlow {o : Nat} (ho : o ∈ shm_offsets area.shm_size) : va + o < 2 ^ 39 := by
    have := hfit.low
    have := (mem_shm_offsets ho).2
    omega
  constructor
  all_goals
    intro va' key' area' o hp
    obtain ⟨rfl, rfl, rfl⟩ | hp' := hold rfl hp
  · refine ⟨?_, hlow hp.offset_mem⟩
    have haligned := (hpages o hp.offset_mem).1
    rw [shm_va_low (hlow hp.offset_mem)] at haligned
    have ho := (mem_shm_offsets hp.offset_mem).1
    unfold page_offset PAGE_SIZE at *
    omega
  · exact hs.low _ _ _ _ hp'
  · have hpage := (hpages o hp.offset_mem).2
    rwa [shm_va_low (hlow hp.offset_mem)] at hpage
  · exact hkeep _ _ (hs.mapped _ _ _ _ hp')
  · refine ⟨vma, List.mem_append_right _ (List.mem_singleton_self vma), ?_⟩
    obtain ⟨hstart, hend⟩ := new_range hvma
    have ho := (mem_shm_offsets hp.offset_mem).2
    have hlow := hfit.low
    rw [shm_va_low hlow] at hend
    refine ⟨hstart, ?_⟩
    rw [VPNRange.mem_def, hstart, hend]
    unfold floor ceil PAGE_SIZE
    omega
  · obtain ⟨a, ha, hstart, hmem⟩ := hs.listed _ _ _ _ hp'
    exact ⟨a, List.mem_append_left _ ha, hstart, hmem⟩
  · exact hfit.aside o hp.offset_mem
  · exact hs.aside _ _ _ _ hp'

theorem find_pte_unmap_of_ne {vpn : Nat} (h : index v ≠ index vpn) :
    (pt.unmap vpn).find_pte v = pt.find_pte v := by
  unfold PageTable.unmap
  split
  · simp only [PageTable.find_pte, PageTable.set_entry, Function.update_of_ne h]
  · rfl

/-- The loop leaves the pages of other attachments. -/
theorem detach_loop_keeps {offsets : List Nat}
    (h : offsets.foldlM (ShmSet.detach_page va) pt = .ok pt')
    (hv : ∀ o ∈ offsets, index v ≠ index (floor (ShmSet.shm_va va o))) :
    pt'.find_pte v = pt.find_pte v := by
  induction offsets generalizing pt with
  | nil =>
    cases h
    rfl
  | cons o offsets ih =>
    obtain ⟨hne, hv⟩ := List.forall_mem_cons.mp hv
    rw [List.foldlM_cons] at h
    obtain ⟨pt₁, hpage, h⟩ := bind_eq_ok.mp h
    obtain ⟨vpn, hvpn, hpage⟩ := bind_eq_ok.mp hpage
    cases hpage
    obtain rfl := vpn_of_ok hvpn
    rw [ih h hv, find_pte_unmap_of_ne hne]

theorem detach_shm_joined {nattch : Int} (hs : s.Joined m) (hplaced : m.Placed heap)
    (h : s.detach_shm m va = .ok (nattch, s', m')) : s'.Joined m' := by
  obtain ⟨d, hadjusted, _⟩ := detach_shm_recounts h
  unfold ShmSet.detach_shm at h
  split at h
  · cases h
  · next tracker htracker =>
    obtain ⟨⟨start_pa, size⟩, hget, h⟩ := bind_eq_ok.mp h
    obtain ⟨pt, hloop, h⟩ := bind_eq_ok.mp h
    obtain ⟨m₁, _, h⟩ := bind_eq_ok.mp h
    obtain ⟨vpn, hvpn, h⟩ := bind_eq_ok.mp h
    obtain ⟨nattch', _, h⟩ := bind_eq_ok.mp h
    cases h
    obtain ⟨area, harea, rfl, rfl⟩ := get_address_and_size_ok hget
    have hva : page_offset va = 0 := by
      unfold MemorySet.vpn_of at hvpn
      split at hvpn
      · assumption
      · cases hvpn
    obtain rfl := vpn_of_ok hvpn
    refine ShmSet.Joined.adjusted (m := m) ?_ hadjusted
    have hold {s₂ : ShmSet} (htrackers : s₂.shm_trackers = s.shm_trackers.erase va)
        {va' key' o : Nat} {area' : SharedMemoryArea} (hp : s₂.AttachedPage m va' key' area' o) :
        va' ≠ va ∧ s.AttachedPage m va' key' area' o := by
      have htracker' := hp.tracker
      rw [htrackers] at htracker'
      rcases eq_or_ne va' va with rfl | hne
      · rw [AList.lookup_erase] at htracker'
        cases htracker'
      · exact ⟨hne, (AList.lookup_erase_ne hne).symm.trans htracker', hp.segment, hp.offset_mem⟩
    constructor
    all_goals
      intro va' key' area' o hp
      obtain ⟨hne, hp⟩ := hold rfl hp
    · exact hs.low _ _ _ _ hp
    · refine (detach_loop_keeps hloop fun o' ho' heq => hne ?_).trans (hs.mapped _ _ _ _ hp)
      have hp' : s.AttachedPage m va tracker.key area o' := ⟨htracker, harea, ho'⟩
      rw [hs.index_page hp', index_low (hs.low _ _ _ _ hp).2] at heq
      exact (hs.apart hplaced hp hp' heq).1
    · obtain ⟨a, ha, hstart, hmem⟩ := hs.listed _ _ _ _ hp
      refine ⟨a, List.mem_filter.mpr ⟨ha, ?_⟩, hstart, hmem⟩
      rw [hstart, decide_eq_true_iff]
      intro heq
      have hva' := (hs.low _ _ _ _ hp).1
      refine hne ?_
      unfold page_offset floor PAGE_SIZE at *
      omega
    · exact hs.aside _ _ _ _ hp

/-- The indices of the attached pages. -/
def ShmSet.Pages (s : ShmSet) (m : SharedMemoryManager) (i : Nat) : Prop :=
  ∃ va key area o, s.AttachedPage m va key area o ∧ floor (va + o) = i

theorem ShmSet.Joined.reserved (hs : s.Joined m) (hheap : heap.Inside text) :
    Reserved text.ekernel (Backed heap m s.shm_trackers) heap.Holds (s.Pages m) where
  below _ hq := Nat.lt_of_lt_of_le hq.2 hheap.stop_le
  page i ppn hq hppn := by
    obtain ⟨va, tracker, area, o, ht, ha, ho, rfl, -⟩ := hq hppn
    have hp : s.AttachedPage m va tracker.key area o := ⟨ht, ha, ho⟩
    exact ⟨va, tracker.key, area, o, hp, (hs.index_page hp).symm⟩

/-- A fork moves no byte of the heap, and the child inherits the attachments. -/
theorem fork_joined (hheap : heap.Inside text) (hsound : s.Sound heap m) (hs : s.Joined m)
    (hf : FramesFrom text.ekernel ph.allocator)
    (h : s.from_copy_on_write text m ph = .ok (par, child, m', ph')) :
    par.Joined m' ∧ child.Joined m' ∧ ∀ q, heap.Holds q → ph'.bytes q = ph.bytes q := by
  obtain ⟨_, d, hadjusted, _⟩ := fork_recounts h
  obtain ⟨⟨par₁, child₁, ph₁⟩, hcopy, h⟩ := bind_eq_ok.mp h
  obtain ⟨m₁, _, h⟩ := bind_eq_ok.mp h
  cases h
  have hinto := from_copy_on_write_ok hcopy
  have hspares : ForkSpares heap.Holds (s.Pages m) s.ms ph par₁ child₁ ph' := by
    refine from_copy_on_write_spares (backed_allows hheap) (hs.reserved hheap) hf hsound.within
      hsound.framed ?_ hcopy
    rintro i hforks ⟨va, key, area, o, hp, rfl⟩
    exact hs.aside _ _ _ _ hp hforks
  have hpage {va key o : Nat} {area : SharedMemoryArea} (hp : s.AttachedPage m va key area o) :
      s.Pages m (index (floor (va + o))) :=
    ⟨va, key, area, o, hp, (index_low (hs.low _ _ _ _ hp).2).symm⟩
  have hparShm : par₁.shm_areas = s.ms.shm_areas := by rw [hinto.parent_same]
  have hparForks : par₁.Forks = s.ms.Forks := by rw [hinto.parent_same]; rfl
  have hchildForks : child₁.Forks = s.ms.Forks := by
    have hstack : child₁.user_stack_areas.vpn_range = s.ms.user_stack_areas.vpn_range :=
      (congrArg VmArea.vpn_range hinto.stack :)
    have hheap : child₁.heap_areas.vpn_range = s.ms.heap_areas.vpn_range :=
      (congrArg VmArea.vpn_range hinto.heap :)
    funext i
    rw [MemorySet.Forks, MemorySet.Forks, MemorySet.InRegion, MemorySet.InRegion,
      MemorySet.InArea, MemorySet.InArea, MemorySet.InLazy, MemorySet.InLazy, hstack, hheap,
      hinto.areas, MemorySet.MmapValid, MemorySet.MmapValid, hinto.records.map]
  have hself {ms : MemorySet} {va key o : Nat} {area : SharedMemoryArea}
      (hp : ShmSet.AttachedPage ⟨ms, s.shm_trackers⟩ m va key area o) :
      s.AttachedPage m va key area o :=
    ⟨hp.tracker, hp.segment, hp.offset_mem⟩
  refine ⟨ShmSet.Joined.adjusted (m := m) ?_ hadjusted,
    ShmSet.Joined.adjusted (m := m) ?_ hadjusted, hspares.bytes⟩
  · constructor
    all_goals
      intro va key area o hp
      have hp := hself hp
    · exact hs.low _ _ _ _ hp
    · exact (hspares.parent _ (hpage hp)).trans (hs.mapped _ _ _ _ hp)
    · rw [hparShm]
      exact hs.listed _ _ _ _ hp
    · rw [hparForks]
      exact hs.aside _ _ _ _ hp
  · constructor
    all_goals
      intro va key area o hp
      have hp := hself hp
    · exact hs.low _ _ _ _ hp
    · obtain ⟨a, ha, -, hmem⟩ := hs.listed _ _ _ _ hp
      exact hspares.child a ha _ hmem (hpage hp) _ (hs.mapped _ _ _ _ hp)
    · obtain ⟨a, ha, hlisted⟩ := hs.listed _ _ _ _ hp
      refine ⟨a.from_another, ?_, hlisted⟩
      rw [hinto.shm]
      exact List.mem_map_of_mem ha
    · rw [hchildForks]
      exact hs.aside _ _ _ _ hp

/-- Attaching moves no byte of the heap. -/
theorem attach_shm_bytes (hheap : heap.Inside text) (hf : FramesFrom text.ekernel ph.allocator)
    (h : s.attach_shm m ph key va = .ok (s', m', ph')) {q : Nat} (hq : heap.Holds q) :
    ph'.bytes q = ph.bytes q := by
  obtain ⟨⟨start_pa, size⟩, hget, h⟩ := bind_eq_ok.mp h
  obtain ⟨⟨pt, ph₁⟩, hloop, h⟩ := bind_eq_ok.mp h
  obtain ⟨⟨tracker, m₁⟩, hnew, h⟩ := bind_eq_ok.mp h
  obtain ⟨⟨s₁, m₂⟩, hinsert, h⟩ := bind_eq_ok.mp h
  obtain ⟨vma, hvma, h⟩ := bind_eq_ok.mp h
  cases h
  refine (foldlM_ok (I := fun _ r => FramesFrom text.ekernel r.2.allocator ∧
    SameBelow text.ekernel ph r.2) ?_ ⟨hf, .refl _ ph⟩ hloop).2 q
    (Nat.lt_of_lt_of_le hq.2 hheap.stop_le)
  rintro o _ ⟨pt₁, ph₂⟩ ⟨pt₂, ph₃⟩ ⟨hf, hbelow⟩ hstep
  obtain ⟨vpn, _, hstep⟩ := bind_eq_ok.mp hstep
  obtain ⟨ppn, _, hmap⟩ := bind_eq_ok.mp hstep
  exact ⟨hf.map hmap, hbelow.trans (map_below hf hmap)⟩

end Calls

end MyGOS.Mm
