import MyGOS.Mm.CowShare
import MyGOS.Mm.MmapRanges

/-!
# The layout of an address space

What the kernel's services leave of an address space whatever the trackers
are: where the regions lie, which pages are mapped, and what the mmap manager
has recorded. Nothing here depends on the reference counters.
-/

namespace MyGOS.Mm

open Outcome

/-- The record of a page, less what faults and `mprotect` change. -/
def MmapPage.source (page : MmapPage) : MmapPage :=
  { page with valid := false, prot := ⟨false, false, false, false, false⟩ }

/-- The same pages are recorded, from the same mappings. -/
structure SameRecords (m m' : MmapManager) : Prop where
  start : m'.mmap_start = m.mmap_start
  top : m'.mmap_top = m.mmap_top
  source : ∀ v : Nat, (m'.mmap_map[v]?).map MmapPage.source = (m.mmap_map[v]?).map MmapPage.source

namespace SameRecords

variable {m m' m'' : MmapManager} {page : MmapPage} {v : Nat}

theorem refl (m : MmapManager) : SameRecords m m := ⟨rfl, rfl, fun _ => rfl⟩

theorem trans (h : SameRecords m m') (h' : SameRecords m' m'') : SameRecords m m'' :=
  ⟨h'.start.trans h.start, h'.top.trans h.top, fun v => (h'.source v).trans (h.source v)⟩

theorem record (h : SameRecords m m') (hv : m'.mmap_map[v]? = some page) :
    ∃ page', m.mmap_map[v]? = some page' ∧ page'.source = page.source := by
  have hsource := h.source v
  rw [hv] at hsource
  exact Option.map_eq_some_iff.mp hsource.symm

theorem isSome (h : SameRecords m m') (v : Nat) :
    (m'.mmap_map[v]?).isSome = (m.mmap_map[v]?).isSome := by
  have hsource := congrArg Option.isSome (h.source v)
  rwa [Option.isSome_map, Option.isSome_map] at hsource

theorem insert {page' : MmapPage} (hv : m.mmap_map[v]? = some page)
    (hsource : page'.source = page.source) (frames : FrameMap) :
    SameRecords m { m with mmap_map := m.mmap_map.insert v page', frame_map := frames } := by
  refine ⟨rfl, rfl, fun v' => ?_⟩
  dsimp only
  rw [Std.TreeMap.getElem?_insert]
  split
  · rename_i heq
    rw [← Std.LawfulEqCmp.eq_of_compare heq, hv, Option.map_some, Option.map_some, hsource]
  · rfl

theorem sound (h : SameRecords m m') (hm : m.Sound) : m'.Sound where
  start := h.start.trans hm.start
  start_le := h.top ▸ hm.start_le
  top_aligned := h.top ▸ hm.top_aligned
  top_virt := h.top ▸ hm.top_virt
  keyed v page hv := by
    obtain ⟨page', hv', hsource⟩ := h.record hv
    exact (congrArg MmapPage.vpn hsource :).symm.trans (hm.keyed v page' hv')
  backed v page hv := by
    obtain ⟨page', hv', hsource⟩ := h.record hv
    have hflags : page'.flags = page.flags := (congrArg MmapPage.flags hsource :)
    have hfile : page'.file = page.file := (congrArg MmapPage.file hsource :)
    rw [← hflags, ← hfile]
    exact hm.backed v page' hv'

end SameRecords

/-- The trackers of a frame map stand under mapped pages. -/
def FrameMap.Mapped (m : FrameMap) (pt : PageTable) : Prop :=
  ∀ v : Nat, (m[v]?).isSome → (pt.find_pte v).isSome

/-- What a service of the kernel leaves of an address space. -/
structure Keeps (ms ms' : MemorySet) : Prop where
  regions : SameRegions ms ms'
  brk_start : ms'.brk_start = ms.brk_start
  brk : ms'.brk = ms.brk
  stack_start : ms'.user_stack_start = ms.user_stack_start
  stack_end : ms'.user_stack_end = ms.user_stack_end
  records : SameRecords ms.mmap_manager ms'.mmap_manager
  mapped : ∀ v pte, ms.translate v = some pte →
    ∃ pte', ms'.translate v = some pte' ∧ (pte.flags.u = true → pte'.flags.u = true)
  stack_frames : ms.user_stack_areas.frame_map.Mapped ms.page_table →
    ms'.user_stack_areas.frame_map.Mapped ms'.page_table
  heap_frames : ms.heap_areas.frame_map.Mapped ms.page_table →
    ms'.heap_areas.frame_map.Mapped ms'.page_table

namespace Keeps

variable {ms ms' ms'' : MemorySet} {pt : PageTable}

theorem refl (ms : MemorySet) : Keeps ms ms where
  regions := SameRegions.refl ms
  brk_start := rfl
  brk := rfl
  stack_start := rfl
  stack_end := rfl
  records := SameRecords.refl _
  mapped _ pte h := ⟨pte, h, id⟩
  stack_frames h := h
  heap_frames h := h

theorem trans (h : Keeps ms ms') (h' : Keeps ms' ms'') : Keeps ms ms'' where
  regions :=
    ⟨h'.regions.areas.trans h.regions.areas, h'.regions.stack.trans h.regions.stack,
      h'.regions.heap.trans h.regions.heap, h'.regions.shm.trans h.regions.shm⟩
  brk_start := h'.brk_start.trans h.brk_start
  brk := h'.brk.trans h.brk
  stack_start := h'.stack_start.trans h.stack_start
  stack_end := h'.stack_end.trans h.stack_end
  records := h.records.trans h'.records
  mapped v pte hv := by
    obtain ⟨pte', hv', hu⟩ := h.mapped v pte hv
    obtain ⟨pte'', hv'', hu'⟩ := h'.mapped v pte' hv'
    exact ⟨pte'', hv'', fun hpte => hu' (hu hpte)⟩
  stack_frames hm := h'.stack_frames (h.stack_frames hm)
  heap_frames hm := h'.heap_frames (h.heap_frames hm)

/-- Another page table in which what was mapped is mapped. -/
theorem table (h : ∀ v pte, ms.translate v = some pte →
    ∃ pte', pt.find_pte v = some pte' ∧ (pte.flags.u = true → pte'.flags.u = true)) :
    Keeps ms { ms with page_table := pt } where
  regions := ⟨rfl, rfl, rfl, rfl⟩
  brk_start := rfl
  brk := rfl
  stack_start := rfl
  stack_end := rfl
  records := SameRecords.refl _
  mapped := h
  stack_frames hm v hv := by
    obtain ⟨pte, hpte⟩ := Option.isSome_iff_exists.mp (hm v hv)
    obtain ⟨pte', hpte', _⟩ := h v pte hpte
    exact Option.isSome_iff_exists.mpr ⟨pte', hpte'⟩
  heap_frames hm v hv := by
    obtain ⟨pte, hpte⟩ := Option.isSome_iff_exists.mp (hm v hv)
    obtain ⟨pte', hpte', _⟩ := h v pte hpte
    exact Option.isSome_iff_exists.mpr ⟨pte', hpte'⟩

theorem mapped_isSome (h : Keeps ms ms') {v : Nat} (hv : (ms.translate v).isSome) :
    (ms'.translate v).isSome := by
  obtain ⟨pte, hpte⟩ := Option.isSome_iff_exists.mp hv
  obtain ⟨pte', hpte', _⟩ := h.mapped v pte hpte
  exact Option.isSome_iff_exists.mpr ⟨pte', hpte'⟩

end Keeps

/-- The table `pt'` is `pt` with another entry for the page `vpn`. -/
def PageTable.Entered (vpn : Nat) (pte : PageTableEntry) (pt pt' : PageTable) : Prop :=
  ∀ v, pt'.find_pte v = if index v = index vpn then some pte else pt.find_pte v

section Entered

variable {pt pt' : PageTable} {vpn : Nat} {pte pte' : PageTableEntry} {ms : MemorySet}

theorem PageTable.Entered.self (h : pt.Entered vpn pte pt') : pt'.find_pte vpn = some pte := by
  rw [h vpn, if_pos rfl]

/-- Entering a page takes no page away. -/
theorem PageTable.Entered.mapped (h : pt.Entered vpn pte' pt')
    (hu : ∀ pte, pt.find_pte vpn = some pte → pte.flags.u = true → pte'.flags.u = true) (v : Nat)
    (pte : PageTableEntry) (hv : pt.find_pte v = some pte) :
    ∃ pte', pt'.find_pte v = some pte' ∧ (pte.flags.u = true → pte'.flags.u = true) := by
  rw [h v]
  split
  · rename_i heq
    exact ⟨pte', rfl, hu pte ((pt.find_pte_congr heq).symm.trans hv)⟩
  · exact ⟨pte, hv, id⟩

/-- A tracker may be put under the page that was entered. -/
theorem FrameMap.Mapped.insert {m : FrameMap} (hm : m.Mapped pt)
    (hpt : ∀ v, (pt.find_pte v).isSome → (pt'.find_pte v).isSome)
    (hvpn : (pt'.find_pte vpn).isSome) (frame : FrameTracker) :
    FrameMap.Mapped (Std.TreeMap.insert m vpn frame) pt' := by
  intro v hv
  rw [Std.TreeMap.getElem?_insert] at hv
  split at hv
  · rename_i heq
    rwa [← Std.LawfulEqCmp.eq_of_compare heq]
  · exact hpt v (hm v hv)

end Entered

section Faults

variable {ms ms' : MemorySet} {ph ph' : Phys} {vpn va : Nat} {pte : PageTableEntry}
  {frame : FrameTracker}

theorem FrameMap.insert_frame_ok {m m' : FrameMap} (h : m.insert_frame ph vpn frame = .ok (m', ph')) :
    m' = Std.TreeMap.insert m vpn frame := by
  unfold FrameMap.insert_frame at h
  split at h
  · cases h
    rfl
  · obtain ⟨_, _, h⟩ := bind_eq_ok.mp h
    cases h
    rfl

theorem FrameMap.insert_new_ok {m m' : FrameMap}
    (h : m.insert_new ph vpn = .ok (frame, m', ph')) : m' = Std.TreeMap.insert m vpn frame := by
  unfold FrameMap.insert_new at h
  obtain ⟨⟨frame₁, ph₁⟩, _, h⟩ := bind_eq_ok.mp h
  obtain ⟨⟨m₁, ph₂⟩, hinsert, h⟩ := bind_eq_ok.mp h
  cases h
  exact insert_frame_ok hinsert

/-- A new page of the stack or of the heap. -/
theorem VmArea.lazy_map_vpn_ok {area area' : VmArea} {pt pt' : PageTable}
    (h : area.lazy_map_vpn vpn pt ph = .ok (area', pt', ph')) :
    area'.from_another = area.from_another ∧ pt.find_pte vpn = none ∧
      (∃ ppn, pt.Entered vpn
        ⟨ppn, PTEFlags.from_map_permission area.permission ||| PTEFlags.V⟩ pt') ∧
      (area.frame_map.Mapped pt → area'.frame_map.Mapped pt') := by
  have hstill {pte : PageTableEntry} (hpt : pt.Entered vpn pte pt') (v : Nat)
      (hv : (pt.find_pte v).isSome) : (pt'.find_pte v).isSome := by
    rw [hpt v]
    split
    · rfl
    · exact hv
  unfold lazy_map_vpn at h
  split at h
  · obtain ⟨⟨pt₁, ph₁⟩, hmap, h⟩ := bind_eq_ok.mp h
    cases h
    obtain ⟨hnone, hpt⟩ := PageTable.map_ok hmap
    exact ⟨rfl, hnone, ⟨_, hpt⟩, fun hm v hv => hstill hpt v (hm v hv)⟩
  · obtain ⟨⟨frame, m, ph₁⟩, hnew, h⟩ := bind_eq_ok.mp h
    obtain ⟨⟨pt₁, ph₂⟩, hmap, h⟩ := bind_eq_ok.mp h
    cases h
    obtain ⟨hnone, hpt⟩ := PageTable.map_ok hmap
    refine ⟨rfl, hnone, ⟨_, hpt⟩, fun hm => ?_⟩
    rw [FrameMap.insert_new_ok hnew]
    exact hm.insert (hstill hpt) (by rw [PageTable.Entered.self hpt]; rfl) frame

theorem MmapPage.lazy_map_page_ok {page page' : MmapPage} {pt : PageTable}
    (h : page.lazy_map_page pt ph = .ok (page', ph')) : page' = { page with valid := true } := by
  unfold lazy_map_page at h
  dsimp only at h
  split at h
  all_goals
    obtain ⟨_, _, h⟩ := bind_eq_ok.mp h
    cases h
    rfl

theorem insert_in_areas_ok {areas : List VmArea} {r : Option (List VmArea × Phys)}
    (h : MemorySet.insert_in_areas ph vpn frame areas = .ok r) :
    ∀ s ∈ r, s.1.map VmArea.from_another = areas.map VmArea.from_another := by
  induction areas generalizing r with
  | nil =>
    cases h
    exact fun _ hs => nomatch hs
  | cons area areas ih =>
    unfold MemorySet.insert_in_areas at h
    split at h
    · obtain ⟨⟨m, ph₁⟩, _, h⟩ := bind_eq_ok.mp h
      cases h
      intro s hs
      cases hs
      rfl
    · obtain ⟨r', hr', h⟩ := bind_eq_ok.mp h
      cases r' with
      | none =>
        cases h
        exact fun _ hs => nomatch hs
      | some s' =>
        cases h
        intro s hs
        cases hs
        rw [List.map_cons, List.map_cons, ih hr' s' rfl]

/-- The frame of a copied page goes to a region that has the page, which is mapped. -/
theorem insert_cow_ok (h : ms.insert_cow ph vpn frame = .ok (ms', ph'))
    (hvpn : (ms.translate vpn).isSome) : ms'.page_table = ms.page_table ∧ Keeps ms ms' := by
  have hsame {ms' : MemorySet} (hpt : ms'.page_table = ms.page_table) (v : Nat)
      (pte : PageTableEntry) (hv : ms.translate v = some pte) :
      ∃ pte', ms'.translate v = some pte' ∧ (pte.flags.u = true → pte'.flags.u = true) :=
    ⟨pte, by rw [MemorySet.translate, hpt]; exact hv, id⟩
  unfold MemorySet.insert_cow at h
  obtain ⟨r, hr, h⟩ := bind_eq_ok.mp h
  cases r with
  | some s =>
    cases h
    exact ⟨rfl, ⟨insert_in_areas_ok hr s rfl, rfl, rfl, rfl⟩, rfl, rfl, rfl, rfl,
      SameRecords.refl _, hsame rfl, id, id⟩
  | none =>
    obtain ⟨inside, _, h⟩ := bind_eq_ok.mp h
    split at h
    · obtain ⟨⟨m, ph₁⟩, _, h⟩ := bind_eq_ok.mp h
      cases h
      exact ⟨rfl, ⟨rfl, rfl, rfl, rfl⟩, rfl, rfl, rfl, rfl, ⟨rfl, rfl, fun _ => rfl⟩, hsame rfl,
        id, id⟩
    · split at h
      · obtain ⟨⟨m, ph₁⟩, hinsert, h⟩ := bind_eq_ok.mp h
        cases h
        refine ⟨rfl, ⟨rfl, rfl, rfl, rfl⟩, rfl, rfl, rfl, rfl, SameRecords.refl _, hsame rfl,
          fun hm => ?_, id⟩
        rw [FrameMap.insert_frame_ok hinsert]
        exact hm.insert (fun _ hv => hv) hvpn frame
      · split at h
        · obtain ⟨⟨m, ph₁⟩, hinsert, h⟩ := bind_eq_ok.mp h
          cases h
          refine ⟨rfl, ⟨rfl, rfl, rfl, rfl⟩, rfl, rfl, rfl, rfl, SameRecords.refl _, hsame rfl, id,
            fun hm => ?_⟩
          rw [FrameMap.insert_frame_ok hinsert]
          exact hm.insert (fun _ hv => hv) hvpn frame
        · cases h

/-- `cow_alloc` leaves the page mapped with the W bit. -/
theorem cow_alloc_ok (hpte : ms.translate vpn = some pte)
    (h : ms.cow_alloc ph vpn pte.ppn = .ok (ms', ph')) :
    Keeps ms ms' ∧ ∃ pte', ms.page_table.Entered vpn pte' ms'.page_table ∧
      pte'.flags.w = true := by
  have hfind : ms.page_table.find_pte vpn = some pte := hpte
  have hv : pte.flags.v = true := PageTable.is_valid_of_find_pte hfind
  have hu {pte' : PageTableEntry} (hpte' : pte.flags.u = true → pte'.flags.u = true)
      (pte₀ : PageTableEntry) (h₀ : ms.page_table.find_pte vpn = some pte₀) :
      pte₀.flags.u = true → pte'.flags.u = true := by
    cases hfind.symm.trans h₀
    exact hpte'
  have hcow := h
  unfold MemorySet.cow_alloc at h
  obtain ⟨n, hone, h⟩ := bind_eq_ok.mp h
  rcases eq_or_ne n 1 with rfl | hn
  · rw [cow_alloc_alone hpte hone] at hcow
    cases hcow
    have hentered : ms.page_table.Entered vpn (pte.set_flags pte.flags.restored)
        (ms.page_table.set_entry vpn (pte.set_flags pte.flags.restored)) :=
      PageTable.find_pte_update hfind (by
        simp [PageTableEntry.is_valid, PageTableEntry.set_flags, PTEFlags.restored, hv])
    refine ⟨Keeps.table (hentered.mapped (hu fun hpte' => ?_)), _, hentered, ?_⟩
    · simp [PageTableEntry.set_flags, PTEFlags.restored, hpte']
    · simp [PageTableEntry.set_flags, PTEFlags.restored, PTEFlags.W]
  · rw [if_neg hn] at h
    obtain ⟨⟨frame, ph₁⟩, _, h⟩ := bind_eq_ok.mp h
    simp only [PageTable.remap_cow, PageTable.update_pte_of_find hfind, bind, Except.bind, pure,
      Except.pure] at h
    have hentered : ms.page_table.Entered vpn ⟨frame.ppn, pte.flags ||| PTEFlags.W⟩
        (ms.page_table.set_entry vpn ⟨frame.ppn, pte.flags ||| PTEFlags.W⟩) :=
      PageTable.find_pte_update hfind (by simp [PageTableEntry.is_valid, hv])
    obtain ⟨htable, hkeeps⟩ := insert_cow_ok h (by
      rw [MemorySet.translate, PageTable.translate, hentered.self]
      rfl)
    refine ⟨(Keeps.table (hentered.mapped (hu fun hpte' => ?_))).trans hkeeps,
      ⟨frame.ppn, pte.flags ||| PTEFlags.W⟩, ?_, ?_⟩
    · simp [hpte']
    · rw [htable]
      exact hentered
    · simp [PTEFlags.W]

theorem PageTable.Entered.mapped_new {pt pt' : PageTable} {pte' : PageTableEntry}
    (h : pt.Entered vpn pte' pt') (hnone : pt.find_pte vpn = none) (v : Nat) (pte : PageTableEntry)
    (hv : pt.find_pte v = some pte) :
    ∃ pte', pt'.find_pte v = some pte' ∧ (pte.flags.u = true → pte'.flags.u = true) := by
  refine h.mapped (fun pte hpte => ?_) v pte hv
  cases hnone.symm.trans hpte

theorem lazy_alloc_stack_ok (h : ms.lazy_alloc_stack ph vpn = .ok (ms', ph')) :
    Keeps ms ms' ∧ ms.translate vpn = none ∧
      ∃ pte', ms.page_table.Entered vpn pte' ms'.page_table := by
  obtain ⟨⟨area, pt, ph₁⟩, harea, h⟩ := bind_eq_ok.mp h
  cases h
  obtain ⟨hsame, hnone, ⟨ppn, hpt⟩, hframes⟩ := VmArea.lazy_map_vpn_ok harea
  have hkept := Keeps.table (hpt.mapped_new hnone)
  exact ⟨⟨⟨rfl, hsame, rfl, rfl⟩, rfl, rfl, rfl, rfl, SameRecords.refl _, hkept.mapped, hframes,
    hkept.heap_frames⟩, hnone, _, hpt⟩

theorem lazy_alloc_heap_ok (h : ms.lazy_alloc_heap ph vpn = .ok (ms', ph')) :
    Keeps ms ms' ∧ ms.translate vpn = none ∧
      ∃ pte', ms.page_table.Entered vpn pte' ms'.page_table := by
  obtain ⟨⟨area, pt, ph₁⟩, harea, h⟩ := bind_eq_ok.mp h
  cases h
  obtain ⟨hsame, hnone, ⟨ppn, hpt⟩, hframes⟩ := VmArea.lazy_map_vpn_ok harea
  have hkept := Keeps.table (hpt.mapped_new hnone)
  exact ⟨⟨⟨rfl, rfl, hsame, rfl⟩, rfl, rfl, rfl, rfl, SameRecords.refl _, hkept.mapped,
    hkept.stack_frames, hframes⟩, hnone, _, hpt⟩

theorem lazy_mmap_ok (h : ms.lazy_mmap ph vpn = .ok (ms', ph')) :
    Keeps ms ms' ∧ ms.translate vpn = none ∧
      ∃ pte', ms.page_table.Entered vpn pte' ms'.page_table := by
  obtain ⟨⟨frame, frame_map, ph₁⟩, _, h⟩ := bind_eq_ok.mp h
  dsimp only at h
  split at h
  · cases h
  · rename_i page hpage
    obtain ⟨⟨pt, ph₂⟩, hmap, h⟩ := bind_eq_ok.mp h
    obtain ⟨⟨page', ph₃⟩, hpage', h⟩ := bind_eq_ok.mp h
    cases h
    obtain ⟨hnone, hpt⟩ := PageTable.map_ok hmap
    have hpt : ms.page_table.Entered vpn _ pt := hpt
    have hkept := Keeps.table (hpt.mapped_new hnone)
    refine ⟨⟨⟨rfl, rfl, rfl, rfl⟩, rfl, rfl, rfl, rfl, SameRecords.insert hpage ?_ _, hkept.mapped,
      hkept.stack_frames, hkept.heap_frames⟩, hnone, _, hpt⟩
    rw [MmapPage.lazy_map_page_ok hpage']
    rfl

/-- A fault that is served leaves its page mapped, and writable if it was mapped; one that is
not leaves everything. -/
theorem check_lazy_ok {c : Int} (h : ms.check_lazy ph va = .ok (c, ms', ph')) :
    Keeps ms ms' ∧ (c ≠ 0 ∧ ms' = ms ∧ ph' = ph ∨
      c = 0 ∧ ∃ pte', ms.page_table.Entered (floor va) pte' ms'.page_table ∧
        ((ms.translate (floor va)).isSome → pte'.flags.w = true)) := by
  have hnew (hserved : Keeps ms ms' ∧ ms.translate (floor va) = none ∧
      ∃ pte', ms.page_table.Entered (floor va) pte' ms'.page_table) (hc : c = 0) :
      Keeps ms ms' ∧ (c ≠ 0 ∧ ms' = ms ∧ ph' = ph ∨
        c = 0 ∧ ∃ pte', ms.page_table.Entered (floor va) pte' ms'.page_table ∧
          ((ms.translate (floor va)).isSome → pte'.flags.w = true)) := by
    obtain ⟨hkept, hnone, pte', hpt⟩ := hserved
    refine ⟨hkept, Or.inr ⟨hc, pte', hpt, fun hsome => ?_⟩⟩
    rw [hnone] at hsome
    cases hsome
  unfold MemorySet.check_lazy at h
  dsimp only at h
  split at h
  · rename_i pte hpte
    split at h
    · obtain ⟨⟨ms₁, ph₁⟩, hcow, h⟩ := map_eq_ok.mp h
      cases h
      obtain ⟨hkept, pte', hpt, hw⟩ := cow_alloc_ok hpte hcow
      exact ⟨hkept, Or.inr ⟨rfl, pte', hpt, fun _ => hw⟩⟩
    · cases h
      exact ⟨Keeps.refl ms, Or.inl ⟨by decide, rfl, rfl⟩⟩
  · split at h
    · obtain ⟨⟨ms₁, ph₁⟩, hstack, h⟩ := map_eq_ok.mp h
      cases h
      exact hnew (lazy_alloc_stack_ok hstack) rfl
    · split at h
      · obtain ⟨⟨ms₁, ph₁⟩, hheap, h⟩ := map_eq_ok.mp h
        cases h
        exact hnew (lazy_alloc_heap_ok hheap) rfl
      · split at h
        · obtain ⟨⟨ms₁, ph₁⟩, hmmap, h⟩ := map_eq_ok.mp h
          cases h
          exact hnew (lazy_mmap_ok hmmap) rfl
        · cases h
          exact ⟨Keeps.refl ms, Or.inl ⟨by decide, rfl, rfl⟩⟩

end Faults

section Calls

variable {ms ms' : MemorySet} {ph ph' : Phys} {P : MemorySet → Prop}

/-- The kernel comes to the address on its way from `start` to `end_`; from the last page of
the address space it starts over at 0. -/
def Visits (start end_ va : Nat) : Prop := va < end_ ∧ (start ≤ va ∨ 2 ^ 64 - PAGE_SIZE < end_)

theorem Visits.of_next {start end_ va : Nat} (hlt : start < end_)
    (h : Visits (min ((floor start + 1) * PAGE_SIZE % 2 ^ 64) end_) end_ va) :
    Visits start end_ va := by
  refine ⟨h.1, ?_⟩
  rcases h.2 with hle | hlast
  · simp only [floor, PAGE_SIZE] at *
    omega
  · exact Or.inr hlast

/-- What faults preserve, a kernel access to a user buffer preserves. -/
theorem buffer_frame_visits {start ppn : Nat} (hP : ∀ {ms ms' ph ph' c}, P ms →
    MemorySet.check_lazy ms ph start = .ok (c, ms', ph') → P ms') (h : P ms)
    (hf : buffer_frame ms ph start = .ok (ppn, ms', ph')) : P ms' := by
  unfold buffer_frame at hf
  split at hf
  · cases hf
    exact h
  · obtain ⟨⟨c, ms₁, ph₁⟩, hlazy, hf⟩ := bind_eq_ok.mp hf
    dsimp only at hf
    split at hf
    · cases hf
    · split at hf
      · cases hf
        exact hP h hlazy
      · cases hf

theorem buffer_loop_visits {end_ : Nat} (fuel : Nat) : ∀ {start : Nat} {ms ms' : MemorySet}
    {ph ph' : Phys} {slices : List Slice}, (∀ {ms ms' ph ph' va c}, Visits start end_ va → P ms →
      MemorySet.check_lazy ms ph va = .ok (c, ms', ph') → P ms') → P ms →
      buffer_loop end_ fuel start ms ph = .ok (slices, ms', ph') → P ms' := by
  induction fuel with
  | zero =>
    intro start ms ms' ph ph' slices _ _ h
    cases h
  | succ fuel ih =>
    intro start ms ms' ph ph' slices hP hms h
    unfold buffer_loop at h
    split at h
    · rename_i hlt
      have hframe_keeps {ms ms' : MemorySet} {ph ph' : Phys} {c : Int} (hms : P ms)
          (hlazy : ms.check_lazy ph start = .ok (c, ms', ph')) : P ms' :=
        hP ⟨hlt, Or.inl (le_refl _)⟩ hms hlazy
      have hnext {va : Nat}
          (hva : Visits (min ((floor start + 1) * PAGE_SIZE % 2 ^ 64) end_) end_ va) :
          Visits start end_ va := hva.of_next hlt
      obtain ⟨⟨ppn, ms₁, ph₁⟩, hframe, h⟩ := bind_eq_ok.mp h
      dsimp only at h
      generalize min ((floor start + 1) * PAGE_SIZE % 2 ^ 64) end_ = next at h hnext
      generalize (if page_offset next = 0 then PAGE_SIZE else page_offset next) = stop at h
      split at h
      · cases h
      · obtain ⟨⟨slices', ms₂, ph₂⟩, hloop, h⟩ := bind_eq_ok.mp h
        cases h
        exact ih (fun hva => hP (hnext hva)) (buffer_frame_visits hframe_keeps hms hframe) hloop
    · cases h
      exact hms

theorem write_user_visits {ptr len : Nat} {data : List UInt8} (hP : ∀ {ms ms' ph ph' va c},
    Visits (virt_addr ptr) (virt_addr ((virt_addr ptr + len) % 2 ^ 64)) va → P ms →
    MemorySet.check_lazy ms ph va = .ok (c, ms', ph') → P ms')
    (h : P ms) (hw : write_user ms ph ptr len data = .ok (ms', ph')) : P ms' := by
  obtain ⟨⟨slices, ms₁, ph₁⟩, hbuffer, hw⟩ := bind_eq_ok.mp hw
  cases hw
  exact buffer_loop_visits _ hP h hbuffer

theorem write_user_keeps (hP : ∀ {ms ms' ph ph' va c}, P ms →
    MemorySet.check_lazy ms ph va = .ok (c, ms', ph') → P ms') {ptr len : Nat} {data : List UInt8}
    (h : P ms) (hw : write_user ms ph ptr len data = .ok (ms', ph')) : P ms' :=
  write_user_visits (fun _ => hP) h hw

theorem sys_brk_ok {brk : Nat} {r : Result} (h : ms.sys_brk brk = .ok (r, ms')) :
    ∃ b, ms' = { ms with brk := b } := by
  unfold MemorySet.sys_brk at h
  obtain ⟨⟨former, ms₁⟩, hgrow, h⟩ := bind_eq_ok.mp h
  obtain ⟨b, hb⟩ := (grow_proc_meets ms 0).of_ok hgrow
  dsimp only at hb h
  subst hb
  split at h
  · cases h
    exact ⟨b, rfl⟩
  · obtain ⟨⟨addr, ms₂⟩, hgrow', h⟩ := bind_eq_ok.mp h
    cases h
    obtain ⟨b', hb'⟩ := (grow_proc_meets _ _).of_ok hgrow'
    exact ⟨b', hb'⟩

theorem mprotect_pages_keeps {flags : PTEFlags} {prot : Nat} (hv : flags.v = true)
    (hu : flags.u = true) (vpns : List Nat) : ∀ {ms ms' : MemorySet} {r : Result},
      MemorySet.mprotect_pages flags prot vpns ms = .ok (r, ms') → Keeps ms ms' := by
  induction vpns with
  | nil =>
    intro ms ms' r h
    cases h
    exact Keeps.refl ms
  | cons vpn vpns ih =>
    intro ms ms' r h
    unfold MemorySet.mprotect_pages at h
    split at h
    · rename_i pte hpte
      have hentered : ms.page_table.Entered vpn (pte.set_flags flags)
          (ms.page_table.set_entry vpn (pte.set_flags flags)) := PageTable.find_pte_update hpte hv
      exact (Keeps.table (hentered.mapped fun _ _ _ => hu)).trans (ih h)
    · dsimp only at h
      split at h
      · cases h
      · split at h
        · split at h
          · cases h
          · rename_i page hpage
            refine Keeps.trans ?_ (ih h)
            exact ⟨⟨rfl, rfl, rfl, rfl⟩, rfl, rfl, rfl, rfl, SameRecords.insert hpage (by rfl) _,
              fun v pte hpte => ⟨pte, hpte, id⟩, id, id⟩
        · cases h
          exact Keeps.refl ms

theorem sys_mprotect_keeps {addr length prot : Nat} {r : Result}
    (h : ms.sys_mprotect addr length prot = .ok (r, ms')) : Keeps ms ms' := by
  unfold MemorySet.sys_mprotect at h
  obtain ⟨range, _, h⟩ := bind_eq_ok.mp h
  exact mprotect_pages_keeps rfl rfl range.vpns h

end Calls

/-- The pages of the two trampolines. -/
def trampolines : List Nat := [floor TRAMPOLINE, floor SIGNAL_TRAMPOLINE]

/-- The layout of the address space of a program, however it was come by. -/
structure Laid (ms : MemorySet) : Prop where
  stack_start : ms.user_stack_start = USER_STACK_BASE - USER_STACK_SIZE
  stack_end : ms.user_stack_end = USER_STACK_BASE
  stack_range : VPNRange.from_va ms.user_stack_start ms.user_stack_end =
    .ok ms.user_stack_areas.vpn_range
  stack_framed : ms.user_stack_areas.map_type = .Framed
  stack_user : ms.user_stack_areas.permission = MemorySet.user_rw
  stack_frames : ms.user_stack_areas.frame_map.Mapped ms.page_table
  heap_limit : ms.brk_start + USER_HEAP_SIZE < 2 ^ 64
  heap_range : VPNRange.from_va (virt_addr ms.brk_start)
    (virt_addr (ms.brk_start + USER_HEAP_SIZE)) = .ok ms.heap_areas.vpn_range
  heap_framed : ms.heap_areas.map_type = .Framed
  heap_user : ms.heap_areas.permission = MemorySet.user_rw
  heap_frames : ms.heap_areas.frame_map.Mapped ms.page_table
  kinds : ∀ area ∈ ms.map_areas.map VmArea.from_another, area.map_type = .Framed ∧
    (area.area_type = .Elf ∧ area.permission.u = true ∨ area.area_type = .TrapContext)
  area_mapped : ∀ area ∈ ms.map_areas.map VmArea.from_another, ∀ vpn ∈ area.vpn_range,
    ∃ pte, ms.translate vpn = some pte ∧ (area.area_type = .Elf → pte.flags.u = true)
  trampolines : ∀ v ∈ trampolines, (ms.translate v).isSome
  no_shm : ms.shm_areas = []
  manager : ms.mmap_manager.Sound

namespace Laid

variable {ms ms' : MemorySet}

theorem keeps (h : Laid ms) (hk : Keeps ms ms') : Laid ms' := by
  have hstack := hk.regions.stack
  have hheap := hk.regions.heap
  have hstackRange : ms'.user_stack_areas.vpn_range = ms.user_stack_areas.vpn_range :=
    (congrArg VmArea.vpn_range hstack :)
  have hheapRange : ms'.heap_areas.vpn_range = ms.heap_areas.vpn_range :=
    (congrArg VmArea.vpn_range hheap :)
  constructor
  · exact hk.stack_start.trans h.stack_start
  · exact hk.stack_end.trans h.stack_end
  · rw [hk.stack_start, hk.stack_end, hstackRange]
    exact h.stack_range
  · exact (congrArg VmArea.map_type hstack :).trans h.stack_framed
  · exact (congrArg VmArea.permission hstack :).trans h.stack_user
  · exact hk.stack_frames h.stack_frames
  · rw [hk.brk_start]
    exact h.heap_limit
  · rw [hk.brk_start, hheapRange]
    exact h.heap_range
  · exact (congrArg VmArea.map_type hheap :).trans h.heap_framed
  · exact (congrArg VmArea.permission hheap :).trans h.heap_user
  · exact hk.heap_frames h.heap_frames
  · rw [hk.regions.areas]
    exact h.kinds
  · rw [hk.regions.areas]
    intro area harea vpn hvpn
    obtain ⟨pte, hpte, hu⟩ := h.area_mapped area harea vpn hvpn
    obtain ⟨pte', hpte', hu'⟩ := hk.mapped vpn pte hpte
    exact ⟨pte', hpte', fun helf => hu' (hu helf)⟩
  · exact fun v hv => hk.mapped_isSome (h.trampolines v hv)
  · exact hk.regions.shm.trans h.no_shm
  · exact hk.records.sound h.manager

theorem with_mmap {m : MmapManager} (h : Laid ms) (hm : m.Sound) : Laid (ms.with_mmap m) :=
  { h with manager := hm }

end Laid

end MyGOS.Mm
