import MyGOS.Mm.Layout

/-!
# Frames that a fault spares

A fault on an unmapped page takes its frames from the allocator, and drops at
most the tracker that was left under that page. The bytes of all other frames
stay as they are, wherever these frames are mapped.
-/

namespace MyGOS.Mm

open Outcome

/-- The allocator has given the frame away, or never had it. -/
def Phys.Taken (ph : Phys) (q : Nat) : Prop :=
  q ∉ ph.allocator.recycled ∧ q < ph.allocator.current

/-- A taken frame stays taken and keeps its bytes. -/
def Phys.Spares (q : Nat) (ph ph' : Phys) : Prop :=
  ph.Taken q → ph'.Taken q ∧ ph'.bytes q = ph.bytes q

namespace Phys.Spares

variable {q vpn ppn : Nat} {ph ph' ph'' : Phys} {frame : FrameTracker} {pt pt' : PageTable}
  {flags : PTEFlags}

theorem refl (q : Nat) (ph : Phys) : Spares q ph ph := fun h => ⟨h, rfl⟩

theorem trans (h : Spares q ph ph') (h' : Spares q ph' ph'') : Spares q ph ph'' := by
  intro htaken
  obtain ⟨htaken₁, hbytes⟩ := h htaken
  obtain ⟨htaken₂, hbytes'⟩ := h' htaken₁
  exact ⟨htaken₂, hbytes'.trans hbytes⟩

theorem write (hne : q ≠ ppn) (offset : Nat) (data : List UInt8) :
    Spares q ph (ph.write ppn offset data) :=
  fun h => ⟨h, funext fun _ => Phys.write_bytes_outside fun hin => hne hin.1⟩

theorem alloc_frame (h : ph.alloc_frame = .ok (frame, ph')) :
    Spares q ph ph' ∧ (ph.Taken q → q ≠ frame.ppn) := by
  obtain ⟨r, hr, h⟩ := bind_eq_ok.mp h
  cases r with
  | none => cases h
  | some r =>
    cases h
    unfold StackFrameAllocator.alloc_frame StackFrameAllocator.alloc at hr
    have hnew {ppn : Nat} (hne : ph.Taken q → q ≠ ppn) (a : StackFrameAllocator)
        (htaken : ph.Taken q → q ∉ a.recycled ∧ q < a.current) :
        Spares q ph ⟨a, Function.update ph.bytes ppn fun _ => 0⟩ ∧ (ph.Taken q → q ≠ ppn) :=
      ⟨fun h => ⟨htaken h, Function.update_of_ne (hne h) _ _⟩, hne⟩
    cases hrecycled : ph.allocator.recycled with
    | cons ppn recycled =>
      rw [hrecycled] at hr
      obtain ⟨a, ha, hr⟩ := bind_eq_ok.mp hr
      cases hr
      unfold StackFrameAllocator.add_ref at ha
      split at ha
      · cases ha
      · cases ha
        refine hnew (fun h heq => h.1 ?_) _ fun h => ⟨fun hmem => h.1 ?_, h.2⟩
        · rw [hrecycled, heq]
          exact List.mem_cons_self
        · rw [hrecycled]
          exact List.mem_cons_of_mem _ hmem
    | nil =>
      rw [hrecycled] at hr
      dsimp only at hr
      split at hr
      · cases hr
      · rename_i hcurrent
        split at hcurrent
        · cases hcurrent
        · cases hcurrent
          obtain ⟨a, ha, hr⟩ := bind_eq_ok.mp hr
          cases hr
          unfold StackFrameAllocator.add_ref at ha
          split at ha
          · cases ha
          · cases ha
            refine hnew (fun h => Nat.ne_of_lt h.2) _ fun h => ⟨?_, Nat.lt_succ_of_lt h.2⟩
            rw [← hrecycled]
            exact h.1

/-- Only the frame of the tracker may become free. -/
theorem drop (h : ph.drop frame = .ok ph') (hne : frame.ppn ≠ q) : Spares q ph ph' := by
  obtain ⟨a, ha, h⟩ := bind_eq_ok.mp h
  cases h
  refine fun htaken => ⟨?_, rfl⟩
  unfold StackFrameAllocator.dealloc at ha
  split at ha
  · cases ha
  · split at ha
    · cases ha
    · split at ha
      · split at ha
        · cases ha
        · cases ha
          exact ⟨List.not_mem_cons_of_ne_of_not_mem hne.symm htaken.1, htaken.2⟩
      · cases ha
        exact htaken

theorem create_dir {i : Nat} (h : pt.create_dir ph i = .ok (pt', ph')) : Spares q ph ph' := by
  unfold PageTable.create_dir at h
  split at h
  · cases h
    exact refl q ph
  · obtain ⟨⟨frame, ph₁⟩, halloc, h⟩ := bind_eq_ok.mp h
    cases h
    exact (alloc_frame halloc).1

theorem create_tab {i : Nat} (h : pt.create_tab ph i = .ok (pt', ph')) : Spares q ph ph' := by
  unfold PageTable.create_tab at h
  split at h
  · cases h
    exact refl q ph
  · obtain ⟨⟨frame, ph₁⟩, halloc, h⟩ := bind_eq_ok.mp h
    cases h
    exact (alloc_frame halloc).1

theorem map (h : pt.map ph vpn ppn flags = .ok (pt', ph')) : Spares q ph ph' := by
  obtain ⟨⟨pt₁, ph₁⟩, hcreate, h⟩ := bind_eq_ok.mp h
  dsimp only at h
  split at h
  · cases h
  · cases h
    obtain ⟨⟨pt₂, ph₂⟩, hdir, htab⟩ := bind_eq_ok.mp hcreate
    exact (create_dir hdir).trans (create_tab htab)

theorem insert_new {m m' : FrameMap} (h : m.insert_new ph vpn = .ok (frame, m', ph'))
    (hold : ∀ old ∈ m[vpn]?, old.ppn ≠ q) :
    Spares q ph ph' ∧ (ph.Taken q → q ≠ frame.ppn) := by
  obtain ⟨⟨frame₁, ph₁⟩, halloc, h⟩ := bind_eq_ok.mp h
  obtain ⟨⟨m₁, ph₂⟩, hinsert, h⟩ := bind_eq_ok.mp h
  cases h
  obtain ⟨hspares, hne⟩ := alloc_frame (q := q) halloc
  refine ⟨hspares.trans ?_, hne⟩
  unfold FrameMap.insert_frame at hinsert
  split at hinsert
  · cases hinsert
    exact refl q _
  · rename_i old hsome
    obtain ⟨ph₃, hdrop, hinsert⟩ := bind_eq_ok.mp hinsert
    cases hinsert
    exact drop hdrop (hold old hsome)

theorem lazy_map_vpn {area area' : VmArea} (h : area.lazy_map_vpn vpn pt ph = .ok (area', pt', ph'))
    (hold : ∀ old ∈ area.frame_map[vpn]?, old.ppn ≠ q) : Spares q ph ph' := by
  unfold VmArea.lazy_map_vpn at h
  dsimp only at h
  split at h
  · obtain ⟨⟨pt₁, ph₁⟩, hmap, h⟩ := bind_eq_ok.mp h
    cases h
    exact map hmap
  · obtain ⟨⟨frame, m, ph₁⟩, hnew, h⟩ := bind_eq_ok.mp h
    obtain ⟨⟨pt₁, ph₂⟩, hmap, h⟩ := bind_eq_ok.mp h
    cases h
    exact (insert_new hnew hold).1.trans (map hmap)

end Phys.Spares

namespace MemorySet

/-- The frame maps that faults insert to. -/
def lazy_maps (ms : MemorySet) : List FrameMap :=
  [ms.user_stack_areas.frame_map, ms.heap_areas.frame_map, ms.mmap_manager.frame_map]

/-- The frame is taken, and no tracker that a fault would replace is one of it. -/
structure InUse (ms : MemorySet) (ph : Phys) (q : Nat) : Prop where
  taken : ph.Taken q
  kept : ∀ vpn, ms.translate vpn = none → ∀ m ∈ ms.lazy_maps, ∀ old ∈ m[vpn]?, old.ppn ≠ q

def Keyed (ms : MemorySet) : Prop :=
  ∀ (vpn : Nat) (page : MmapPage), ms.mmap_manager.mmap_map[vpn]? = some page → page.vpn = vpn

theorem forall_lazy_maps {ms : MemorySet} {P : FrameMap → Prop} : (∀ m ∈ ms.lazy_maps, P m) ↔
    P ms.user_stack_areas.frame_map ∧ P ms.heap_areas.frame_map ∧ P ms.mmap_manager.frame_map := by
  simp [lazy_maps]

end MemorySet

section Faults

variable {ms ms' : MemorySet} {ph ph' : Phys} {va vpn q : Nat}

theorem FrameMap.insert_new_other {m m' : FrameMap} {frame : FrameTracker}
    (h : m.insert_new ph vpn = .ok (frame, m', ph')) {v : Nat} (hne : v ≠ vpn) : m'[v]? = m[v]? := by
  rw [insert_new_ok h, Std.TreeMap.getElem?_insert, if_neg]
  intro heq
  exact hne (Std.LawfulEqCmp.eq_of_compare heq).symm

theorem VmArea.lazy_map_vpn_other {area area' : VmArea} {pt pt' : PageTable}
    (h : area.lazy_map_vpn vpn pt ph = .ok (area', pt', ph')) {v : Nat} (hne : v ≠ vpn) :
    area'.frame_map[v]? = area.frame_map[v]? := by
  unfold lazy_map_vpn at h
  dsimp only at h
  split at h
  · obtain ⟨⟨pt₁, ph₁⟩, hmap, h⟩ := bind_eq_ok.mp h
    cases h
    rfl
  · obtain ⟨⟨frame, m, ph₁⟩, hnew, h⟩ := bind_eq_ok.mp h
    obtain ⟨⟨pt₁, ph₂⟩, hmap, h⟩ := bind_eq_ok.mp h
    cases h
    exact FrameMap.insert_new_other hnew hne

/-- What a fault on an unmapped page leaves alone. -/
structure SparedBy (vpn q : Nat) (ms : MemorySet) (ph : Phys) (ms' : MemorySet) (ph' : Phys) :
    Prop where
  entered : ∃ pte, ms.page_table.Entered vpn pte ms'.page_table
  stack : ∀ v, v ≠ vpn → ms'.user_stack_areas.frame_map[v]? = ms.user_stack_areas.frame_map[v]?
  heap : ∀ v, v ≠ vpn → ms'.heap_areas.frame_map[v]? = ms.heap_areas.frame_map[v]?
  mmap : ∀ v, v ≠ vpn → ms'.mmap_manager.frame_map[v]? = ms.mmap_manager.frame_map[v]?
  keyed : ms'.Keyed
  spares : ms.InUse ph q → Phys.Spares q ph ph'

theorem SparedBy.inUse (h : SparedBy vpn q ms ph ms' ph') (huse : ms.InUse ph q) :
    ms'.InUse ph' q ∧ ph'.bytes q = ph.bytes q := by
  obtain ⟨htaken, hbytes⟩ := h.spares huse huse.taken
  refine ⟨⟨htaken, fun v hnone => ?_⟩, hbytes⟩
  obtain ⟨pte, hpt⟩ := h.entered
  have hnone' : ms'.page_table.find_pte v = none := hnone
  rw [hpt v] at hnone'
  split at hnone'
  · cases hnone'
  · rename_i hindex
    have hne : v ≠ vpn := fun heq => hindex (congrArg index heq)
    have hkept := huse.kept v hnone'
    rw [MemorySet.forall_lazy_maps] at hkept ⊢
    rw [h.stack v hne, h.heap v hne, h.mmap v hne]
    exact hkept

theorem lazy_alloc_stack_spares (hkeyed : ms.Keyed)
    (h : ms.lazy_alloc_stack ph vpn = .ok (ms', ph')) : SparedBy vpn q ms ph ms' ph' := by
  obtain ⟨_, hnone, hpt⟩ := lazy_alloc_stack_ok h
  obtain ⟨⟨area, pt, ph₁⟩, harea, h⟩ := bind_eq_ok.mp h
  cases h
  exact ⟨hpt, fun v => VmArea.lazy_map_vpn_other harea, fun _ _ => rfl, fun _ _ => rfl, hkeyed,
    fun huse => .lazy_map_vpn harea (MemorySet.forall_lazy_maps.mp (huse.kept vpn hnone)).1⟩

theorem lazy_alloc_heap_spares (hkeyed : ms.Keyed)
    (h : ms.lazy_alloc_heap ph vpn = .ok (ms', ph')) : SparedBy vpn q ms ph ms' ph' := by
  obtain ⟨_, hnone, hpt⟩ := lazy_alloc_heap_ok h
  obtain ⟨⟨area, pt, ph₁⟩, harea, h⟩ := bind_eq_ok.mp h
  cases h
  exact ⟨hpt, fun _ _ => rfl, fun v => VmArea.lazy_map_vpn_other harea, fun _ _ => rfl, hkeyed,
    fun huse => .lazy_map_vpn harea (MemorySet.forall_lazy_maps.mp (huse.kept vpn hnone)).2.1⟩

theorem lazy_mmap_spares (hkeyed : ms.Keyed) (h : ms.lazy_mmap ph vpn = .ok (ms', ph')) :
    SparedBy vpn q ms ph ms' ph' := by
  obtain ⟨_, hnone, hentered⟩ := lazy_mmap_ok h
  obtain ⟨⟨frame, frame_map, ph₁⟩, hnew, h⟩ := bind_eq_ok.mp h
  dsimp only at h
  split at h
  · cases h
  · rename_i page hpage
    obtain ⟨⟨pt, ph₂⟩, hmap, h⟩ := bind_eq_ok.mp h
    obtain ⟨⟨page', ph₃⟩, hpage', h⟩ := bind_eq_ok.mp h
    cases h
    have hkey : page.vpn = vpn := hkeyed vpn page hpage
    refine ⟨hentered, fun _ _ => rfl, fun _ _ => rfl, fun v => FrameMap.insert_new_other hnew,
      fun v page₁ hv => ?_, fun huse => ?_⟩
    · rw [Std.TreeMap.getElem?_insert] at hv
      split at hv
      · rename_i heq
        cases hv
        rw [MmapPage.lazy_map_page_ok hpage']
        exact hkey.trans (Std.LawfulEqCmp.eq_of_compare heq)
      · exact hkeyed v page₁ hv
    · obtain ⟨hspares, hne⟩ := Phys.Spares.insert_new (q := q) hnew
        (MemorySet.forall_lazy_maps.mp (huse.kept vpn hnone)).2.2
      have hself := PageTable.Entered.self (PageTable.map_ok hmap).2
      rw [← hkey] at hself
      obtain ⟨_, hallocator, hbytes⟩ := (MmapPage.lazy_map_page_meets hself).of_ok hpage'
      have hfill : ph.Taken q → Phys.Spares q ph₂ ph₃ := fun htaken htaken₂ => by
        refine ⟨?_, hbytes q (hne htaken)⟩
        rw [Phys.Taken, hallocator]
        exact htaken₂
      exact fun htaken => (hspares.trans ((Phys.Spares.map hmap).trans (hfill htaken))) htaken

/-- A fault on an unmapped page that is served. -/
theorem check_lazy_spares (hkeyed : ms.Keyed) (hnone : ms.translate (floor va) = none)
    (h : ms.check_lazy ph va = .ok (0, ms', ph')) : SparedBy (floor va) q ms ph ms' ph' := by
  unfold MemorySet.check_lazy at h
  dsimp only at h
  rw [hnone] at h
  dsimp only at h
  split at h
  · obtain ⟨⟨ms₁, ph₁⟩, hstack, h⟩ := map_eq_ok.mp h
    cases h
    exact lazy_alloc_stack_spares hkeyed hstack
  · split at h
    · obtain ⟨⟨ms₁, ph₁⟩, hheap, h⟩ := map_eq_ok.mp h
      cases h
      exact lazy_alloc_heap_spares hkeyed hheap
    · split at h
      · obtain ⟨⟨ms₁, ph₁⟩, hmmap, h⟩ := map_eq_ok.mp h
        cases h
        exact lazy_mmap_spares hkeyed hmmap
      · cases h

end Faults

end MyGOS.Mm
