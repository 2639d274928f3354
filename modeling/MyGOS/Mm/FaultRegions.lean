import MyGOS.Mm.LayoutRuns
import MyGOS.Mm.MappingSafety

/-!
# Which faults are served

A fault on an unmapped page takes at most three frames: one for the page and
two for the path to it. With that many left, a fault on the stack or on the
heap is always served. In the interval of the mmap manager the page must be
recorded and its file must take the read; anything else there is a panic.
-/

namespace MyGOS.Mm

open Outcome StepSystem

namespace StackFrameAllocator

/-- The frames that are left. -/
def available (a : StackFrameAllocator) : Nat := a.recycled.length + (a.end_ - a.current)

variable {a a' : StackFrameAllocator} {n ppn : Nat}

theorem alloc_available (h : n + 1 ≤ a.available) :
    ∃ ppn a', a.alloc = some (ppn, a') ∧ a'.refcounter[ppn]? = some 0 ∧ n ≤ a'.available := by
  unfold available at h
  unfold alloc
  cases hrecycled : a.recycled with
  | nil =>
    rw [hrecycled, List.length_nil] at h
    dsimp only
    rw [if_neg (by omega)]
    refine ⟨_, _, rfl, Std.TreeMap.getElem?_insert_self, ?_⟩
    simp only [available, List.length_nil]
    omega
  | cons ppn recycled =>
    rw [hrecycled, List.length_cons] at h
    refine ⟨_, _, rfl, Std.TreeMap.getElem?_insert_self, ?_⟩
    simp only [available]
    omega

/-- Dropping a tracker takes no frame away. -/
theorem dealloc_available (h : a.dealloc ppn = .ok a') : a.available ≤ a'.available := by
  unfold dealloc at h
  split at h
  · cases h
  · split at h
    · cases h
    · split at h
      · split at h
        · cases h
        · cases h
          simp only [available, List.length_cons]
          omega
      · cases h
        exact le_refl _

end StackFrameAllocator

namespace Phys

variable {ph ph' : Phys} {n : Nat} {frame : FrameTracker}

theorem alloc_frame_available (h : n + 1 ≤ ph.allocator.available) :
    ∃ frame ph', ph.alloc_frame = .ok (frame, ph') ∧ n ≤ ph'.allocator.available := by
  obtain ⟨ppn, a, halloc, hcounter, hn⟩ := StackFrameAllocator.alloc_available h
  have hframe : ph.allocator.alloc_frame =
      .ok (some (⟨ppn⟩, { a with refcounter := a.refcounter.insert ppn (0 + 1) })) := by
    simp only [StackFrameAllocator.alloc_frame, halloc, StackFrameAllocator.add_ref, hcounter]
    rfl
  rw [alloc_frame, hframe]
  exact ⟨_, _, rfl, hn⟩

theorem drop_available (h : ph.drop frame = .ok ph') :
    ph.allocator.available ≤ ph'.allocator.available := by
  obtain ⟨a, ha, h⟩ := bind_eq_ok.mp h
  cases h
  exact StackFrameAllocator.dealloc_available ha

end Phys

namespace PageTable

variable {pt : PageTable} {ph : Phys} {n vpn : Nat}

theorem create_dir_available (pt : PageTable) (i : Nat) (h : n + 1 ≤ ph.allocator.available) :
    ∃ r, pt.create_dir ph i = .ok r ∧ n ≤ r.2.allocator.available := by
  unfold create_dir
  split
  · exact ⟨_, rfl, by dsimp only; omega⟩
  · obtain ⟨frame, ph', halloc, hn⟩ := Phys.alloc_frame_available h
    rw [halloc]
    exact ⟨_, rfl, hn⟩

theorem create_tab_available (pt : PageTable) (i : Nat) (h : n + 1 ≤ ph.allocator.available) :
    ∃ r, pt.create_tab ph i = .ok r ∧ n ≤ r.2.allocator.available := by
  unfold create_tab
  split
  · exact ⟨_, rfl, by dsimp only; omega⟩
  · obtain ⟨frame, ph', halloc, hn⟩ := Phys.alloc_frame_available h
    rw [halloc]
    exact ⟨_, rfl, hn⟩

/-- Two frames are enough to map an unmapped page. -/
theorem map_available (ppn : Nat) (flags : PTEFlags) (hnone : pt.find_pte vpn = none)
    (h : 2 ≤ ph.allocator.available) : ∃ r, pt.map ph vpn ppn flags = .ok r := by
  obtain ⟨⟨pt₁, ph₁⟩, hdir, h₁⟩ := create_dir_available pt (dir_index vpn) h
  obtain ⟨⟨pt₂, ph₂⟩, htab, _⟩ := create_tab_available pt₁ (tab_index vpn) (n := 0) h₁
  have hcreate : pt.find_pte_create ph vpn = .ok (pt₂, ph₂) := by
    rw [find_pte_create, hdir]
    exact htab
  obtain ⟨hfind, hreach⟩ := find_pte_create_ok hcreate
  have hinvalid : ¬ (pt₂.entry (index vpn)).is_valid := by
    intro hvalid
    have hsome : pt₂.find_pte vpn = some (pt₂.entry (index vpn)) :=
      if_pos ⟨hreach.1, hreach.2, hvalid⟩
    cases (hsome.symm.trans (hfind vpn)).trans hnone
  rw [map, hcreate, ok_bind]
  exact ⟨_, if_neg hinvalid⟩

end PageTable

/-- The tracker that a new frame for `vpn` replaces, if any, can be dropped. -/
def FrameMap.Replaceable (m : FrameMap) (ph : Phys) (vpn : Nat) : Prop :=
  ∀ old ∈ m[vpn]?, ∀ frame ph', ph.alloc_frame = .ok (frame, ph') →
    ∃ ph'', ph'.drop old = .ok ph''

/-- The page can be filled: its file has an offset, and takes the read if it is readable. -/
def MmapPage.Fillable (page : MmapPage) : Prop :=
  page.flags.anonymous = true ∨ ∃ f ∈ page.file, f.seekable = true ∧
    (f.readable = true → f.takes page.offset (page.read_len f) = true)

section Pages

variable {m : FrameMap} {pt : PageTable} {ph : Phys} {n vpn : Nat} {page : MmapPage}

theorem FrameMap.insert_new_available (hold : m.Replaceable ph vpn)
    (h : n + 1 ≤ ph.allocator.available) :
    ∃ r, m.insert_new ph vpn = .ok r ∧ n ≤ r.2.2.allocator.available := by
  obtain ⟨frame, ph₁, halloc, hn⟩ := Phys.alloc_frame_available h
  rw [FrameMap.insert_new, halloc, ok_bind]
  dsimp only
  unfold FrameMap.insert_frame
  split
  · exact ⟨_, rfl, hn⟩
  · rename_i old hsome
    obtain ⟨ph₂, hdrop⟩ := hold old hsome frame ph₁ halloc
    rw [hdrop]
    exact ⟨_, rfl, hn.trans (Phys.drop_available hdrop)⟩

theorem FrameMap.replaceable_of_insert_new {r : FrameTracker × FrameMap × Phys}
    (h : m.insert_new ph vpn = .ok r) : m.Replaceable ph vpn := by
  intro old hold frame ph₁ halloc
  rw [FrameMap.insert_new, halloc, ok_bind] at h
  obtain ⟨⟨m₁, ph₂⟩, hinsert, _⟩ := bind_eq_ok.mp h
  unfold FrameMap.insert_frame at hinsert
  rw [Option.mem_def.mp hold] at hinsert
  obtain ⟨ph₃, hdrop, _⟩ := bind_eq_ok.mp hinsert
  exact ⟨ph₃, hdrop⟩

theorem VmArea.lazy_map_vpn_available {area : VmArea} (hframed : area.map_type = .Framed)
    (hold : area.frame_map[vpn]? = none) (hnone : pt.find_pte vpn = none)
    (h : 3 ≤ ph.allocator.available) : ∃ r, area.lazy_map_vpn vpn pt ph = .ok r := by
  have hreplaceable : area.frame_map.Replaceable ph vpn :=
    fun old hsome => by cases hold.symm.trans hsome
  obtain ⟨⟨frame, m₁, ph₁⟩, hnew, h₁⟩ := FrameMap.insert_new_available hreplaceable h
  obtain ⟨⟨pt₂, ph₂⟩, hmap⟩ := PageTable.map_available frame.ppn
    (PTEFlags.from_map_permission area.permission) hnone h₁
  simp only [VmArea.lazy_map_vpn, hframed, hnew, ok_bind, hmap]
  exact ⟨_, rfl⟩

theorem MmapPage.fill_of_translate {pte : PageTableEntry} {data : List UInt8}
    (h : pt.translate page.vpn = some pte) :
    page.fill pt ph data = .ok (ph.write pte.ppn 0 data) := by
  unfold MmapPage.fill
  rw [h]

theorem MmapPage.lazy_map_page_iff (ph : Phys) {pte : PageTableEntry}
    (h : pt.translate page.vpn = some pte) :
    (∃ r, page.lazy_map_page pt ph = .ok r) ↔ page.Fillable := by
  unfold MmapPage.lazy_map_page MmapPage.Fillable
  cases page.flags.anonymous with
  | true =>
    rw [if_pos rfl, MmapPage.read_from_zero, MmapPage.fill_of_translate h]
    exact ⟨fun _ => Or.inl rfl, fun _ => ⟨_, rfl⟩⟩
  | false =>
    rw [if_neg Bool.false_ne_true, MmapPage.read_from_file]
    cases page.file with
    | none =>
      constructor
      · rintro ⟨r, hr⟩
        cases hr
      · rintro (hanon | ⟨f, hf, _⟩)
        · cases hanon
        · cases hf
    | some f =>
      dsimp only
      cases hseek : f.seekable <;> cases hread : f.readable <;>
        cases htakes : f.takes page.offset (page.read_len f) <;>
        simp [hseek, hread, htakes, MmapPage.fill_of_translate h, bind, Except.bind,
          pure, Except.pure]

end Pages

namespace MemorySet

def heap_end (ms : MemorySet) : Nat := virt_addr (ms.brk_start + USER_HEAP_SIZE)

def OnStack (ms : MemorySet) (va : Nat) : Prop :=
  virt_addr ms.user_stack_start ≤ va ∧ va < virt_addr ms.user_stack_end

def OnHeap (ms : MemorySet) (va : Nat) : Prop :=
  virt_addr ms.brk_start ≤ va ∧ va < ms.heap_end

instance (ms : MemorySet) (va : Nat) : Decidable (ms.OnStack va) :=
  inferInstanceAs (Decidable (_ ∧ _))

instance (ms : MemorySet) (va : Nat) : Decidable (ms.OnHeap va) :=
  inferInstanceAs (Decidable (_ ∧ _))

/-- The page of the address belongs to a mapping. -/
def Recorded (ms : MemorySet) (va : Nat) : Prop :=
  (ms.mmap_manager.mmap_map[floor va]?).isSome

instance (ms : MemorySet) (va : Nat) : Decidable (ms.Recorded va) :=
  inferInstanceAs (Decidable (_ = true))

/-- A user may touch the address. -/
def Live (ms : MemorySet) (va : Nat) : Prop := ms.OnStack va ∨ ms.OnHeap va ∨ ms.Recorded va

instance (ms : MemorySet) (va : Nat) : Decidable (ms.Live va) :=
  inferInstanceAs (Decidable (_ ∨ _ ∨ _))

def InMmap (ms : MemorySet) (va : Nat) : Prop :=
  ms.mmap_manager.mmap_start ≤ va ∧ va < ms.mmap_manager.mmap_top

instance (ms : MemorySet) (va : Nat) : Decidable (ms.InMmap va) :=
  inferInstanceAs (Decidable (_ ∧ _))

/-- The fault is served. -/
def Served (ms : MemorySet) (ph : Phys) (va : Nat) : Prop :=
  ∃ ms' ph', ms.check_lazy ph va = .ok (0, ms', ph') ∧ (ms'.translate (floor va)).isSome

/-- The fault is turned down, and nothing changes. -/
def Refused (ms : MemorySet) (ph : Phys) (va : Nat) : Prop :=
  ∃ c, c ≠ 0 ∧ ms.check_lazy ph va = .ok (c, ms, ph)

/-- Served where the user may touch the address, turned down elsewhere; no panic. -/
def FaultAnswered (ms : MemorySet) (ph : Phys) (va : Nat) : Prop :=
  (ms.Live va → ms.Served ph va) ∧ (¬ ms.Live va → ms.Refused ph va)

/-- A page of a mapping whose first touch goes well. -/
def Fetchable (ms : MemorySet) (ph : Phys) (va : Nat) : Prop :=
  ∃ page ∈ ms.mmap_manager.mmap_map[floor va]?, page.Fillable ∧
    ms.mmap_manager.frame_map.Replaceable ph (floor va)

/-- The addresses that get the right answer. The end of the heap is served with the heap; holes
in the interval of the mmap manager are not told from its pages. -/
def FaultPermitted (ms : MemorySet) (ph : Phys) (va : Nat) : Prop :=
  if ms.OnStack va ∨ ms.OnHeap va then True
  else if va = ms.heap_end then ms.Recorded va
  else if ms.InMmap va then ms.Fetchable ph va
  else ¬ ms.Recorded va

section Regions

variable {ms ms' : MemorySet} {ph ph' : Phys} {va : Nat}

theorem check_lazy_unmapped (ph : Phys) (h : Laid ms) (hnone : ms.translate (floor va) = none) :
    ms.check_lazy ph va =
      if ms.OnStack va then (fun s => (0, s)) <$> ms.lazy_alloc_stack ph (floor va)
      else if virt_addr ms.brk_start ≤ va ∧ va ≤ ms.heap_end then
        (fun s => (0, s)) <$> ms.lazy_alloc_heap ph (floor va)
      else if ms.InMmap va then (fun s => (0, s)) <$> ms.lazy_mmap ph (floor va)
      else .ok (-2, ms, ph) := by
  unfold check_lazy heap_end
  rw [Nat.mod_eq_of_lt h.heap_limit]
  dsimp only
  rw [hnone]
  rfl

theorem virt_addr_cases (value : Nat) : value < 2 ^ 39 ∧ virt_addr value = value ∨
    2 ^ 39 ≤ value ∧ virt_addr value = value % 2 ^ 39 + (2 ^ 64 - 2 ^ 39) := by
  unfold virt_addr
  split
  · rename_i hlow
    exact Or.inl ⟨hlow, rfl⟩
  · rename_i hhigh
    exact Or.inr ⟨not_lt.mp hhigh, rfl⟩

theorem heap_ordered (h : Laid ms) : virt_addr ms.brk_start ≤ ms.heap_end := by
  have hle : floor (virt_addr ms.brk_start) ≤ ceil ms.heap_end := by
    have hrange := h.heap_range
    unfold VPNRange.from_va at hrange
    split at hrange
    · assumption
    · cases hrange
  have hlimit := h.heap_limit
  have hstart := virt_addr_cases ms.brk_start
  have hend := virt_addr_cases (ms.brk_start + USER_HEAP_SIZE)
  unfold heap_end at *
  generalize virt_addr ms.brk_start = start at *
  generalize virt_addr (ms.brk_start + USER_HEAP_SIZE) = stop at *
  simp only [ceil, floor, PAGE_SIZE, USER_HEAP_SIZE] at *
  omega

/-- A fault that is served leaves its page mapped. -/
theorem served_of_ok (h : ms.check_lazy ph va = .ok (0, ms', ph')) : ms.Served ph va := by
  refine ⟨ms', ph', h, ?_⟩
  obtain ⟨_, ⟨hne, _⟩ | ⟨_, pte, hpt, _⟩⟩ := check_lazy_ok h
  · exact absurd rfl hne
  · exact Option.isSome_iff_exists.mpr ⟨pte, hpt.self⟩

theorem untracked {m : FrameMap} {vpn : Nat} (h : m.Mapped ms.page_table)
    (hnone : ms.translate vpn = none) : m[vpn]? = none := by
  rw [← Option.not_isSome_iff_eq_none]
  intro hsome
  have hmapped := h vpn hsome
  rw [show ms.page_table.find_pte vpn = none from hnone] at hmapped
  cases hmapped

variable (h : Laid ms) (hnone : ms.translate (floor va) = none)
  (hframes : 3 ≤ ph.allocator.available)

include h hnone hframes

theorem stack_served (hstack : ms.OnStack va) : ms.Served ph va := by
  obtain ⟨⟨area, pt, ph₁⟩, harea⟩ := VmArea.lazy_map_vpn_available h.stack_framed
    (untracked h.stack_frames hnone) hnone hframes
  have hlazy := check_lazy_unmapped ph h hnone
  rw [if_pos hstack, lazy_alloc_stack, harea] at hlazy
  exact served_of_ok hlazy

theorem heap_served (hstack : ¬ ms.OnStack va)
    (hheap : virt_addr ms.brk_start ≤ va ∧ va ≤ ms.heap_end) : ms.Served ph va := by
  obtain ⟨⟨area, pt, ph₁⟩, harea⟩ := VmArea.lazy_map_vpn_available h.heap_framed
    (untracked h.heap_frames hnone) hnone hframes
  have hlazy := check_lazy_unmapped ph h hnone
  rw [if_neg hstack, if_pos hheap, lazy_alloc_heap, harea] at hlazy
  exact served_of_ok hlazy

theorem lazy_mmap_iff : (∃ s, ms.lazy_mmap ph (floor va) = .ok s) ↔ ms.Fetchable ph va := by
  constructor
  · rintro ⟨s, hs⟩
    obtain ⟨⟨frame, m₁, ph₁⟩, hnew, hs⟩ := bind_eq_ok.mp hs
    dsimp only at hs
    split at hs
    · cases hs
    · rename_i page hpage
      obtain ⟨⟨pt, ph₂⟩, hmap, hs⟩ := bind_eq_ok.mp hs
      obtain ⟨r, hr, _⟩ := bind_eq_ok.mp hs
      have hself := PageTable.Entered.self (PageTable.map_ok hmap).2
      rw [← h.manager.keyed _ page hpage] at hself
      exact ⟨page, hpage, (MmapPage.lazy_map_page_iff _ hself).mp ⟨r, hr⟩,
        FrameMap.replaceable_of_insert_new hnew⟩
  · rintro ⟨page, hpage, hfill, hold⟩
    obtain ⟨⟨frame, m₁, ph₁⟩, hnew, h₁⟩ := FrameMap.insert_new_available hold hframes
    obtain ⟨⟨pt, ph₂⟩, hmap⟩ := PageTable.map_available frame.ppn
      (PTEFlags.from_map_ports page.prot ||| PTEFlags.U) hnone h₁
    have hself := PageTable.Entered.self (PageTable.map_ok hmap).2
    rw [← h.manager.keyed _ page hpage] at hself
    obtain ⟨⟨page', ph₃⟩, hpage'⟩ := (MmapPage.lazy_map_page_iff ph₂ hself).mpr hfill
    unfold lazy_mmap
    dsimp only
    rw [hnew, ok_bind]
    dsimp only
    rw [Option.mem_def.mp hpage]
    dsimp only
    rw [hmap, ok_bind]
    dsimp only
    rw [hpage']
    exact ⟨_, rfl⟩

/-- In the interval of the mmap manager. -/
theorem mmap_served_iff (hstack : ¬ ms.OnStack va)
    (hheap : ¬ (virt_addr ms.brk_start ≤ va ∧ va ≤ ms.heap_end)) (hin : ms.InMmap va) :
    (ms.Served ph va ↔ ms.Fetchable ph va) ∧ ¬ ms.Refused ph va := by
  have hlazy := check_lazy_unmapped ph h hnone
  rw [if_neg hstack, if_neg hheap, if_pos hin] at hlazy
  refine ⟨?_, ?_⟩
  · rw [← lazy_mmap_iff h hnone hframes]
    constructor
    · rintro ⟨ms', ph', hserved, _⟩
      rw [hlazy] at hserved
      obtain ⟨s, hs, _⟩ := map_eq_ok.mp hserved
      exact ⟨s, hs⟩
    · rintro ⟨⟨ms', ph'⟩, hs⟩
      rw [hs] at hlazy
      exact served_of_ok hlazy
  · rintro ⟨c, hc, hrefused⟩
    rw [hlazy] at hrefused
    obtain ⟨s, _, hzero⟩ := map_eq_ok.mp hrefused
    exact hc (congrArg Prod.fst hzero).symm

theorem faultAnswered_iff : ms.FaultAnswered ph va ↔ ms.FaultPermitted ph va := by
  unfold FaultPermitted FaultAnswered Live
  rcases em (ms.OnStack va) with hstack | hstack
  · simp only [hstack, true_or, if_true, true_implies, not_true, false_implies, and_true]
    exact iff_of_true (stack_served h hnone hframes hstack) trivial
  rcases em (ms.OnHeap va) with hheap | hheap
  · simp only [hheap, true_or, or_true, if_true, true_implies, not_true, false_implies, and_true]
    exact iff_of_true (heap_served h hnone hframes hstack ⟨hheap.1, hheap.2.le⟩) trivial
  simp only [hstack, hheap, false_or, if_false]
  split
  · rename_i hend
    -- the last comparison takes the end of the heap for a part of it
    have hserved := heap_served h hnone hframes hstack
      ⟨(heap_ordered h).trans (le_of_eq hend.symm), hend.le⟩
    refine ⟨fun hanswered => ?_, fun hrecorded => ⟨fun _ => hserved, absurd hrecorded⟩⟩
    by_contra hhole
    obtain ⟨c, hc, hrefused⟩ := hanswered.2 hhole
    obtain ⟨ms', ph', hok, _⟩ := hserved
    cases hok.symm.trans hrefused
    exact hc rfl
  · rename_i hend
    have hout : ¬ (virt_addr ms.brk_start ≤ va ∧ va ≤ ms.heap_end) := by
      rintro ⟨hstart, hle⟩
      exact hheap ⟨hstart, lt_of_le_of_ne hle hend⟩
    split
    · rename_i hin
      obtain ⟨hiff, hnot⟩ := mmap_served_iff h hnone hframes hstack hout hin
      constructor
      · rintro ⟨hlive, hhole⟩
        exact hiff.mp (hlive (by_contra fun hnone => hnot (hhole hnone)))
      · intro hfetch
        refine ⟨fun _ => hiff.mpr hfetch, fun hhole => absurd ?_ hhole⟩
        obtain ⟨page, hpage, _⟩ := hfetch
        exact Option.isSome_iff_exists.mpr ⟨page, hpage⟩
    · rename_i hin
      have hlazy := check_lazy_unmapped ph h hnone
      rw [if_neg hstack, if_neg hout, if_neg hin] at hlazy
      constructor
      · rintro ⟨hlive, _⟩ hrecorded
        obtain ⟨ms', ph', hok, _⟩ := hlive hrecorded
        cases hlazy.symm.trans hok
      · intro hhole
        exact ⟨fun hrecorded => absurd hrecorded hhole, fun _ => ⟨-2, by decide, hlazy⟩⟩

end Regions

end MemorySet

namespace Machine

variable {text : KernelImage} {r : Nat} {ops : List MachineOp}

/-- In every state of a run, a fault on an unmapped page gets the right answer if and only if it
is permitted. -/
theorem fault_answered : ∀ m ∈ states step (boot text r) ops, m.Every fun ms =>
    ∀ va, ms.translate (floor va) = none → 3 ≤ m.ph.allocator.available →
      (ms.FaultAnswered m.ph va ↔ ms.FaultPermitted m.ph va) :=
  fun m hm pid ms hms _ hnone hframes =>
    MemorySet.faultAnswered_iff (laid ops m hm pid ms hms) hnone hframes

theorem fault_answered_on_stack : ∃ m ms, run step (boot image 64) [.spawn one_page] = .ok m ∧
    m.space 0 = .ok ms ∧ ms.FaultAnswered m.ph (USER_STACK_BASE - 8) := by
  obtain ⟨m, hm, hspace⟩ : ∃ m, run step (boot image 64) [.spawn one_page] = .ok m ∧
      Meets (m.space 0) (fun _ => False) fun ms =>
        ms.translate (floor (USER_STACK_BASE - 8)) = none ∧ 3 ≤ m.ph.allocator.available ∧
          ms.OnStack (USER_STACK_BASE - 8) := Meets.exists_ok (by decide +kernel)
  obtain ⟨ms, hms, hnone, hframes, hstack⟩ := hspace.exists_ok
  refine ⟨m, ms, hm, hms, ?_⟩
  have hiff := fault_answered m (mem_states_of_run hm) 0 ms (space_ok hms) _ hnone hframes
  refine hiff.mpr ?_
  rw [MemorySet.FaultPermitted, if_pos (Or.inl hstack)]
  trivial

/-- A touch of the hole that `munmap` left stops the kernel. -/
theorem fault_panics : ∃ m ms, run step (boot image 64) [.spawn one_page,
      .sys_mmap 0 0 8192 3 0x22 none 0, .sys_munmap 0 MMAP_BASE 4096] = .ok m ∧
    m.space 0 = .ok ms ∧ ms.translate (floor MMAP_BASE) = none ∧
    3 ≤ m.ph.allocator.available ∧ ¬ ms.FaultAnswered m.ph MMAP_BASE := by
  obtain ⟨m, hm, hspace⟩ : ∃ m, run step (boot image 64) [.spawn one_page,
      .sys_mmap 0 0 8192 3 0x22 none 0, .sys_munmap 0 MMAP_BASE 4096] = .ok m ∧
      Meets (m.space 0) (fun _ => False) fun ms =>
        ms.translate (floor MMAP_BASE) = none ∧ 3 ≤ m.ph.allocator.available ∧
          ¬ ms.Live MMAP_BASE ∧ Meets (ms.check_lazy m.ph MMAP_BASE)
            (· = .notMmapped (floor MMAP_BASE)) fun _ => False :=
    Meets.exists_ok (by decide +kernel)
  obtain ⟨ms, hms, hnone, hframes, hhole, hpanic⟩ := hspace.exists_ok
  refine ⟨m, ms, hm, hms, hnone, hframes, fun hanswered => ?_⟩
  obtain ⟨c, _, hrefused⟩ := hanswered.2 hhole
  exact hpanic.of_ok hrefused

end Machine

end MyGOS.Mm
