import MyGOS.Mm.FaultRegions
import MyGOS.Mm.MmapPlacement

/-!
# The first touch of a mapped page

The fault handler serves a page of a mapping when the page lies in the interval
of the mmap manager and in no other region, and when nothing was ever mapped
there. `sys_mmap` looks at none of this. Where a mapping is made right, each of
its pages stays ready until it is touched or unmapped.
-/

namespace MyGOS.Mm

open Outcome StepSystem

/-- The trackers of the mmap manager stand under pages below the mark. -/
def MmapManager.Below (m : MmapManager) : Prop :=
  ∀ v : Nat, (m.frame_map[v]?).isSome → v < floor m.mmap_top

/-- The page belongs to a mapping and was touched. -/
def MmapManager.Valid (m : MmapManager) (v : Nat) : Prop :=
  ∃ page ∈ m.mmap_map[v]?, page.valid = true

section Tracks

variable {ms ms' : MemorySet} {ph ph' : Phys} {va vpn : Nat} {frame : FrameTracker} {c : Int}

/-- A service for the page `vpn` puts at most one tracker into the mmap manager, under `vpn`, and
that only below the mark; touched pages stay touched. -/
structure Tracks (vpn : Nat) (ms ms' : MemorySet) : Prop where
  frames : ms'.mmap_manager.frame_map = ms.mmap_manager.frame_map ∨
    vpn < floor ms.mmap_manager.mmap_top ∧ ∃ frame, ms'.mmap_manager.frame_map =
      Std.TreeMap.insert ms.mmap_manager.frame_map vpn frame
  valid : ∀ v, ms.mmap_manager.Valid v → ms'.mmap_manager.Valid v

theorem Tracks.of_eq (h : ms'.mmap_manager = ms.mmap_manager) : Tracks vpn ms ms' :=
  ⟨Or.inl (by rw [h]), fun v hv => by rwa [h]⟩

theorem in_mmap_lt {m : MmapManager} (h : MemorySet.in_mmap m vpn = .ok true) :
    vpn < floor m.mmap_top := by
  obtain ⟨start, _, h⟩ := bind_eq_ok.mp h
  split at h
  · obtain ⟨top, htop, h⟩ := bind_eq_ok.mp h
    unfold MemorySet.vpn_of at htop
    split at htop
    · cases htop
      exact of_decide_eq_true (Except.ok.inj h)
    · cases htop
  · cases h

theorem insert_cow_tracks (h : ms.insert_cow ph vpn frame = .ok (ms', ph')) : Tracks vpn ms ms' := by
  unfold MemorySet.insert_cow at h
  obtain ⟨r, _, h⟩ := bind_eq_ok.mp h
  cases r with
  | some s =>
    cases h
    exact Tracks.of_eq rfl
  | none =>
    obtain ⟨inside, hinside, h⟩ := bind_eq_ok.mp h
    cases inside with
    | true =>
      obtain ⟨⟨m, ph₁⟩, hinsert, h⟩ := bind_eq_ok.mp h
      cases h
      exact ⟨Or.inr ⟨in_mmap_lt hinside, frame, FrameMap.insert_frame_ok hinsert⟩, fun _ hv => hv⟩
    | false =>
      rw [if_neg Bool.false_ne_true] at h
      split at h
      · obtain ⟨s, _, h⟩ := bind_eq_ok.mp h
        cases h
        exact Tracks.of_eq rfl
      · split at h
        · obtain ⟨s, _, h⟩ := bind_eq_ok.mp h
          cases h
          exact Tracks.of_eq rfl
        · cases h

theorem cow_alloc_tracks {ppn : Nat} (h : ms.cow_alloc ph vpn ppn = .ok (ms', ph')) :
    Tracks vpn ms ms' := by
  unfold MemorySet.cow_alloc at h
  obtain ⟨n, _, h⟩ := bind_eq_ok.mp h
  split at h
  · obtain ⟨⟨pt, ph₁⟩, _, h⟩ := bind_eq_ok.mp h
    dsimp only at h
    split at h
    · cases h
    · obtain ⟨⟨pt', ph₂⟩, _, h⟩ := bind_eq_ok.mp h
      cases h
      exact Tracks.of_eq rfl
  · obtain ⟨⟨frame, ph₁⟩, _, h⟩ := bind_eq_ok.mp h
    obtain ⟨⟨pt, ph₂⟩, _, h⟩ := bind_eq_ok.mp h
    have htracks := insert_cow_tracks h
    exact ⟨htracks.frames, htracks.valid⟩

theorem lazy_mmap_tracks (hlt : vpn < floor ms.mmap_manager.mmap_top)
    (h : ms.lazy_mmap ph vpn = .ok (ms', ph')) : Tracks vpn ms ms' := by
  obtain ⟨⟨frame, m, ph₁⟩, hnew, h⟩ := bind_eq_ok.mp h
  dsimp only at h
  split at h
  · cases h
  · obtain ⟨⟨pt, ph₂⟩, _, h⟩ := bind_eq_ok.mp h
    obtain ⟨⟨page, ph₃⟩, hpage, h⟩ := bind_eq_ok.mp h
    cases h
    refine ⟨Or.inr ⟨hlt, frame, FrameMap.insert_new_ok hnew⟩, fun v hv => ?_⟩
    unfold MmapManager.Valid at hv ⊢
    dsimp only
    rw [Std.TreeMap.getElem?_insert]
    split
    · refine ⟨page, rfl, ?_⟩
      rw [MmapPage.lazy_map_page_ok hpage]
    · exact hv

theorem check_lazy_tracks (hm : ms.mmap_manager.Sound)
    (h : ms.check_lazy ph va = .ok (c, ms', ph')) : Tracks (floor va) ms ms' := by
  unfold MemorySet.check_lazy at h
  dsimp only at h
  split at h
  · split at h
    · obtain ⟨⟨ms₁, ph₁⟩, hcow, h⟩ := map_eq_ok.mp h
      cases h
      exact cow_alloc_tracks hcow
    · cases h
      exact Tracks.of_eq rfl
  · split at h
    · obtain ⟨⟨ms₁, ph₁⟩, hstack, h⟩ := map_eq_ok.mp h
      cases h
      obtain ⟨s, _, hstack⟩ := bind_eq_ok.mp hstack
      cases hstack
      exact Tracks.of_eq rfl
    · split at h
      · obtain ⟨⟨ms₁, ph₁⟩, hheap, h⟩ := map_eq_ok.mp h
        cases h
        obtain ⟨s, _, hheap⟩ := bind_eq_ok.mp hheap
        cases hheap
        exact Tracks.of_eq rfl
      · split at h
        · rename_i hin
          obtain ⟨⟨ms₁, ph₁⟩, hmmap, h⟩ := map_eq_ok.mp h
          cases h
          refine lazy_mmap_tracks ?_ hmmap
          have htop := hm.top_aligned
          have hlt := hin.2
          simp only [page_offset, floor, PAGE_SIZE] at *
          omega
        · cases h
          exact Tracks.of_eq rfl

theorem Tracks.others (h : Tracks vpn ms ms') {v : Nat} (hv : v ≠ vpn) :
    ms'.mmap_manager.frame_map[v]? = ms.mmap_manager.frame_map[v]? := by
  rcases h.frames with hsame | ⟨_, frame, hinsert⟩
  · rw [hsame]
  · rw [hinsert, Std.TreeMap.getElem?_insert, if_neg]
    intro heq
    exact hv (Std.LawfulEqCmp.eq_of_compare heq).symm

theorem Tracks.below (h : Tracks vpn ms ms') (hk : SameRecords ms.mmap_manager ms'.mmap_manager)
    (hbelow : ms.mmap_manager.Below) : ms'.mmap_manager.Below := by
  intro v hv
  rw [hk.top]
  rcases eq_or_ne v vpn with rfl | hne
  · rcases h.frames with hsame | ⟨hlt, _⟩
    · rw [hsame] at hv
      exact hbelow v hv
    · exact hlt
  · rw [h.others hne] at hv
    exact hbelow v hv

theorem mprotect_pages_unmapped {flags : PTEFlags} {prot : Nat} (vpns : List Nat) :
    ∀ {ms ms' : MemorySet} {r : Result},
      MemorySet.mprotect_pages flags prot vpns ms = .ok (r, ms') →
        (∀ v, ms.translate v = none → ms'.translate v = none) ∧
          ms'.mmap_manager.frame_map = ms.mmap_manager.frame_map := by
  induction vpns with
  | nil =>
    intro ms ms' r h
    cases h
    exact ⟨fun _ hv => hv, rfl⟩
  | cons vpn vpns ih =>
    intro ms ms' r h
    unfold MemorySet.mprotect_pages at h
    split at h
    · rename_i pte hpte
      obtain ⟨hnone, hframes⟩ := ih h
      refine ⟨fun v hv => hnone v ?_, hframes⟩
      have hne : index v ≠ index vpn := by
        intro heq
        cases (PageTable.find_pte_congr _ heq).symm.trans hv |>.symm.trans hpte
      rw [← hv]
      simp only [MemorySet.translate, PageTable.translate, PageTable.find_pte, PageTable.set_entry,
        Function.update_of_ne hne]
    · dsimp only at h
      split at h
      · cases h
      · split at h
        · split at h
          · cases h
          · obtain ⟨hnone, hframes⟩ := ih h
            exact ⟨hnone, hframes⟩
        · cases h
          exact ⟨fun _ hv => hv, rfl⟩

end Tracks

instance (page : MmapPage) : Decidable page.Fillable :=
  inferInstanceAs (Decidable (_ ∨ _))

/-- The page belongs to a mapping, nothing is mapped there yet, and the fault handler will take
a fault there for one of the mmap manager. -/
structure Ready (ms : MemorySet) (v : Nat) : Prop where
  page : ∃ page ∈ ms.mmap_manager.mmap_map[v]?, page.Fillable
  unmapped : ms.translate v = none
  untracked : ms.mmap_manager.frame_map[v]? = none
  inside : floor MMAP_BASE ≤ v ∧ v < floor ms.mmap_manager.mmap_top
  off_stack : (v + 1) * PAGE_SIZE ≤ virt_addr ms.user_stack_start ∨
    virt_addr ms.user_stack_end ≤ v * PAGE_SIZE
  off_heap : (v + 1) * PAGE_SIZE ≤ virt_addr ms.brk_start ∨ ms.heap_end < v * PAGE_SIZE

namespace MemorySet

/-- A fault at the address goes to the mmap manager. -/
def ServedAsMmap (ms : MemorySet) (va : Nat) : Prop :=
  ms.InMmap va ∧ ¬ ms.OnStack va ∧ ¬ (virt_addr ms.brk_start ≤ va ∧ va ≤ ms.heap_end)

end MemorySet

section Ready

variable {ms ms' parent child : MemorySet} {ph ph' : Phys} {va v : Nat} {c : Int}

theorem Ready.servedAsMmap (h : Ready ms (floor va)) (hm : ms.mmap_manager.Sound) :
    ms.ServedAsMmap va := by
  have hinside := h.inside
  have hstack := h.off_stack
  have hheap := h.off_heap
  have htop := hm.top_aligned
  unfold MemorySet.ServedAsMmap MemorySet.InMmap MemorySet.OnStack
  rw [hm.start]
  simp only [floor, page_offset, PAGE_SIZE, MMAP_BASE] at *
  omega

theorem Ready.served (h : Ready ms (floor va)) (hl : Laid ms)
    (hframes : 3 ≤ ph.allocator.available) : ms.Served ph va := by
  obtain ⟨hin, hstack, hheap⟩ := h.servedAsMmap hl.manager
  obtain ⟨page, hpage, hfill⟩ := h.page
  have hpermitted : ms.FaultPermitted ph va := by
    have hout : ¬ (ms.OnStack va ∨ ms.OnHeap va) :=
      not_or.mpr ⟨hstack, fun hon => hheap ⟨hon.1, hon.2.le⟩⟩
    have hend : va ≠ ms.heap_end :=
      fun heq => hheap ⟨(MemorySet.heap_ordered hl).trans (le_of_eq heq.symm), le_of_eq heq⟩
    rw [MemorySet.FaultPermitted, if_neg hout, if_neg hend, if_pos hin]
    refine ⟨page, hpage, hfill, fun old hold => ?_⟩
    cases h.untracked.symm.trans hold
  have hlive : ms.Live va := Or.inr (Or.inr (Option.isSome_iff_exists.mpr ⟨page, hpage⟩))
  exact ((MemorySet.faultAnswered_iff hl h.unmapped hframes).mpr hpermitted).1 hlive

/-- What a service leaves ready. -/
theorem Ready.keeps (h : Ready ms v) (hk : Keeps ms ms') (hnone : ms'.translate v = none)
    (hframe : ms'.mmap_manager.frame_map[v]? = ms.mmap_manager.frame_map[v]?) : Ready ms' v := by
  constructor
  · obtain ⟨page, hpage, hfill⟩ := h.page
    have hsource := hk.records.source v
    rw [Option.mem_def.mp hpage, Option.map_some] at hsource
    obtain ⟨page', hpage', hsame⟩ := Option.map_eq_some_iff.mp hsource
    have hfill : page.source.Fillable := hfill
    rw [← hsame] at hfill
    exact ⟨page', hpage', hfill⟩
  · exact hnone
  · exact hframe.trans h.untracked
  · rw [hk.records.top]
    exact h.inside
  · rw [hk.stack_start, hk.stack_end]
    exact h.off_stack
  · unfold MemorySet.heap_end
    rw [hk.brk_start]
    exact h.off_heap

theorem Ready.check_lazy (h : Ready ms v) (hm : ms.mmap_manager.Sound)
    (hlazy : ms.check_lazy ph va = .ok (c, ms', ph')) (hva : index v ≠ index (floor va)) :
    Ready ms' v := by
  obtain ⟨hk, ⟨_, rfl, _⟩ | ⟨_, pte, hpt, _⟩⟩ := check_lazy_ok hlazy
  · exact h
  · refine h.keeps hk ?_ ((check_lazy_tracks hm hlazy).others fun heq => hva (heq ▸ rfl))
    have hv := hpt v
    rw [if_neg hva] at hv
    exact hv.trans h.unmapped

theorem Ready.forked (h : Ready ms v) (hf : ForkedInto ms parent child) : Ready parent v := by
  refine h.keeps hf.parent_keeps ?_ (by rw [hf.parent_same])
  rcases hf.parent_pte v with hsame | ⟨pte, hpte, _⟩
  · exact hsame.trans h.unmapped
  · cases h.unmapped.symm.trans hpte

theorem Ready.inherited (h : Ready ms v) (hl : Laid ms) (hf : ForkedInto ms parent child) :
    Ready child v := by
  constructor
  · rw [hf.records.map]
    exact h.page
  · exact hf.child_unmapped hl h.unmapped
  · rw [← Option.not_isSome_iff_eq_none]
    intro hsome
    have hold := hf.mmap_frames v hsome
    rw [h.untracked] at hold
    cases hold
  · rw [hf.records.top]
    exact h.inside
  · rw [hf.stack_start, hf.stack_end]
    exact h.off_stack
  · unfold MemorySet.heap_end
    rw [hf.brk_start]
    exact h.off_heap

end Ready

/-- The mapping is made in the interval of the mmap manager, or right behind it, away from the
stack and the heap; none of its pages has a valid entry, and its file takes the reads. -/
def WellPlaced (ms : MemorySet) (addr length : Nat) (p : MmapProts) (f : MmapFlags)
    (fd : Option File) (offset : Nat) : Prop :=
  let start := ms.mmap_place addr f
  let stop := start + padded length
  let file := if f.anonymous then none else fd
  length + PAGE_SIZE ≤ 2 ^ 64 ∧ MMAP_BASE ≤ start ∧
    (ms.mmap_manager.mmap_top ≤ start ∨ stop ≤ ms.mmap_manager.mmap_top) ∧
    (stop ≤ virt_addr ms.user_stack_start ∨ virt_addr ms.user_stack_end ≤ start) ∧
    (stop ≤ virt_addr ms.brk_start ∨ ms.heap_end < start) ∧
    ∀ v ∈ List.range' (floor start) (padded length / PAGE_SIZE),
      ms.translate v = none ∧ (MmapManager.new_page start p f offset file v).Fillable

instance (ms : MemorySet) (addr length : Nat) (p : MmapProts) (f : MmapFlags) (fd : Option File)
    (offset : Nat) : Decidable (WellPlaced ms addr length p f fd offset) :=
  inferInstanceAs (Decidable (_ ∧ _ ∧ _ ∧ _ ∧ _ ∧ _))

/-- The calls of `sys_mmap` that are refused, or make a mapping that is well placed. -/
def UsePermits (ms : MemorySet) (addr length prot flags : Nat) (fd : Option File)
    (offset : Nat) : Prop :=
  length ≠ 0 → page_offset addr = 0 → ∀ p ∈ MmapProts.from_bits prot,
    ∀ f ∈ MmapFlags.from_bits flags, f.anonymous = true ∨ fd.isSome = true →
      WellPlaced ms addr length p f fd offset

instance (ms : MemorySet) (addr length prot flags : Nat) (fd : Option File) (offset : Nat) :
    Decidable (UsePermits ms addr length prot flags fd offset) := by
  unfold UsePermits
  infer_instance

section Mmap

open Machine

variable {ms ms' : MemorySet} {ph ph' : Phys} {v addr length prot flags offset : Nat}
  {fd : Option File} {a : Int}

/-- What the mmap manager records of a new mapping. -/
theorem Mmapped.recorded (h : Mmapped ms ph addr length prot flags fd offset a ms' ph')
    {p : MmapProts} {f : MmapFlags} (hp : MmapProts.from_bits prot = some p)
    (hf : MmapFlags.from_bits flags = some f) :
    ms' = ms.with_mmap ms'.mmap_manager ∧
      ∃ range, MmapManager.pages (ms.mmap_place addr f) (padded length) = .ok range ∧
        (∀ v : Nat, ms'.mmap_manager.mmap_map[v]? = if v ∈ range then
          some (MmapManager.new_page (ms.mmap_place addr f) p f offset
            (if f.anonymous then none else fd) v) else ms.mmap_manager.mmap_map[v]?) ∧
        ∀ v : Nat, ms'.mmap_manager.frame_map[v]? =
          if v ∈ range ∧ f.fixed = true then none else ms.mmap_manager.frame_map[v]? := by
  obtain ⟨_, _, f', p', m₁, m₂, hf', hp', _, _, hfixed, hpush, rfl⟩ := h
  cases hf.symm.trans hf'
  cases hp.symm.trans hp'
  obtain ⟨_, range, hrange, hsame, hget⟩ := MmapManager.push_ok hpush
  have hframes : m₂.frame_map = m₁.frame_map := by rw [hsame]
  refine ⟨rfl, range, hrange, fun v => ?_, fun v => ?_⟩
  · refine (hget v).trans (if_ctx_congr Iff.rfl (fun _ => rfl) fun hout => ?_)
    rcases hfixed with ⟨hfix, hremove⟩ | ⟨_, rfl, _⟩
    · obtain ⟨range', hrange', _, _, hget', _⟩ := MmapManager.remove_ok hremove
      rw [MemorySet.mmap_place, if_pos hfix] at hrange
      cases hrange.symm.trans hrange'
      rw [hget' v, if_neg hout]
    · rfl
  · show m₂.frame_map[v]? = _
    rw [hframes]
    rcases hfixed with ⟨hfix, hremove⟩ | ⟨hfix, rfl, _⟩
    · obtain ⟨range', hrange', _, _, _, hframes'⟩ := MmapManager.remove_ok hremove
      rw [MemorySet.mmap_place, if_pos hfix] at hrange
      cases hrange.symm.trans hrange'
      rw [hframes' v]
      simp only [hfix, and_true]
    · simp [hfix]

/-- What becomes of a page in a mapping that is well placed: it is new, or left alone. -/
theorem Mmapped.ready (h : Mmapped ms ph addr length prot flags fd offset a ms' ph')
    (hm : ms.mmap_manager.Sound) (hbelow : ms.mmap_manager.Below)
    (hpermits : UsePermits ms addr length prot flags fd offset)
    (hv : Ready ms v ∨ Touches a.toNat length v) : Ready ms' v := by
  have hsound := h.sound hm
  have haligned := h.aligned
  obtain ⟨f, p, _, _, hf, hp, hfile, _⟩ := h.placed
  obtain ⟨f', hf', ha, hend, htop⟩ := mark_of_mmapped h hm
  cases hf.symm.trans hf'
  obtain ⟨hsame, range, hrange, hget, hframes⟩ := h.recorded hp hf
  obtain ⟨hlong, hbase, hbeside, hstack, hheap, hpages⟩ :=
    hpermits h.nonzero haligned p hp f hf hfile
  obtain ⟨hle, _⟩ := padded_of_le hlong
  have hplace := page_offset_mmap_place hm haligned f
  have hpadded := page_offset_padded length
  have hmem : v ∈ range ↔ floor (ms.mmap_place addr f) ≤ v ∧
      (v + 1) * PAGE_SIZE ≤ ms.mmap_place addr f + padded length := by
    rw [VPNRange.mem_def, (MmapManager.pages_start hrange).1, (MmapManager.pages_start hrange).2,
      Nat.mod_eq_of_lt hend]
    simp only [floor, ceil, page_offset, PAGE_SIZE] at *
    omega
  have hraised : ms.mmap_manager.mmap_top ≤ ms'.mmap_manager.mmap_top ∧
      ms.mmap_place addr f + padded length ≤ ms'.mmap_manager.mmap_top := by
    have hvirt := le_virt_addr hend
    rw [htop]
    split <;> omega
  rcases em (v ∈ range) with hin | hout
  · have hv := hmem.mp hin
    have hstart : ms.mmap_place addr f ≤ v * PAGE_SIZE := by
      have hfloor := hv.1
      simp only [floor, page_offset, PAGE_SIZE] at *
      omega
    obtain ⟨hnone, hfill⟩ := hpages v (by
      rw [List.mem_range'_1]
      simp only [floor, page_offset, PAGE_SIZE] at *
      omega)
    constructor
    · exact ⟨_, (hget v).trans (if_pos hin), hfill⟩
    · rw [hsame]
      exact hnone
    · rw [hframes v]
      split
      · rfl
      · rename_i hfix
        have hfix : f.fixed = false := by simpa [hin] using hfix
        -- without MAP_FIXED a mapping in the interval starts at the mark
        have htop : ms.mmap_place addr f = ms.mmap_manager.mmap_top := by
          unfold MemorySet.mmap_place at hbase ⊢
          rw [hfix, if_neg Bool.false_ne_true] at hbase ⊢
          split at hbase
          · exact if_pos ‹_›
          · cases hbase
        rw [htop] at hv
        rw [← Option.not_isSome_iff_eq_none]
        exact fun hsome => absurd (hbelow v hsome) (not_lt.mpr hv.1)
    · refine ⟨(Nat.div_le_div_right hbase).trans hv.1, ?_⟩
      exact (Nat.le_div_iff_mul_le (by decide)).mpr (hv.2.trans hraised.2)
    · rw [hsame]
      exact hstack.imp hv.2.trans fun hle => hle.trans hstart
    · rw [hsame]
      exact hheap.imp hv.2.trans fun hlt => hlt.trans_le hstart
  · have hold : Ready ms v := by
      refine hv.resolve_right fun htouch => hout (hmem.mpr ?_)
      unfold Touches at htouch
      rw [ha, Int.toNat_natCast] at htouch
      simp only [floor, page_offset, PAGE_SIZE] at *
      omega
    constructor
    · rw [hget v, if_neg hout]
      exact hold.page
    · rw [hsame]
      exact hold.unmapped
    · rw [hframes v, if_neg fun h => hout h.1]
      exact hold.untracked
    · exact hold.inside.imp_right fun hlt => hlt.trans_le (Nat.div_le_div_right hraised.1)
    · rw [hsame]
      exact hold.off_stack
    · rw [hsame]
      exact hold.off_heap

end Mmap

/-- The pages of each program that are mapped and have not been touched since. -/
abbrev Untouched := Nat → Set Nat

namespace Machine

/-- What a step does to the untouched pages. A fork and `exec_busybox` copy those of a program,
an `exec` and a new program have none; a page with the same index is the same page. -/
def note (m : Machine) (fresh : Untouched) : MachineOp → Untouched
  | .spawn _ => Function.update fresh m.spaces.length ∅
  | .exec pid _ => Function.update fresh pid ∅
  | .exec_busybox pid busybox => Function.update fresh pid (fresh busybox)
  | .fork pid => Function.update fresh m.spaces.length (fresh pid)
  | .check_lazy pid va =>
    Function.update fresh pid {v ∈ fresh pid | index v ≠ index (floor va)}
  | .write_user pid ptr len _ => Function.update fresh pid {v ∈ fresh pid |
      ∀ va, Visits (virt_addr ptr) (virt_addr ((virt_addr ptr + len) % 2 ^ 64)) va →
        index v ≠ index (floor va)}
  | .sys_mmap pid addr length prot flags fd offset =>
    match m.space pid with
    | .error _ => fresh
    | .ok ms =>
      match ms.sys_mmap m.ph addr length prot flags fd offset with
      | .ok (.ok a, _) =>
        Function.update fresh pid (fresh pid ∪ {v | Touches a.toNat length v})
      | _ => fresh
  | .sys_munmap pid addr length => Function.update fresh pid {v ∈ fresh pid |
      ∀ range, MmapManager.pages addr length = .ok range → v ∉ range}
  | _ => fresh

def note_step (s : Machine × Untouched) (op : MachineOp) : Except Panic (Machine × Untouched) := do
  let m ← s.1.step op
  return (m, s.1.note s.2 op)

/-- A fault on an untouched page goes to the mmap manager, and is served. -/
def MmapUsable (s : Machine × Untouched) : Prop :=
  ∀ (pid : Nat) (ms : MemorySet), s.1.spaces[pid]? = some (some ms) →
    ∀ va, floor va ∈ s.2 pid → ms.ServedAsMmap va ∧
      (3 ≤ s.1.ph.allocator.available → ms.Served s.1.ph va)

def UsePermitted (s : Machine × Untouched) : MachineOp → Prop
  | .sys_mmap pid addr length prot flags fd offset =>
    s.1.AtSpace pid fun ms => UsePermits ms addr length prot flags fd offset
  | _ => True

instance (s : Machine × Untouched) (op : MachineOp) : Decidable (UsePermitted s op) :=
  match op with
  | .sys_mmap pid addr length prot flags fd offset => inferInstanceAs (Decidable
    (s.1.AtSpace pid fun ms => UsePermits ms addr length prot flags fd offset))
  | .spawn _ | .exec _ _ | .exec_busybox _ _ | .fork _ | .exit _ | .check_lazy _ _
  | .sys_munmap _ _ _ | .sys_brk _ _ | .sys_mprotect _ _ _ _ | .user_store _ _ _
  | .write_user _ _ _ _ | .hold | .release _ => inferInstanceAs (Decidable True)

/-- The address space is laid out as every one is, and the mmap manager's trackers with it. -/
structure Settled (ms : MemorySet) : Prop where
  laid : Laid ms
  below : ms.mmap_manager.Below

section Settled

variable {ms ms' : MemorySet} {ph ph' : Phys} {va addr length prot flags offset : Nat}
  {fd : Option File} {a c : Int}

theorem Settled.check_lazy (h : Settled ms) (hlazy : ms.check_lazy ph va = .ok (c, ms', ph')) :
    Settled ms' :=
  have hk := (check_lazy_ok hlazy).1
  ⟨h.laid.keeps hk, (check_lazy_tracks h.laid.manager hlazy).below hk.records h.below⟩

theorem Settled.mmapped (h : Settled ms)
    (hm : Mmapped ms ph addr length prot flags fd offset a ms' ph') : Settled ms' := by
  obtain ⟨f, p, _, _, hf, hp, _⟩ := hm.placed
  obtain ⟨f', hf', _, hend, htop⟩ := mark_of_mmapped hm h.laid.manager
  obtain ⟨hsame, range, _, _, hframes⟩ := hm.recorded hp hf
  constructor
  · rw [hsame]
    exact h.laid.with_mmap (hm.sound h.laid.manager)
  · intro v hv
    have hold : (ms.mmap_manager.frame_map[v]?).isSome := by
      rw [hframes v] at hv
      split at hv
      · cases hv
      · exact hv
    refine (h.below v hold).trans_le (Nat.div_le_div_right ?_)
    have hvirt := le_virt_addr hend
    rw [htop]
    split <;> omega

theorem Settled.unmapped {m : MmapManager} (h : Settled ms)
    (hremove : ms.mmap_manager.remove ph addr length = .ok (m, ph')) :
    Settled (ms.with_mmap m) := by
  obtain ⟨range, _, _, htop, _, hframes⟩ := MmapManager.remove_ok hremove
  refine ⟨h.laid.with_mmap (h.laid.manager.remove hremove), fun v hv => ?_⟩
  have hold : (ms.mmap_manager.frame_map[v]?).isSome := by
    rw [show (ms.with_mmap m).mmap_manager.frame_map[v]? = _ from hframes v] at hv
    split at hv
    · cases hv
    · exact hv
  rw [show (ms.with_mmap m).mmap_manager.mmap_top = _ from htop]
  exact h.below v hold

theorem settled_preserves (C : Machine → MachineOp → Prop) : Preserves C Settled where
  load {text elf ph ms ph'} h := by
    refine ⟨load_elf_laid h, fun v hv => ?_⟩
    rw [(load_elf_fresh h).2] at hv
    simp [MmapManager.new] at hv
  fork {text ms ph parent child ph'} h hfork := by
    have hforked := from_copy_on_write_ok hfork
    refine ⟨⟨h.laid.keeps hforked.parent_keeps, ?_⟩, ⟨hforked.child_laid h.laid, fun v hv => ?_⟩⟩
    · rw [hforked.parent_same]
      exact h.below
    · rw [hforked.records.top]
      exact h.below v (hforked.mmap_frames v hv)
  check_lazy h hlazy := h.check_lazy hlazy
  sys_mmap {m pid ms ms' ph' addr length prot flags fd offset r} _ _ h hmmap := by
    cases r with
    | error e =>
      obtain ⟨rfl, _⟩ := sys_mmap_error hmmap
      exact h
    | ok a => exact h.mmapped (sys_mmap_ok hmmap)
  sys_munmap h hmunmap := by
    obtain ⟨m, hremove, rfl⟩ := sys_munmap_ok hmunmap
    exact h.unmapped hremove
  sys_brk _ _ h hbrk := by
    obtain ⟨b, rfl⟩ := sys_brk_ok hbrk
    exact ⟨{ h.laid with }, h.below⟩
  sys_mprotect {ms ms' addr length prot r} h hprotect := by
    have hk := sys_mprotect_keeps hprotect
    obtain ⟨range, _, hprotect⟩ := bind_eq_ok.mp hprotect
    refine ⟨h.laid.keeps hk, fun v hv => ?_⟩
    rw [(mprotect_pages_unmapped _ hprotect).2] at hv
    rw [hk.records.top]
    exact h.below v hv

end Settled

section Use

variable {m : Machine} {fresh : Untouched} {q : Nat} {op : MachineOp} {ms ms' : MemorySet}
  {ph ph' : Phys} {pages : Set Nat}

theorem note_other (hq : q ∉ m.changed op) : m.note fresh op q = fresh q := by
  cases op
  case sys_mmap pid addr length prot flags fd offset =>
    have hne : q ≠ pid := by simpa [changed] using hq
    cases hspace : m.space pid with
    | error e => simp only [note, hspace]
    | ok ms =>
      simp only [note, hspace]
      rcases ms.sys_mmap m.ph addr length prot flags fd offset with e | ⟨e | a, s⟩
      · rfl
      · rfl
      · exact Function.update_of_ne hne _ _
  case exec_busybox pid busybox =>
    have hne : q ≠ pid := fun heq => hq (by simp [changed, heq])
    exact Function.update_of_ne hne _ _
  case fork pid =>
    have hne : q ≠ m.spaces.length := fun heq => hq (by simp [changed, heq])
    exact Function.update_of_ne hne _ _
  case spawn elf =>
    have hne : q ≠ m.spaces.length := by simpa [changed] using hq
    exact Function.update_of_ne hne _ _
  all_goals first
    | rfl
    | exact Function.update_of_ne (by simpa [changed] using hq) _ _

/-- The untouched pages of an address space are ready to be touched. -/
def Prepared (ms : MemorySet) (pages : Set Nat) : Prop := Settled ms ∧ ∀ v ∈ pages, Ready ms v

theorem Prepared.load {text : KernelImage} {elf : ElfFile}
    (h : MemorySet.load_elf text elf ph = .ok (ms, ph')) : Prepared ms ∅ :=
  ⟨(settled_preserves fun _ _ => True).load h, fun _ hv => hv.elim⟩

theorem Prepared.fork {text : KernelImage} {parent child : MemorySet} (h : Prepared ms pages)
    (hfork : ms.from_copy_on_write text ph = .ok (parent, child, ph')) :
    Prepared parent pages ∧ Prepared child pages := by
  have hforked := from_copy_on_write_ok hfork
  obtain ⟨hparent, hchild⟩ := (settled_preserves fun _ _ => True).fork h.1 hfork
  exact ⟨⟨hparent, fun v hv => (h.2 v hv).forked hforked⟩,
    ⟨hchild, fun v hv => (h.2 v hv).inherited h.1.laid hforked⟩⟩

theorem Prepared.check_lazy {va : Nat} {c : Int} (h : Prepared ms pages)
    (hlazy : ms.check_lazy ph va = .ok (c, ms', ph'))
    (hva : ∀ v ∈ pages, index v ≠ index (floor va)) : Prepared ms' pages :=
  ⟨h.1.check_lazy hlazy, fun v hv => (h.2 v hv).check_lazy h.1.laid.manager hlazy (hva v hv)⟩

theorem Prepared.mono {pages' : Set Nat} (h : Prepared ms pages) (hsub : ∀ v ∈ pages', v ∈ pages) :
    Prepared ms pages' := ⟨h.1, fun v hv => h.2 v (hsub v hv)⟩

theorem prepared_step {s t : Machine × Untouched}
    (h : ∀ (pid : Nat) (ms : MemorySet), s.1.spaces[pid]? = some (some ms) →
      Prepared ms (s.2 pid)) (hp : UsePermitted s op) (hs : note_step s op = .ok t) :
    ∀ (pid : Nat) (ms : MemorySet), t.1.spaces[pid]? = some (some ms) → Prepared ms (t.2 pid) := by
  obtain ⟨m', hm, hs⟩ := bind_eq_ok.mp hs
  cases hs
  intro q ms' hq
  show Prepared ms' (s.1.note s.2 op q)
  cases step_origin hm hq with
  | other hms hchanged =>
    rw [note_other hchanged]
    exact h q ms' hms
  | spawn hload =>
    simp only [note, Function.update_self]
    exact Prepared.load hload
  | exec hload =>
    simp only [note, Function.update_self]
    exact Prepared.load hload
  | busybox hms hfork hne =>
    simp only [note, Function.update_of_ne hne]
    exact ((h _ _ hms).fork hfork).1
  | exec_busybox hms hfork =>
    simp only [note, Function.update_self]
    exact ((h _ _ hms).fork hfork).2
  | parent hms hfork =>
    simp only [note, Function.update_of_ne (lt_of_space hms).ne]
    exact ((h _ _ hms).fork hfork).1
  | child hms hfork =>
    simp only [note, Function.update_self]
    exact ((h _ _ hms).fork hfork).2
  | check_lazy hms hlazy =>
    simp only [note, Function.update_self]
    exact ((h _ _ hms).mono fun v hv => hv.1).check_lazy hlazy fun v hv => hv.2
  | @sys_mmap pid addr length prot flags offset fd ms ms' r ph hms hmmap =>
    simp only [note, space_eq hms, hmmap]
    cases r with
    | error e =>
      obtain ⟨rfl, _⟩ := sys_mmap_error hmmap
      exact h _ _ hms
    | ok a =>
      simp only [Function.update_self]
      have hmapped := sys_mmap_ok hmmap
      obtain ⟨hsettled, hready⟩ := h _ _ hms
      exact ⟨hsettled.mmapped hmapped, fun v hv => hmapped.ready hsettled.laid.manager
        hsettled.below (AtSpace.of_space hp hms) (hv.imp_left (hready v))⟩
  | @sys_munmap pid addr length ms ms' r ph hms hmunmap =>
    simp only [note, Function.update_self]
    obtain ⟨m, hremove, rfl⟩ := sys_munmap_ok hmunmap
    obtain ⟨hsettled, hready⟩ := h _ _ hms
    obtain ⟨range, hrange, _, htop, hget, hframes⟩ := MmapManager.remove_ok hremove
    refine ⟨hsettled.unmapped hremove, fun v hv => ?_⟩
    have hout := hv.2 range hrange
    have hv := hready v hv.1
    constructor
    · rw [show (ms.with_mmap m).mmap_manager.mmap_map[v]? = _ from hget v, if_neg hout]
      exact hv.page
    · exact hv.unmapped
    · rw [show (ms.with_mmap m).mmap_manager.frame_map[v]? = _ from hframes v, if_neg hout]
      exact hv.untracked
    · rw [show (ms.with_mmap m).mmap_manager.mmap_top = _ from htop]
      exact hv.inside
    · exact hv.off_stack
    · exact hv.off_heap
  | sys_brk hms hbrk =>
    have hold := h _ _ hms
    obtain ⟨b, rfl⟩ := sys_brk_ok hbrk
    exact ⟨⟨{ hold.1.laid with }, hold.1.below⟩, fun v hv => { hold.2 v hv with }⟩
  | sys_mprotect hms hprotect =>
    have hold := h _ _ hms
    have hk := sys_mprotect_keeps hprotect
    refine ⟨(settled_preserves fun _ _ => True).sys_mprotect hold.1 hprotect, fun v hv => ?_⟩
    obtain ⟨range, _, hprotect⟩ := bind_eq_ok.mp hprotect
    obtain ⟨hnone, hframes⟩ := mprotect_pages_unmapped _ hprotect
    exact (hold.2 v hv).keeps hk (hnone v (hold.2 v hv).unmapped) (by rw [hframes])
  | @write_user pid ptr len data ms ms' ph hms hwrite =>
    simp only [note, Function.update_self]
    refine write_user_visits (P := fun ms => Prepared ms _) (fun hva h hlazy => ?_)
      ((h _ _ hms).mono fun v hv => hv.1) hwrite
    exact h.check_lazy hlazy fun v hv => hv.2 _ hva

end Use

variable {text : KernelImage} {r : Nat} {ops : List MachineOp}

/-- Nobody has mapped anything yet. -/
def unnoted (text : KernelImage) (r : Nat) : Machine × Untouched := (boot text r, fun _ => ∅)

theorem mmap_usable (hops : Guarded note_step UsePermitted (unnoted text r) ops) :
    ∀ s ∈ states note_step (unnoted text r) ops, MmapUsable s := by
  intro s hs pid ms hms va hva
  have hprepared := invariant (fun s : Machine × Untouched =>
    ∀ (pid : Nat) (ms : MemorySet), s.1.spaces[pid]? = some (some ms) → Prepared ms (s.2 pid))
    (fun _ _ _ h hp hstep => prepared_step h hp hstep) (fun pid ms hms => by
      simp [unnoted, boot] at hms) hops s hs
  obtain ⟨hsettled, hready⟩ := hprepared pid ms hms
  exact ⟨(hready _ hva).servedAsMmap hsettled.laid.manager,
    fun hframes => (hready _ hva).served hsettled.laid hframes⟩

def map_touch_unmap : List MachineOp :=
  [.spawn one_page, .sys_mmap 0 0 8192 3 0x22 none 0, .sys_mmap 0 MMAP_BASE 4096 1 0x32 none 0,
    .check_lazy 0 MMAP_BASE, .sys_munmap 0 (MMAP_BASE + 4096) 4096,
    .sys_mmap 0 (MMAP_BASE + 0x10000) 4096 3 0x12 (some zeros) 0]

theorem mmap_usable_touched :
    Guarded note_step UsePermitted (unnoted image 64) map_touch_unmap ∧
      ∀ s ∈ states note_step (unnoted image 64) map_touch_unmap, MmapUsable s := by
  have hguarded : Guarded note_step UsePermitted (unnoted image 64) map_touch_unmap := by
    decide +kernel
  exact ⟨hguarded, mmap_usable hguarded⟩

/-- A mapping with a hint is made at 0, where no fault is served. -/
theorem mmap_unusable : ∃ s, run note_step (unnoted image 64)
    [.spawn one_page, .sys_mmap 0 0x10000000 4096 3 0x22 none 0] = .ok s ∧ ¬ MmapUsable s := by
  obtain ⟨s, hs, hspace⟩ : ∃ s, run note_step (unnoted image 64) [.spawn one_page] = .ok s ∧
      Meets (s.1.space 0) (fun _ => False) fun ms =>
        Meets (ms.sys_mmap s.1.ph 0x10000000 4096 3 0x22 none 0) (fun _ => False) fun r =>
          0 < s.1.spaces.length ∧ ¬ r.2.1.InMmap 0 ∧ Meets r.1 (fun _ => False) (· = 0) :=
    Meets.exists_ok (by decide +kernel)
  obtain ⟨ms, hms, hmmap⟩ := hspace.exists_ok
  obtain ⟨⟨result, ms', ph'⟩, hmmap, hlen, hout, hresult⟩ := hmmap.exists_ok
  obtain ⟨a, rfl, rfl⟩ := hresult.exists_ok
  have hstep : note_step s (.sys_mmap 0 0x10000000 4096 3 0x22 none 0) = .ok
      (s.1.put 0 (ms', ph'), Function.update s.2 0 (s.2 0 ∪ {v | Touches 0 4096 v})) := by
    simp only [note_step, step, note, hms, hmmap, ok_bind]
    rfl
  refine ⟨_, (run_append hs [_]).trans (by rw [run_cons, hstep]; rfl), fun husable => ?_⟩
  refine hout (husable 0 ms' ?_ 0 ?_).1.1
  · simp [put, hlen]
  · dsimp only
    rw [Function.update_self]
    exact Or.inr (by decide : Touches 0 4096 (floor 0))

end Machine

end MyGOS.Mm
