import MyGOS.Mm.FrameOrigins
import MyGOS.Mm.SharedMemory

/-!
# Attachments of one address space

What attaching, detaching, a fork and a drop do to the counts of the segments
and to the page tables. The counts change as the number of trackers does, and a
page table maps frames of the kernel heap only where an attachment put them.
-/

namespace MyGOS.Mm

open Outcome

/-- The frames of the kernel heap, from `start` to `stop`. -/
structure KernelHeap where
  start : Nat
  stop : Nat

def KernelHeap.Holds (heap : KernelHeap) (ppn : Nat) : Prop :=
  heap.start ≤ ppn ∧ ppn < heap.stop

instance KernelHeap.decidableHolds (heap : KernelHeap) (ppn : Nat) : Decidable (heap.Holds ppn) :=
  inferInstanceAs (Decidable (_ ∧ _))

/-- The heap is an array in the image of the kernel, apart from the trampolines. -/
structure KernelHeap.Inside (heap : KernelHeap) (text : KernelImage) : Prop where
  stop_le : heap.stop ≤ text.ekernel
  strampoline : ¬ heap.Holds text.strampoline
  user_sigreturn : ¬ heap.Holds text.user_sigreturn

/-- What a tracker counts for the segment `key`. -/
def SharedMemoryTracker.count (key : Nat) (tracker : SharedMemoryTracker) : Nat :=
  if tracker.key = key then 1 else 0

/-- The number of trackers an address space has for the segment. -/
def ShmSet.attached (s : ShmSet) (key : Nat) : Nat :=
  MapTotal.total (SharedMemoryTracker.count key) s.shm_trackers

/-- Over all address spaces. -/
def attached_in (spaces : List (Option ShmSet)) (key : Nat) : Nat :=
  (spaces.map fun s => s.elim 0 (·.attached key)).sum

def ShmMachine.attached (m : ShmMachine) (key : Nat) : Nat := attached_in m.spaces key

namespace SharedMemoryManager

/-- The attach counts are changed by `d`, those of segments that are there, and nothing else. -/
structure Adjusted (d : Nat → Int) (m m' : SharedMemoryManager) : Prop where
  eq_map : ∀ key, m'.lookup key =
    (m.lookup key).map fun area => { area with shm_nattch := area.shm_nattch + d key }
  gone : ∀ key, m.lookup key = none → d key = 0

/-- The counts are those of `n`, and no segment that is gone is counted. -/
structure Counts (m : SharedMemoryManager) (n : Nat → Nat) : Prop where
  exact_count : ∀ key area, m.lookup key = some area → area.shm_nattch = n key
  gone : ∀ key, m.lookup key = none → n key = 0

variable {m m' m'' : SharedMemoryManager} {d d' : Nat → Int} {n n' : Nat → Nat} {key : Nat}
  {area : SharedMemoryArea}

theorem Adjusted.refl (m : SharedMemoryManager) : m.Adjusted (fun _ => 0) m :=
  ⟨fun key => by simp, fun _ _ => rfl⟩

theorem Adjusted.lookup_eq_none (h : m.Adjusted d m') :
    m'.lookup key = none ↔ m.lookup key = none := by
  rw [h.eq_map key, Option.map_eq_none_iff]

theorem Adjusted.trans (h : m.Adjusted d m') (h' : m'.Adjusted d' m'') :
    m.Adjusted (fun key => d key + d' key) m'' := by
  refine ⟨fun key => ?_, fun key hkey => ?_⟩
  · rw [h'.eq_map key, h.eq_map key, Option.map_map]
    congr 1
    funext area
    simp [Int.add_assoc]
  · rw [h.gone key hkey, h'.gone key (h.lookup_eq_none.mpr hkey), Int.add_zero]

theorem Adjusted.lookup (h : m.Adjusted d m') (ha : m.lookup key = some area) :
    m'.lookup key = some { area with shm_nattch := area.shm_nattch + d key } := by
  rw [h.eq_map key, ha]
  rfl

theorem Adjusted.of_lookup (h : m.Adjusted d m') (ha : m'.lookup key = some area) :
    ∃ area₀, m.lookup key = some area₀ ∧
      area = { area₀ with shm_nattch := area₀.shm_nattch + d key } := by
  rw [h.eq_map key] at ha
  obtain ⟨area₀, h₀, rfl⟩ := Option.map_eq_some_iff.mp ha
  exact ⟨area₀, h₀, rfl⟩

theorem adjusted_insert (ha : m.lookup key = some area) (c : Int) :
    m.Adjusted (fun k => c * (SharedMemoryTracker.mk key).count k)
      (m.insert key { area with shm_nattch := area.shm_nattch + c }) := by
  unfold SharedMemoryTracker.count
  refine ⟨fun k => ?_, fun k hk => ?_⟩
  · rcases eq_or_ne k key with rfl | hne
    · simp [ha]
    · simp [AList.lookup_insert_ne hne, hne.symm]
  · have hne : key ≠ k := by
      rintro rfl
      cases ha.symm.trans hk
    simp [hne]

theorem attach_ok (h : m.attach key = .ok m') :
    m.Adjusted (fun k => 1 * (SharedMemoryTracker.mk key).count k) m' := by
  unfold attach at h
  split at h
  · cases h
  · rename_i area ha
    cases h
    exact adjusted_insert ha 1

theorem detach_ok (h : m.detach key = .ok m') :
    m.Adjusted (fun k => -1 * (SharedMemoryTracker.mk key).count k) m' := by
  unfold detach at h
  split at h
  · cases h
  · rename_i area ha
    cases h
    exact adjusted_insert ha (-1)

/-- A loop over trackers, each of which changes the count of its segment by `c`. -/
theorem adjusted_loop {f : SharedMemoryManager → SharedMemoryTracker →
      Except Panic SharedMemoryManager} {c : Int}
    (hf : ∀ {m tracker m'}, f m tracker = .ok m' →
      m.Adjusted (fun k => c * tracker.count k) m')
    (entries : List (Sigma fun _ : Nat => SharedMemoryTracker)) :
    ∀ {m m' : SharedMemoryManager}, entries.foldlM (fun m e => f m e.2) m = .ok m' →
      m.Adjusted (fun k => c * (entries.map fun e => e.2.count k).sum) m' := by
  induction entries with
  | nil =>
    intro m m' h
    cases h
    simpa using Adjusted.refl m
  | cons e entries ih =>
    intro m m' h
    rw [List.foldlM_cons] at h
    obtain ⟨m₁, h₁, h⟩ := bind_eq_ok.mp h
    have hrest := (hf h₁).trans (ih h)
    simpa [Int.mul_add] using hrest

theorem Counts.adjusted (h : m.Counts n) (ha : m.Adjusted d m')
    (hn : ∀ key, (n' key : Int) = n key + d key) : m'.Counts n' := by
  refine ⟨fun key area hkey => ?_, fun key hkey => ?_⟩
  · obtain ⟨area₀, h₀, rfl⟩ := ha.of_lookup hkey
    rw [hn key, ← h.exact_count key area₀ h₀]
  · have hnone := ha.lookup_eq_none.mp hkey
    have hkey' := hn key
    rw [ha.gone key hnone, h.gone key hnone] at hkey'
    omega

end SharedMemoryManager

section Spaces

variable {spaces : List (Option ShmSet)} {pid key : Nat} {s s' : ShmSet}

theorem attached_set (key : Nat) (t : Option ShmSet) :
    ∀ {spaces : List (Option ShmSet)} {pid : Nat}, spaces[pid]? = some (some s) →
      attached_in (spaces.set pid t) key + s.attached key =
        attached_in spaces key + t.elim 0 (·.attached key) := by
  intro spaces
  induction spaces with
  | nil =>
    intro pid h
    simp at h
  | cons u spaces ih =>
    intro pid h
    cases pid with
    | zero =>
      cases h
      simp only [attached_in, List.set_cons_zero, List.map_cons, List.sum_cons, Option.elim_some]
      omega
    | succ pid =>
      have hrest := ih h
      simp only [attached_in, List.set_cons_succ, List.map_cons, List.sum_cons] at hrest ⊢
      omega

theorem attached_push (spaces : List (Option ShmSet)) (child : ShmSet) :
    attached_in (spaces ++ [some child]) key = attached_in spaces key + child.attached key := by
  simp [attached_in]

theorem attached_le (key : Nat) (h : spaces[pid]? = some (some s)) :
    s.attached key ≤ attached_in spaces key := by
  have hset := attached_set key none h
  simp only [Option.elim_none] at hset
  omega

/-- A segment that no space counts has no tracker in any. -/
theorem ShmSet.key_ne {va : Nat} {tracker : SharedMemoryTracker}
    (h : s.shm_trackers.lookup va = some tracker) (hzero : s.attached key = 0) :
    tracker.key ≠ key := by
  rintro rfl
  have hle := MapTotal.le_total (f := SharedMemoryTracker.count tracker.key) h
  have hone : tracker.count tracker.key = 1 := if_pos rfl
  unfold ShmSet.attached at hzero
  omega

theorem ShmMachine.space_ok {m : ShmMachine} (h : m.space pid = .ok s) :
    m.spaces[pid]? = some (some s) := by
  unfold ShmMachine.space at h
  split at h
  · cases h
    assumption
  · cases h

end Spaces

section Trackers

variable {text : KernelImage} {s s' par child : ShmSet} {m m' : SharedMemoryManager} {ph ph' : Phys}
  {key va : Nat} {tracker : SharedMemoryTracker}

/-- The counts of the segments change as the number of trackers does. -/
def Recounts (m : SharedMemoryManager) (n : Nat → Nat) (m' : SharedMemoryManager)
    (n' : Nat → Nat) : Prop :=
  ∃ d, m.Adjusted d m' ∧ ∀ key, (n' key : Int) = n key + d key

theorem tracker_new_ok (h : SharedMemoryTracker.new m key = .ok (tracker, m')) :
    tracker = ⟨key⟩ ∧ m.Adjusted (fun k => 1 * tracker.count k) m' := by
  obtain ⟨m₁, hattach, h⟩ := bind_eq_ok.mp h
  cases h
  exact ⟨rfl, SharedMemoryManager.attach_ok hattach⟩

/-- An old tracker under the address is dropped for the new one. -/
theorem insert_tracker_ok (h : s.insert_tracker m va tracker = .ok (s', m')) :
    s' = { s with shm_trackers := s.shm_trackers.insert va tracker } ∧
      ∃ d, m.Adjusted d m' ∧
        ∀ key, (s'.attached key : Int) = s.attached key + tracker.count key + d key := by
  unfold ShmSet.insert_tracker at h
  split at h
  · rename_i hnone
    cases h
    refine ⟨rfl, _, SharedMemoryManager.Adjusted.refl m, fun key => ?_⟩
    have htotal := MapTotal.total_insert_of_none (f := SharedMemoryTracker.count key) (v := tracker)
      hnone
    simp only [ShmSet.attached, htotal]
    omega
  · rename_i old hsome
    obtain ⟨m₁, hdrop, h⟩ := bind_eq_ok.mp h
    cases h
    refine ⟨rfl, _, SharedMemoryManager.detach_ok hdrop, fun key => ?_⟩
    have htotal := MapTotal.total_insert_of_some (f := SharedMemoryTracker.count key) (v := tracker)
      hsome
    have hcount : (SharedMemoryTracker.mk old.key).count key = old.count key := rfl
    simp only [ShmSet.attached, hcount]
    omega

theorem attach_shm_recounts (h : s.attach_shm m ph key va = .ok (s', m', ph')) :
    Recounts m s.attached m' s'.attached := by
  obtain ⟨⟨start_pa, size⟩, _, h⟩ := bind_eq_ok.mp h
  obtain ⟨⟨pt, ph₁⟩, _, h⟩ := bind_eq_ok.mp h
  obtain ⟨⟨tracker, m₁⟩, hnew, h⟩ := bind_eq_ok.mp h
  obtain ⟨⟨s₁, m₂⟩, hinsert, h⟩ := bind_eq_ok.mp h
  obtain ⟨vma, _, h⟩ := bind_eq_ok.mp h
  cases h
  obtain ⟨_, hm₁⟩ := tracker_new_ok hnew
  obtain ⟨_, d, hm₂, hcount⟩ := insert_tracker_ok hinsert
  refine ⟨_, hm₁.trans hm₂, fun key => (hcount key).trans ?_⟩
  omega

theorem detach_shm_recounts {nattch : Int} (h : s.detach_shm m va = .ok (nattch, s', m')) :
    Recounts m s.attached m' s'.attached := by
  unfold ShmSet.detach_shm at h
  split at h
  · cases h
  · rename_i tracker htracker
    obtain ⟨⟨start_pa, size⟩, _, h⟩ := bind_eq_ok.mp h
    obtain ⟨pt, _, h⟩ := bind_eq_ok.mp h
    obtain ⟨m₁, hdrop, h⟩ := bind_eq_ok.mp h
    obtain ⟨vpn, _, h⟩ := bind_eq_ok.mp h
    obtain ⟨nattch', _, h⟩ := bind_eq_ok.mp h
    cases h
    refine ⟨_, SharedMemoryManager.detach_ok hdrop, fun key => ?_⟩
    have htotal := MapTotal.total_erase (f := SharedMemoryTracker.count key) htracker
    simp only [ShmSet.attached, htotal]
    have hcount : (SharedMemoryTracker.mk tracker.key).count key = tracker.count key := rfl
    omega

/-- The child has as many trackers as the parent, and they are all new. -/
theorem fork_recounts (h : s.from_copy_on_write text m ph = .ok (par, child, m', ph')) :
    par.attached = s.attached ∧ Recounts m (fun _ => 0) m' child.attached := by
  obtain ⟨⟨par₁, child₁, ph₁⟩, _, h⟩ := bind_eq_ok.mp h
  obtain ⟨m₁, hloop, h⟩ := bind_eq_ok.mp h
  cases h
  refine ⟨rfl, _, SharedMemoryManager.adjusted_loop (c := 1) (f := fun m tracker =>
    tracker.another m) ?_ _ hloop, fun key => ?_⟩
  · intro m tracker m' h
    obtain ⟨⟨new, m₂⟩, hnew, h⟩ := bind_eq_ok.mp h
    cases h
    obtain ⟨rfl, hm⟩ := tracker_new_ok hnew
    exact hm
  · simp [ShmSet.attached, MapTotal.total]

theorem drop_recounts (h : s.drop m ph = .ok (m', ph')) :
    Recounts m s.attached m' (fun _ => 0) := by
  obtain ⟨ph₁, _, h⟩ := bind_eq_ok.mp h
  obtain ⟨m₁, hloop, h⟩ := bind_eq_ok.mp h
  cases h
  refine ⟨_, SharedMemoryManager.adjusted_loop (c := -1) (f := fun m tracker => tracker.drop m)
    ?_ _ hloop, fun key => ?_⟩
  · intro m tracker m' h
    exact SharedMemoryManager.detach_ok h
  · simp [ShmSet.attached, MapTotal.total]

end Trackers

/-- A frame of the kernel heap is mapped at the page `i` by an attachment to a segment that is
there. -/
def Backed (heap : KernelHeap) (m : SharedMemoryManager)
    (trackers : AList fun _ : Nat => SharedMemoryTracker) (i ppn : Nat) : Prop :=
  heap.Holds ppn → ∃ va tracker area offset, trackers.lookup va = some tracker ∧
    m.lookup tracker.key = some area ∧ offset ∈ shm_offsets area.shm_size ∧
      i = index (floor (ShmSet.shm_va va offset)) ∧ ppn = floor (area.buffer + offset)

/-- The frames of the heap in the page table are those of attached segments. -/
structure ShmSet.Sound (heap : KernelHeap) (m : SharedMemoryManager)
    (s : ShmSet) : Prop where
  within : s.ms.page_table.Within (Backed heap m s.shm_trackers)
  framed : ∀ area ∈ s.ms.map_areas, area.map_type = .Framed

/-- No page of a segment that is attached at the address is mapped. (At an address where a page
of the new segment is mapped the attachment panics.) -/
def ShmSet.Vacant (s : ShmSet) (m : SharedMemoryManager) (va : Nat) : Prop :=
  ∀ tracker ∈ s.shm_trackers.lookup va, ∀ area ∈ m.lookup tracker.key,
    ∀ offset ∈ shm_offsets area.shm_size, s.ms.translate (floor (shm_va va offset)) = none

/-- Segments that have trackers stay where they are. -/
def StaysFor (trackers : AList fun _ : Nat => SharedMemoryTracker) (m m' : SharedMemoryManager) :
    Prop :=
  ∀ va tracker area, trackers.lookup va = some tracker → m.lookup tracker.key = some area →
    ∃ area', m'.lookup tracker.key = some area' ∧ area'.shm_size = area.shm_size ∧
      area'.buffer = area.buffer

section Sound

variable {text : KernelImage} {heap : KernelHeap} {m m' : SharedMemoryManager}
  {s s' par child : ShmSet} {ph ph' : Phys} {pt pt' : PageTable} {pte : PageTableEntry}
  {trackers : AList fun _ : Nat => SharedMemoryTracker} {key va vpn v : Nat} {d : Nat → Int}

theorem backed_allows (hheap : heap.Inside text) :
    Allows text text.ekernel (Backed heap m trackers) where
  frame _ _ hle hppn := absurd (hheap.stop_le.trans hle) (Nat.not_le.mpr hppn.2)
  strampoline hppn := absurd hppn hheap.strampoline
  user_sigreturn hppn := absurd hppn hheap.user_sigreturn

theorem SharedMemoryManager.Adjusted.stays (h : m.Adjusted d m') : StaysFor trackers m m' :=
  fun _ _ _ _ ha => ⟨_, h.lookup ha, rfl, rfl⟩

theorem Backed.stays {i ppn : Nat} (h : Backed heap m trackers i ppn)
    (hs : StaysFor trackers m m') : Backed heap m' trackers i ppn := by
  intro hheap
  obtain ⟨va, tracker, area, offset, ht, ha, hoffset, hi, hppn⟩ := h hheap
  obtain ⟨area', ha', hsize, hbuffer⟩ := hs va tracker area ht ha
  exact ⟨va, tracker, area', offset, ht, ha', by rwa [hsize], hi, by rwa [hbuffer]⟩

theorem ShmSet.Sound.stays (h : s.Sound heap m) (hs : StaysFor s.shm_trackers m m') :
    s.Sound heap m' :=
  ⟨fun v pte hv => (h.within v pte hv).stays hs, h.framed⟩

theorem vpn_of_ok (h : MemorySet.vpn_of va = .ok vpn) : vpn = floor va := by
  unfold MemorySet.vpn_of at h
  split at h
  · cases h
    rfl
  · cases h

theorem ppn_of_ok {pa ppn : Nat} (h : ppn_of pa = .ok ppn) : ppn = floor pa := by
  unfold ppn_of at h
  split at h
  · cases h
    rfl
  · cases h

theorem get_address_and_size_ok {start_pa size : Nat}
    (h : m.get_address_and_size key = .ok (start_pa, size)) :
    ∃ area, m.lookup key = some area ∧ start_pa = area.buffer ∧ size = area.shm_size := by
  unfold SharedMemoryManager.get_address_and_size at h
  split at h
  · cases h
  · rename_i area ha
    cases h
    exact ⟨area, ha, rfl, rfl⟩

/-- The page table with the new pages, under the trackers after the attachment. -/
theorem attach_shm_sound (hs : s.Sound heap m) (hf : FramesFrom text.ekernel ph.allocator)
    (hvacant : s.Vacant m va) (h : s.attach_shm m ph key va = .ok (s', m', ph')) :
    FramesFrom text.ekernel ph'.allocator ∧ s'.Sound heap m' := by
  obtain ⟨d, hadjusted, _⟩ := attach_shm_recounts h
  obtain ⟨⟨start_pa, size⟩, hget, h⟩ := bind_eq_ok.mp h
  obtain ⟨⟨pt, ph₁⟩, hloop, h⟩ := bind_eq_ok.mp h
  obtain ⟨⟨tracker, m₁⟩, hnew, h⟩ := bind_eq_ok.mp h
  obtain ⟨⟨s₁, m₂⟩, hinsert, h⟩ := bind_eq_ok.mp h
  obtain ⟨vma, _, h⟩ := bind_eq_ok.mp h
  cases h
  obtain ⟨area, harea, rfl, rfl⟩ := get_address_and_size_ok hget
  obtain ⟨rfl, _⟩ := tracker_new_ok hnew
  obtain ⟨rfl, _⟩ := insert_tracker_ok hinsert
  have hold : s.ms.page_table.Within (Backed heap m (s.shm_trackers.insert va ⟨key⟩)) := by
    intro v pte hv hheap
    obtain ⟨va', tracker, area', offset, ht, ha, hoffset, hi, hppn⟩ := hs.within v pte hv hheap
    rcases eq_or_ne va' va with rfl | hne
    · have hnone := hvacant tracker ht area' ha offset hoffset
      cases hv.symm.trans ((PageTable.find_pte_congr _ hi).trans hnone)
    · exact ⟨va', tracker, area', offset, by rwa [AList.lookup_insert_ne hne], ha, hoffset, hi,
        hppn⟩
  obtain ⟨_, hf₁, hpt⟩ := foldlM_ok (I := fun offsets r =>
    (∀ o ∈ offsets, o ∈ shm_offsets area.shm_size) ∧ FramesFrom text.ekernel r.2.allocator ∧
      r.1.Within (Backed heap m (s.shm_trackers.insert va ⟨key⟩))) (by
    rintro offset offsets ⟨pt₁, ph₁⟩ ⟨pt₂, ph₂⟩ ⟨hoffsets, hf, hpt⟩ hstep
    obtain ⟨vpn, hvpn, hstep⟩ := bind_eq_ok.mp hstep
    obtain ⟨ppn, hppn, hmap⟩ := bind_eq_ok.mp hstep
    obtain ⟨hoffset, hoffsets⟩ := List.forall_mem_cons.mp hoffsets
    refine ⟨hoffsets, hf.map hmap, hpt.map (fun _ => ?_) hmap⟩
    exact ⟨va, ⟨key⟩, area, offset, AList.lookup_insert _, harea, hoffset, by rw [vpn_of_ok hvpn],
      ppn_of_ok hppn⟩) ⟨fun _ ho => ho, hf, hold⟩ hloop
  exact ⟨hf₁, fun v pte hv => (hpt v pte hv).stays hadjusted.stays, hs.framed⟩

theorem PageTable.find_pte_unmap (h : (pt.unmap vpn).find_pte v = some pte) :
    pt.find_pte v = some pte ∧ index v ≠ index vpn := by
  unfold PageTable.unmap at h
  split at h
  · simp only [PageTable.find_pte, PageTable.set_entry] at h ⊢
    rcases eq_or_ne (index v) (index vpn) with heq | hne
    · simp [heq, PageTableEntry.is_valid] at h
    · exact ⟨by simpa [hne] using h, hne⟩
  · rename_i hnone
    refine ⟨h, fun heq => ?_⟩
    rw [PageTable.find_pte_congr _ heq, hnone] at h
    cases h

/-- The pages that are left after the loop were there before, and are not those of the loop. -/
theorem detach_loop_ok (offsets : List Nat) : ∀ {pt pt' : PageTable},
    offsets.foldlM (ShmSet.detach_page va) pt = .ok pt' → ∀ {v pte}, pt'.find_pte v = some pte →
      pt.find_pte v = some pte ∧ ∀ o ∈ offsets, index v ≠ index (floor (ShmSet.shm_va va o)) := by
  induction offsets with
  | nil =>
    intro pt pt' h v pte hv
    cases h
    exact ⟨hv, fun _ ho => absurd ho List.not_mem_nil⟩
  | cons offset offsets ih =>
    intro pt pt' h v pte hv
    rw [List.foldlM_cons] at h
    obtain ⟨pt₁, hpage, h⟩ := bind_eq_ok.mp h
    obtain ⟨vpn, hvpn, hpage⟩ := bind_eq_ok.mp hpage
    cases hpage
    obtain ⟨hv₁, hrest⟩ := ih h hv
    obtain ⟨hv₀, hne⟩ := PageTable.find_pte_unmap hv₁
    refine ⟨hv₀, List.forall_mem_cons.mpr ⟨?_, hrest⟩⟩
    rwa [← vpn_of_ok hvpn]

theorem detach_shm_sound {nattch : Int} (hs : s.Sound heap m)
    (h : s.detach_shm m va = .ok (nattch, s', m')) : s'.Sound heap m' := by
  obtain ⟨d, hadjusted, _⟩ := detach_shm_recounts h
  unfold ShmSet.detach_shm at h
  split at h
  · cases h
  · rename_i tracker htracker
    obtain ⟨⟨start_pa, size⟩, hget, h⟩ := bind_eq_ok.mp h
    obtain ⟨pt, hloop, h⟩ := bind_eq_ok.mp h
    obtain ⟨m₁, _, h⟩ := bind_eq_ok.mp h
    obtain ⟨vpn, _, h⟩ := bind_eq_ok.mp h
    obtain ⟨nattch', _, h⟩ := bind_eq_ok.mp h
    cases h
    obtain ⟨area, harea, rfl, rfl⟩ := get_address_and_size_ok hget
    refine ⟨fun v pte hv => Backed.stays (fun hheap => ?_) hadjusted.stays, hs.framed⟩
    obtain ⟨hv₀, hleft⟩ := detach_loop_ok _ hloop hv
    obtain ⟨va', tracker', area', offset, ht, ha, hoffset, hi, hppn⟩ := hs.within v pte hv₀ hheap
    rcases eq_or_ne va' va with rfl | hne
    · cases htracker.symm.trans ht
      cases harea.symm.trans ha
      exact absurd hi (hleft offset hoffset)
    · exact ⟨va', tracker', area', offset, (AList.lookup_erase_ne hne).trans ht, ha, hoffset, hi,
        hppn⟩

/-- The child maps what the parent maps, under the same attachments. -/
theorem fork_sound (hheap : heap.Inside text) (hs : s.Sound heap m)
    (hf : FramesFrom text.ekernel ph.allocator)
    (h : s.from_copy_on_write text m ph = .ok (par, child, m', ph')) :
    FramesFrom text.ekernel ph'.allocator ∧ par.Sound heap m' ∧ child.Sound heap m' := by
  obtain ⟨_, d, hadjusted, _⟩ := fork_recounts h
  obtain ⟨⟨par₁, child₁, ph₁⟩, hcopy, h⟩ := bind_eq_ok.mp h
  obtain ⟨m₁, _, h⟩ := bind_eq_ok.mp h
  cases h
  obtain ⟨hf', hpar, hchild, hsame, hframed⟩ :=
    from_copy_on_write_within (backed_allows hheap) hf hs.within hs.framed hcopy
  have hsound : ShmSet.Sound heap m { s with ms := par₁ } := by
    refine ⟨hpar, ?_⟩
    rw [hsame]
    exact hs.framed
  have hsound' : ShmSet.Sound heap m { s with ms := child₁ } := ⟨hchild, hframed⟩
  exact ⟨hf', hsound.stays hadjusted.stays, hsound'.stays hadjusted.stays⟩

end Sound

end MyGOS.Mm
