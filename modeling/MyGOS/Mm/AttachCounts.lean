import MyGOS.Mm.Attachments
import MyGOS.Mm.MappingSafety

/-!
# Attach counts of shared segments

The count of a segment is the number of trackers for it over all address
spaces. A segment goes with a removal that finds its count at zero, and then no
page table maps its frames.
-/

namespace MyGOS.Mm

open Outcome StepSystem

/-- What the heap promises of the buffer of a new segment: frames of its own that no segment
has. -/
def KernelHeap.Grants (heap : KernelHeap) (m : SharedMemoryManager)
    (size buffer : Nat) : Prop :=
  ∀ ppn ∈ SharedMemoryArea.ppns ⟨size, 0, buffer⟩,
    heap.Holds ppn ∧ ∀ e ∈ m.entries, ppn ∉ e.2.ppns

/-- The segments lie in the heap, apart from each other. -/
structure SharedMemoryManager.Placed (heap : KernelHeap)
    (m : SharedMemoryManager) : Prop where
  in_heap : ∀ key area, m.lookup key = some area → ∀ ppn ∈ area.ppns, heap.Holds ppn
  apart : ∀ key key' area area', m.lookup key = some area → m.lookup key' = some area' →
    key ≠ key' → ∀ ppn ∈ area.ppns, ppn ∉ area'.ppns

namespace SharedMemoryManager

variable {text : KernelImage} {heap : KernelHeap} {m m' : SharedMemoryManager}
  {d : Nat → Int} {n : Nat → Nat} {key key' size buffer : Nat} {area : SharedMemoryArea}

theorem Placed.adjusted (h : m.Placed heap) (ha : m.Adjusted d m') : m'.Placed heap := by
  refine ⟨fun key area hkey => ?_, fun key key' area area' hkey hkey' hne => ?_⟩
  · obtain ⟨area₀, h₀, rfl⟩ := ha.of_lookup hkey
    exact h.in_heap key area₀ h₀
  · obtain ⟨area₀, h₀, rfl⟩ := ha.of_lookup hkey
    obtain ⟨area₁, h₁, rfl⟩ := ha.of_lookup hkey'
    exact h.apart key key' area₀ area₁ h₀ h₁ hne

theorem create_ok (h : m.create key size buffer = .ok (key', m')) :
    m.lookup key' = none ∧ m' = m.insert key' ⟨size, 0, buffer⟩ := by
  unfold create at h
  dsimp only at h
  split at h
  · rename_i hnone
    cases h
    exact ⟨hnone, rfl⟩
  · cases h

theorem lookup_created (hnone : m.lookup key' = none)
    (h : (m.insert key' ⟨size, 0, buffer⟩).lookup key = some area) :
    key = key' ∧ area = ⟨size, 0, buffer⟩ ∨ key ≠ key' ∧ m.lookup key = some area := by
  rcases eq_or_ne key key' with rfl | hne
  · rw [AList.lookup_insert] at h
    exact Or.inl ⟨rfl, (Option.some.inj h).symm⟩
  · rw [AList.lookup_insert_ne hne] at h
    exact Or.inr ⟨hne, h⟩

theorem Placed.created (h : m.Placed heap) (hgrants : heap.Grants m size buffer)
    (hnone : m.lookup key' = none) : Placed heap (m.insert key' ⟨size, 0, buffer⟩) := by
  have hnew {key : Nat} {area : SharedMemoryArea} (hkey : m.lookup key = some area) (ppn : Nat)
      (hppn : ppn ∈ SharedMemoryArea.ppns ⟨size, 0, buffer⟩) : ppn ∉ area.ppns :=
    (hgrants ppn hppn).2 ⟨key, area⟩ (AList.mem_lookup_iff.mp hkey)
  refine ⟨fun key area hkey ppn hppn => ?_, fun key₁ key₂ area area' h₁ h₂ hne ppn hppn hppn' => ?_⟩
  · rcases lookup_created hnone hkey with ⟨rfl, rfl⟩ | ⟨_, hkey⟩
    · exact (hgrants ppn hppn).1
    · exact h.in_heap key area hkey ppn hppn
  · rcases lookup_created hnone h₁ with ⟨rfl, rfl⟩ | ⟨_, hold₁⟩
    · rcases lookup_created hnone h₂ with ⟨rfl, rfl⟩ | ⟨_, hold₂⟩
      · exact hne rfl
      · exact hnew hold₂ ppn hppn hppn'
    · rcases lookup_created hnone h₂ with ⟨rfl, rfl⟩ | ⟨_, hold₂⟩
      · exact hnew hold₁ ppn hppn' hppn
      · exact h.apart key₁ key₂ area area' hold₁ hold₂ hne ppn hppn hppn'

theorem Counts.created (h : m.Counts n) (hnone : m.lookup key' = none) :
    Counts (m.insert key' ⟨size, 0, buffer⟩) n := by
  refine ⟨fun key area hkey => ?_, fun key hkey => ?_⟩
  · rcases lookup_created hnone hkey with ⟨rfl, rfl⟩ | ⟨_, hkey⟩
    · rw [h.gone key hnone]
      rfl
    · exact h.exact_count key area hkey
  · rcases eq_or_ne key key' with rfl | hne
    · exact h.gone key hnone
    · rw [AList.lookup_insert_ne hne] at hkey
      exact h.gone key hkey

theorem remove_ok (h : m.remove key = .ok m') :
    ∃ area, m.lookup key = some area ∧
      (area.shm_nattch = 0 ∧ m' = m.erase key ∨ area.shm_nattch ≠ 0 ∧ m' = m) := by
  unfold remove at h
  split at h
  · cases h
  · rename_i area ha
    cases h
    refine ⟨area, ha, ?_⟩
    split
    · rename_i hzero
      exact Or.inl ⟨hzero, rfl⟩
    · rename_i hne
      exact Or.inr ⟨hne, rfl⟩

theorem lookup_erased (h : (m.erase key').lookup key = some area) :
    key ≠ key' ∧ m.lookup key = some area := by
  rcases eq_or_ne key key' with rfl | hne
  · rw [AList.lookup_erase] at h
    cases h
  · exact ⟨hne, (AList.lookup_erase_ne hne).symm.trans h⟩

theorem Placed.erased (h : m.Placed heap) (key' : Nat) : Placed heap (m.erase key') :=
  ⟨fun key area hkey => h.in_heap key area (lookup_erased hkey).2,
    fun key₁ key₂ area area' h₁ h₂ =>
      h.apart key₁ key₂ area area' (lookup_erased h₁).2 (lookup_erased h₂).2⟩

theorem Counts.erased (h : m.Counts n) (hzero : n key' = 0) : Counts (m.erase key') n := by
  refine ⟨fun key area hkey => h.exact_count key area (lookup_erased hkey).2, fun key hkey => ?_⟩
  rcases eq_or_ne key key' with rfl | hne
  · exact hzero
  · exact h.gone key ((AList.lookup_erase_ne hne).symm.trans hkey)

end SharedMemoryManager

/-- The invariant of the machine. -/
structure ShmMachine.Attached (heap : KernelHeap) (m : ShmMachine) :
    Prop where
  inside : heap.Inside m.text
  counts : m.shm_manager.Counts m.attached
  placed : m.shm_manager.Placed heap
  frames : FramesFrom m.text.ekernel m.ph.allocator
  sound : ∀ (pid : Nat) (s : ShmSet), m.spaces[pid]? = some (some s) → s.Sound heap m.shm_manager

instance ShmSet.decidableVacant (s : ShmSet) (m : SharedMemoryManager) (va : Nat) :
    Decidable (s.Vacant m va) :=
  inferInstanceAs (Decidable (∀ tracker ∈ s.shm_trackers.lookup va, ∀ area ∈ m.lookup tracker.key,
    ∀ offset ∈ shm_offsets area.shm_size, s.ms.translate (floor (ShmSet.shm_va va offset)) = none))

instance KernelHeap.decidableGrants (heap : KernelHeap) (m : SharedMemoryManager)
    (size buffer : Nat) : Decidable (heap.Grants m size buffer) :=
  inferInstanceAs (Decidable (∀ ppn ∈ SharedMemoryArea.ppns ⟨size, 0, buffer⟩,
    heap.Holds ppn ∧ ∀ e ∈ m.entries, ppn ∉ e.2.ppns))

/-- New segments get what the heap grants, and nothing is mapped where a segment is attached. -/
def KernelHeap.Permits (heap : KernelHeap) (m : ShmMachine) :
    ShmOp → Prop
  | .sys_shmget _ size buffer => heap.Grants m.shm_manager (shmget_size size) buffer
  | .sys_shmat pid _ address => ∀ s ∈ m.spaces[pid]?.join,
    s.Vacant m.shm_manager (virt_addr (s.shmat_address address))
  | _ => True

instance KernelHeap.decidablePermits (heap : KernelHeap) (m : ShmMachine) (op : ShmOp) :
    Decidable (heap.Permits m op) :=
  match op with
  | .sys_shmget _ size buffer =>
    inferInstanceAs (Decidable (heap.Grants m.shm_manager (shmget_size size) buffer))
  | .sys_shmat pid _ address =>
    inferInstanceAs (Decidable (∀ s ∈ m.spaces[pid]?.join,
      s.Vacant m.shm_manager (virt_addr (s.shmat_address address))))
  | .sys_shmdt _ _ | .sys_shmctl _ _ | .fork _ | .exit _ => inferInstanceAs (Decidable True)

namespace ShmMachine

variable {heap : KernelHeap} {m m' : ShmMachine}
  {manager : SharedMemoryManager} {spaces : List (Option ShmSet)} {ph : Phys} {d : Nat → Int}
  {pid key : Nat} {s : ShmSet} {op : ShmOp} {area : SharedMemoryArea}

/-- A step that moves trackers: the address spaces it makes are sound, and the others stay. -/
theorem Attached.moved (h : m.Attached heap) (ha : m.shm_manager.Adjusted d manager)
    (hn : ∀ key, (attached_in spaces key : Int) = m.attached key + d key)
    (hf : FramesFrom m.text.ekernel ph.allocator)
    (hs : ∀ (pid : Nat) (s : ShmSet), spaces[pid]? = some (some s) →
      (∃ q : Nat, m.spaces[q]? = some (some s)) ∨ s.Sound heap manager) :
    Attached heap { m with ph := ph, shm_manager := manager, spaces := spaces } where
  inside := h.inside
  counts := h.counts.adjusted ha hn
  placed := h.placed.adjusted ha
  frames := hf
  sound pid s hpid := by
    rcases hs pid s hpid with ⟨q, hq⟩ | hsound
    · exact (h.sound q s hq).stays ha.stays
    · exact hsound

/-- One address space is changed, or dropped. -/
theorem Attached.put (h : m.Attached heap) (hs : m.spaces[pid]? = some (some s))
    {t : Option ShmSet}
    (hcounts : Recounts m.shm_manager s.attached manager fun key => t.elim 0 (·.attached key))
    (hf : FramesFrom m.text.ekernel ph.allocator)
    (hsound : ∀ s' ∈ t, s'.Sound heap manager) : (m.put pid t manager ph).Attached heap := by
  obtain ⟨d, ha, hn⟩ := hcounts
  refine h.moved ha (fun key => ?_) hf fun q s' hq => ?_
  · have hset := attached_set key t hs
    have hkey := hn key
    dsimp only at hkey
    unfold ShmMachine.attached
    omega
  · rw [List.getElem?_set] at hq
    split at hq
    · split at hq
      · exact Or.inr (hsound s' (Option.some.inj hq))
      · cases hq
    · exact Or.inl ⟨q, hq⟩

theorem Attached.fork {par child : ShmSet} (h : m.Attached heap)
    (hs : m.spaces[pid]? = some (some s))
    (hfork : s.from_copy_on_write m.text m.shm_manager m.ph = .ok (par, child, manager, ph)) :
    Attached heap { m.put pid (some par) manager ph with
      spaces := (m.put pid (some par) manager ph).spaces ++ [some child] } := by
  obtain ⟨hpar, d, ha, hn⟩ := fork_recounts hfork
  obtain ⟨hf, hsound, hsound'⟩ := fork_sound h.inside (h.sound pid s hs) h.frames hfork
  refine h.moved ha (fun key => ?_) hf fun q s' hq => ?_
  · have hset := attached_set key (some par) hs
    have hkey := hn key
    dsimp only at hkey
    rw [Option.elim_some, hpar] at hset
    rw [attached_push]
    unfold ShmMachine.put ShmMachine.attached
    dsimp only
    omega
  · rw [List.getElem?_append] at hq
    split at hq
    · rw [ShmMachine.put, List.getElem?_set] at hq
      split at hq
      · split at hq
        · cases hq
          exact Or.inr hsound
        · cases hq
      · exact Or.inl ⟨q, hq⟩
    · rw [List.getElem?_singleton] at hq
      split at hq
      · cases hq
        exact Or.inr hsound'
      · cases hq

/-- The manager is changed, with the trackers as they are. -/
theorem Attached.manage (h : m.Attached heap) (hc : manager.Counts m.attached)
    (hp : manager.Placed heap) (hs : ∀ (pid : Nat) (s : ShmSet),
      m.spaces[pid]? = some (some s) → StaysFor s.shm_trackers m.shm_manager manager) :
    Attached heap { m with shm_manager := manager } :=
  ⟨h.inside, hc, hp, h.frames, fun pid s hpid => (h.sound pid s hpid).stays (hs pid s hpid)⟩

theorem Attached.step (h : m.Attached heap) (hp : heap.Permits m op) (hm : m.step op = .ok m') :
    m'.Attached heap := by
  cases op with
  | sys_shmget key size buffer =>
    obtain ⟨⟨key', manager⟩, hget, hm⟩ := bind_eq_ok.mp hm
    cases hm
    unfold sys_shmget at hget
    split at hget
    · obtain ⟨hnone, rfl⟩ := SharedMemoryManager.create_ok hget
      refine h.manage (h.counts.created hnone) (h.placed.created hp hnone)
        fun pid s hs va tracker area ht ha => ⟨area, ?_, rfl, rfl⟩
      rwa [AList.lookup_insert_ne]
      rintro heq
      rw [heq, hnone] at ha
      cases ha
    · cases hget
  | sys_shmat pid key address =>
    obtain ⟨s, hs, hm⟩ := bind_eq_ok.mp hm
    obtain ⟨⟨address', s', manager, ph⟩, hat, hm⟩ := bind_eq_ok.mp hm
    cases hm
    obtain ⟨r, hattach, hat⟩ := bind_eq_ok.mp hat
    cases hat
    have hs := space_ok hs
    have hvacant := hp s (Option.join_eq_some_iff.mpr hs)
    obtain ⟨hf, hsound⟩ := attach_shm_sound (h.sound pid s hs) h.frames hvacant hattach
    refine h.put hs (attach_shm_recounts hattach) hf fun s₁ hs₁ => ?_
    cases hs₁
    exact hsound
  | sys_shmdt pid address =>
    obtain ⟨s, hs, hm⟩ := bind_eq_ok.mp hm
    obtain ⟨⟨nattch, s', manager⟩, hdetach, hm⟩ := bind_eq_ok.mp hm
    cases hm
    have hs := space_ok hs
    refine h.put hs (detach_shm_recounts hdetach) h.frames fun s₁ hs₁ => ?_
    cases hs₁
    exact detach_shm_sound (h.sound pid s hs) hdetach
  | sys_shmctl key cmd =>
    obtain ⟨manager, hctl, hm⟩ := bind_eq_ok.mp hm
    cases hm
    unfold sys_shmctl at hctl
    split at hctl
    · obtain ⟨area, harea, ⟨hzero, rfl⟩ | ⟨_, rfl⟩⟩ := SharedMemoryManager.remove_ok hctl
      · have hcount := h.counts.exact_count key area harea
        rw [hzero] at hcount
        have hnone : m.attached key = 0 := by omega
        refine h.manage (h.counts.erased hnone) (h.placed.erased key)
          fun pid s hs va tracker area' ht ha => ⟨area', ?_, rfl, rfl⟩
        have hle := attached_le key hs
        have hne := ShmSet.key_ne ht (Nat.le_zero.mp (hle.trans (Nat.le_of_eq hnone)))
        rwa [AList.lookup_erase_ne hne]
      · exact h
    · cases hctl
  | fork pid =>
    obtain ⟨s, hs, hm⟩ := bind_eq_ok.mp hm
    obtain ⟨⟨par, child, manager, ph⟩, hfork, hm⟩ := bind_eq_ok.mp hm
    cases hm
    exact h.fork (space_ok hs) hfork
  | exit pid =>
    obtain ⟨s, hs, hm⟩ := bind_eq_ok.mp hm
    obtain ⟨⟨manager, ph⟩, hdrop, hm⟩ := bind_eq_ok.mp hm
    cases hm
    refine h.put (space_ok hs) (drop_recounts hdrop) ?_ fun s₁ hs₁ => by cases hs₁
    obtain ⟨ph₁, hdrop, hm⟩ := bind_eq_ok.mp hdrop
    obtain ⟨m₁, _, hm⟩ := bind_eq_ok.mp hm
    cases hm
    exact h.frames.drop_space hdrop

/-- Before the first segment, no frame of the heap is mapped. -/
theorem attached_start {m : Machine} (hheap : heap.Inside m.text) (h : Books 0 m) :
    (start m).Attached heap := by
  have hspace {pid : Nat} {s : ShmSet} (hs : (start m).spaces[pid]? = some (some s)) :
      ∃ ms, m.spaces[pid]? = some (some ms) ∧ s = { ms, shm_trackers := ∅ } := by
    rw [start, List.getElem?_map] at hs
    obtain ⟨t, ht, hs⟩ := Option.map_eq_some_iff.mp hs
    obtain ⟨ms, rfl, rfl⟩ := Option.map_eq_some_iff.mp hs
    exact ⟨ms, ht, rfl⟩
  have hfrom := h.owned.frames_from
  rw [h.base] at hfrom
  refine ⟨hheap, ⟨fun key area hkey => ?_, fun key _ => ?_⟩, ⟨fun key area hkey => ?_,
    fun key key' area area' hkey => ?_⟩, hfrom, fun pid s hs => ?_⟩
  · cases hkey
  · refine List.sum_eq_zero fun n hn => ?_
    obtain ⟨t, ht, rfl⟩ := List.mem_map.mp hn
    obtain ⟨t₀, _, rfl⟩ := List.mem_map.mp ht
    cases t₀ <;> rfl
  · cases hkey
  · cases hkey
  · obtain ⟨ms, hms, rfl⟩ := hspace hs
    have hT := h.tracked pid ms hms
    refine ⟨fun v pte hv => ?_, fun area harea => ?_⟩
    · rcases hT.mapped_owned hv with htramp | hmem
      · rcases htramp with ⟨hi, hppn⟩ | ⟨hi, hppn⟩
        · rw [hi, hppn]
          exact (backed_allows hheap).strampoline
        · rw [hi, hppn]
          exact (backed_allows hheap).user_sigreturn
      · have hle := (h.owned_split hms).base_le (Multiset.mem_add.mpr (Or.inl hmem))
        rw [h.base] at hle
        exact (backed_allows hheap).frame _ _ hle
    · exact (hT.kinds area.from_another (List.mem_map_of_mem harea)).1

theorem attached_states {m : Machine} {acts : List ShmOp} (hheap : heap.Inside m.text)
    (h : Books 0 m) (hacts : Guarded step heap.Permits (start m) acts) :
    ∀ t ∈ states step (start m) acts, t.Attached heap :=
  invariant (Attached heap) (fun _ _ _ h hp hm => h.step hp hm) (attached_start hheap h) hacts

/-- The segment is in the manager after the step, with its bytes where they were. -/
def KeepsArea (m' : ShmMachine) (key : Nat) (area : SharedMemoryArea) : Prop :=
  ∃ area', m'.shm_manager.lookup key = some area' ∧ area'.shm_size = area.shm_size ∧
    area'.buffer = area.buffer

theorem Recounts.keeps {n n' : Nat → Nat} (h : Recounts m.shm_manager n m'.shm_manager n')
    (ha : m.shm_manager.lookup key = some area) : m'.KeepsArea key area := by
  obtain ⟨d, hadjusted, _⟩ := h
  exact ⟨_, hadjusted.lookup ha, rfl, rfl⟩

/-- Only a removal takes a segment away, one that finds its count at zero. -/
theorem keeps_or_removed (ha : m.shm_manager.lookup key = some area) (hm : m.step op = .ok m') :
    m'.KeepsArea key area ∨ op = .sys_shmctl key IPC_RMID ∧ area.shm_nattch = 0 ∧
      m'.shm_manager = m.shm_manager.erase key := by
  cases op with
  | sys_shmget key' size buffer =>
    obtain ⟨⟨key', manager⟩, hget, hm⟩ := bind_eq_ok.mp hm
    cases hm
    unfold sys_shmget at hget
    split at hget
    · obtain ⟨hnone, rfl⟩ := SharedMemoryManager.create_ok hget
      refine Or.inl ⟨area, ?_, rfl, rfl⟩
      rwa [AList.lookup_insert_ne]
      rintro rfl
      cases hnone.symm.trans ha
    · cases hget
  | sys_shmat pid key' address =>
    obtain ⟨s, _, hm⟩ := bind_eq_ok.mp hm
    obtain ⟨⟨address', s', manager, ph⟩, hat, hm⟩ := bind_eq_ok.mp hm
    cases hm
    obtain ⟨r, hattach, hat⟩ := bind_eq_ok.mp hat
    cases hat
    exact Or.inl (Recounts.keeps (attach_shm_recounts hattach) ha)
  | sys_shmdt pid address =>
    obtain ⟨s, _, hm⟩ := bind_eq_ok.mp hm
    obtain ⟨⟨nattch, s', manager⟩, hdetach, hm⟩ := bind_eq_ok.mp hm
    cases hm
    exact Or.inl (Recounts.keeps (detach_shm_recounts hdetach) ha)
  | sys_shmctl key' cmd =>
    obtain ⟨manager, hctl, hm⟩ := bind_eq_ok.mp hm
    cases hm
    unfold sys_shmctl at hctl
    split at hctl
    · rename_i hcmd
      obtain ⟨area', harea, ⟨hzero, rfl⟩ | ⟨_, rfl⟩⟩ := SharedMemoryManager.remove_ok hctl
      · rcases eq_or_ne key key' with rfl | hne
        · cases harea.symm.trans ha
          exact Or.inr ⟨by rw [hcmd], hzero, rfl⟩
        · exact Or.inl ⟨area, (AList.lookup_erase_ne hne).trans ha, rfl, rfl⟩
      · exact Or.inl ⟨area, ha, rfl, rfl⟩
    · cases hctl
  | fork pid =>
    obtain ⟨s, _, hm⟩ := bind_eq_ok.mp hm
    obtain ⟨⟨par, child, manager, ph⟩, hfork, hm⟩ := bind_eq_ok.mp hm
    cases hm
    exact Or.inl (Recounts.keeps (fork_recounts hfork).2 ha)
  | exit pid =>
    obtain ⟨s, _, hm⟩ := bind_eq_ok.mp hm
    obtain ⟨⟨manager, ph⟩, hdrop, hm⟩ := bind_eq_ok.mp hm
    cases hm
    exact Or.inl (Recounts.keeps (drop_recounts hdrop) ha)

/-- The frame is one of a segment that is there. -/
def InSegment (m : ShmMachine) (ppn : Nat) : Prop :=
  ∃ key area, m.shm_manager.lookup key = some area ∧ ppn ∈ area.ppns

/-- A page table of a live address space maps the frame. -/
def Maps (m : ShmMachine) (ppn : Nat) : Prop :=
  ∃ (pid : Nat) (s : ShmSet), m.spaces[pid]? = some (some s) ∧
    ∃ v pte, s.ms.translate v = some pte ∧ pte.ppn = ppn

theorem Attached.not_maps (h : m.Attached heap) {ppn : Nat} (hheap : heap.Holds ppn)
    (hfree : ¬ m.InSegment ppn) : ¬ m.Maps ppn := by
  rintro ⟨pid, s, hs, v, pte, hv, rfl⟩
  obtain ⟨va, tracker, area, offset, _, ha, hoffset, _, hppn⟩ :=
    (h.sound pid s hs).within v pte hv hheap
  exact hfree ⟨tracker.key, area, ha, List.mem_map.mpr ⟨offset, hoffset, hppn.symm⟩⟩

/-- The frames of a removed segment are no other segment's. -/
theorem Attached.removed (h : m.Attached heap) (ha : m.shm_manager.lookup key = some area)
    (hm : m'.shm_manager = m.shm_manager.erase key) {ppn : Nat} (hppn : ppn ∈ area.ppns) :
    ¬ m'.InSegment ppn := by
  rintro ⟨key', area', ha', hppn'⟩
  rw [hm] at ha'
  obtain ⟨hne, ha'⟩ := SharedMemoryManager.lookup_erased ha'
  exact h.placed.apart key key' area area' ha ha' hne.symm ppn hppn hppn'

/-- The attach counts are exact; a segment stays until a removal that finds its count at zero, which
leaves its frames to no segment; and frames that were a segment's and are no segment's any more
are mapped nowhere. -/
theorem attach_counts_exact {text : KernelImage} {r : Nat} {ops : List MachineOp} {m : Machine}
    (hops : Guarded Machine.step Machine.Permits (Machine.boot text r) ops)
    (hm : m ∈ states Machine.step (Machine.boot text r) ops) (hheap : heap.Inside m.text)
    {acts : List ShmOp} (hacts : Guarded step heap.Permits (start m) acts) :
    ∀ t ∈ states step (start m) acts,
      t.shm_manager.Counts t.attached ∧
      (∀ op u key area, t.step op = .ok u → t.shm_manager.lookup key = some area →
        u.KeepsArea key area ∨ op = .sys_shmctl key IPC_RMID ∧ area.shm_nattch = 0 ∧
          u.shm_manager = t.shm_manager.erase key ∧ ∀ ppn ∈ area.ppns, ¬ u.InSegment ppn) ∧
      ∀ s ∈ states step (start m) acts, ∀ ppn, s.InSegment ppn → ¬ t.InSegment ppn →
        ¬ t.Maps ppn := by
  have hall := attached_states hheap (Machine.books_of_permits hops m hm) hacts
  intro t ht
  have h := hall t ht
  refine ⟨h.counts, fun op u key area hu ha => ?_, fun s hs ppn hin hfree => ?_⟩
  · refine (keeps_or_removed ha hu).imp_right ?_
    rintro ⟨hop, hzero, herase⟩
    exact ⟨hop, hzero, herase, fun ppn hppn => h.removed ha herase hppn⟩
  · obtain ⟨key, area, ha, hppn⟩ := hin
    exact h.not_maps ((hall s hs).placed.in_heap key area ha ppn hppn) hfree

/-- A segment of one page in a heap of eight, removed in vain while it is attached. -/
def attached_and_removed : List ShmOp :=
  [.sys_shmget 0 4096 0x4000, .sys_shmat 0 1 0, .sys_shmctl 1 0, .sys_shmdt 0 SHM_BASE,
    .sys_shmctl 1 0]

theorem attach_counts_exact_once : ∃ m, run Machine.step (.boot Machine.image 64)
    [.spawn Machine.one_page] = .ok m ∧ ∀ t ∈ states step (start m) attached_and_removed,
      t.shm_manager.Counts t.attached := by
  obtain ⟨m, hm, ⟨hstop, htramp, hsig⟩, hacts⟩ : ∃ m, run Machine.step (.boot Machine.image 64)
      [.spawn Machine.one_page] = .ok m ∧ (12 ≤ m.text.ekernel ∧
        ¬ KernelHeap.Holds ⟨4, 12⟩ m.text.strampoline ∧
        ¬ KernelHeap.Holds ⟨4, 12⟩ m.text.user_sigreturn) ∧
        Guarded step (KernelHeap.Permits ⟨4, 12⟩) (start m) attached_and_removed :=
    Meets.exists_ok (by decide +kernel)
  have hops : Guarded Machine.step Machine.Permits (.boot Machine.image 64)
      [.spawn Machine.one_page] := by decide +kernel
  exact ⟨m, hm, fun t ht =>
    (attach_counts_exact hops (mem_states_of_run hm) ⟨hstop, htramp, hsig⟩ hacts t ht).1⟩

end ShmMachine

end MyGOS.Mm
