import MyGOS.Mm.SharedPages
import MyGOS.Mm.EagerForks

/-!
# A shared segment is one memory

The programs of any number of address spaces attach segments, fork, exit and
store. A segment behaves as one array of bytes: a load through any attachment,
inherited or its own, sees the last store to that byte through any attachment.
-/

namespace MyGOS.Mm

open Outcome StepSystem

/-- What the kernel and the programs do with segments. -/
inductive ShmEvent where
  | call (op : ShmOp)
  | user_store (pid va : Nat) (byte : UInt8)

/-- The bytes of each segment, under its key and the offset. -/
abbrev Contents := Nat → Nat → UInt8

/-- `vec![0; size]` at `buffer`. -/
def Phys.zero_buffer (ph : Phys) (buffer size : Nat) : Phys :=
  { ph with bytes := fun ppn i =>
      if buffer ≤ ppn * PAGE_SIZE + i ∧ ppn * PAGE_SIZE + i < buffer + size then 0
      else ph.bytes ppn i }

namespace ShmMachine

def event (m : ShmMachine) : ShmEvent → Except Panic ShmMachine
  | .call op => do
    let m ← m.step op
    match op with
    | .sys_shmget _ size buffer =>
      return { m with ph := m.ph.zero_buffer buffer (shmget_size size) }
    | _ => return m
  | .user_store pid va byte => do
    let s ← m.space pid
    return { m with ph := (Machine.user_store s.ms m.ph va byte).getD m.ph }

/-- The byte of a segment that the address is attached to. Of an address the 39 low bits are
translated. -/
def target (m : ShmMachine) (s : ShmSet) (va : Nat) : Option (Nat × Nat) :=
  s.shm_trackers.entries.findSome? fun e =>
    match m.shm_manager.lookup e.2.key with
    | some area =>
      if e.1 ≤ va % 2 ^ 39 ∧ va % 2 ^ 39 < e.1 + area.shm_size then
        some (e.2.key, va % 2 ^ 39 - e.1)
      else none
    | none => none

/-- What an event does to the contents of the segments: a new one is zero, and a store reaches the
byte that the address is attached to. -/
def record (m : ShmMachine) (c : Contents) : ShmEvent → Contents
  | .call (.sys_shmget key size buffer) =>
    match sys_shmget m.shm_manager key size buffer with
    | .ok (key, _) => Function.update c key fun _ => 0
    | .error _ => c
  | .call _ => c
  | .user_store pid va byte =>
    match m.space pid with
    | .ok s =>
      match m.target s va with
      | some (key, i) => Function.update c key (Function.update (c key) i byte)
      | none => c
    | .error _ => c

def shared_step (t : ShmMachine × Contents) (e : ShmEvent) :
    Except Panic (ShmMachine × Contents) := do
  let m ← t.1.event e
  return (m, t.1.record t.2 e)

/-- The heap aligns a segment to pages, and a segment is attached where it fits. -/
def PermitsShared (heap : KernelHeap) (t : ShmMachine × Contents) : ShmEvent → Prop
  | .call op => heap.Permits t.1 op ∧ match op with
    | .sys_shmget _ _ buffer => page_offset buffer = 0
    | .sys_shmat pid key address => ∀ s ∈ t.1.spaces[pid]?.join,
      ∀ area ∈ t.1.shm_manager.lookup key, s.Fits area (virt_addr (s.shmat_address address))
    | _ => True
  | .user_store _ _ _ => True

/-- The frames of the segments hold the contents. -/
structure Coherent (heap : KernelHeap) (t : ShmMachine × Contents) : Prop where
  attached : t.1.Attached heap
  joined : ∀ (pid : Nat) (s : ShmSet), t.1.spaces[pid]? = some (some s) → s.Joined t.1.shm_manager
  paged : ∀ key area, t.1.shm_manager.lookup key = some area →
    page_offset area.buffer = 0 ∧ area.shm_size % PAGE_SIZE = 0
  bytes : ∀ key area, t.1.shm_manager.lookup key = some area → ∀ i < area.shm_size,
    t.1.ph.bytes (floor (area.buffer + i)) (page_offset i) = t.2 key i

section Target

variable {heap : KernelHeap} {m : ShmMachine} {s : ShmSet} {va key i x : Nat}
  {area : SharedMemoryArea}

/-- The page of a byte of a segment. -/
theorem page_mem {size : Nat} (hi : i < size) : floor i * PAGE_SIZE ∈ shm_offsets size := by
  refine List.mem_map.mpr ⟨floor i, List.mem_range.mpr ?_, rfl⟩
  unfold floor PAGE_SIZE
  omega

theorem floor_page {b : Nat} (hb : page_offset b = 0) :
    floor (b + floor i * PAGE_SIZE) = floor (b + i) := by
  unfold page_offset at hb
  unfold floor PAGE_SIZE at *
  omega

/-- A byte of an attached segment is on one of its pages. -/
theorem attached_byte (hs : s.shm_trackers.lookup va = some ⟨key⟩)
    (harea : m.shm_manager.lookup key = some area) (hi : i < area.shm_size) :
    s.AttachedPage m.shm_manager va key area (floor i * PAGE_SIZE) :=
  ⟨hs, harea, page_mem hi⟩

theorem floor_seen (x : Nat) : index (floor x) = floor (x % 2 ^ 39) := by
  unfold index floor PAGE_SIZE
  omega

theorem attached_of_target (h : m.target s x = some (key, i)) :
    ∃ va area, s.shm_trackers.lookup va = some ⟨key⟩ ∧ m.shm_manager.lookup key = some area ∧
      i < area.shm_size ∧ x % 2 ^ 39 = va + i := by
  obtain ⟨⟨va, tracker⟩, he, hr⟩ := List.exists_of_findSome?_eq_some h
  split at hr
  · next area harea =>
    split at hr
    · next hrange =>
      cases hr
      dsimp only at hrange ⊢
      exact ⟨va, area, AList.mem_lookup_iff.mpr he, harea, by omega, by omega⟩
    · cases hr
  · cases hr

/-- An attached address has one target. -/
theorem target_eq (hplaced : m.shm_manager.Placed heap) (hj : s.Joined m.shm_manager)
    (hs : s.shm_trackers.lookup va = some ⟨key⟩)
    (harea : m.shm_manager.lookup key = some area) (hi : i < area.shm_size)
    (hx : x % 2 ^ 39 = va + i) : m.target s x = some (key, i) := by
  cases htarget : m.target s x with
  | none =>
    have hmem : (⟨va, ⟨key⟩⟩ : Sigma fun _ : Nat => SharedMemoryTracker) ∈ s.shm_trackers.entries :=
      AList.mem_lookup_iff.mp hs
    have hnone := List.findSome?_eq_none_iff.mp htarget _ hmem
    rw [harea] at hnone
    dsimp only at hnone
    rw [if_pos ⟨by omega, by omega⟩] at hnone
    cases hnone
  | some r =>
    obtain ⟨key', i'⟩ := r
    obtain ⟨va', area', hs', harea', hi', hx'⟩ := attached_of_target htarget
    have hp := attached_byte hs harea hi
    have hp' := attached_byte hs' harea' hi'
    have hpage : floor (va + floor i * PAGE_SIZE) = floor (va' + floor i' * PAGE_SIZE) := by
      rw [floor_page (hj.low _ _ _ _ hp).1, floor_page (hj.low _ _ _ _ hp').1, ← hx, ← hx']
    obtain ⟨rfl, -⟩ := hj.apart hplaced hp hp' hpage
    cases hs.symm.trans hs'
    have hsame : i' = i := by omega
    rw [hsame]

/-- An attached address is mapped to its byte, for loads and for stores. -/
theorem translate_target (hj : s.Joined m.shm_manager)
    (hs : s.shm_trackers.lookup va = some ⟨key⟩)
    (harea : m.shm_manager.lookup key = some area) (hbuffer : page_offset area.buffer = 0)
    (hi : i < area.shm_size) (hx : x % 2 ^ 39 = va + i) :
    s.ms.translate (floor x) = some ⟨floor (area.buffer + i), shm_flags⟩ ∧
      page_offset x = page_offset i := by
  have hp := attached_byte hs harea hi
  obtain ⟨hva, hlow⟩ := hj.low _ _ _ _ hp
  have hpage := hj.mapped _ _ _ _ hp
  rw [floor_page hbuffer] at hpage
  refine ⟨(PageTable.find_pte_congr _ ?_).trans hpage, ?_⟩
  · rw [floor_seen, index_low hlow, floor_page hva, hx]
  · unfold page_offset PAGE_SIZE at *
    omega

/-- An address that is mapped to a frame of the heap is attached to a byte of that frame. -/
theorem target_of_heap (hplaced : m.shm_manager.Placed heap) (hj : s.Joined m.shm_manager)
    (hsound : s.Sound heap m.shm_manager)
    (hpaged : ∀ key area, m.shm_manager.lookup key = some area →
      page_offset area.buffer = 0 ∧ area.shm_size % PAGE_SIZE = 0)
    {pte : PageTableEntry} (hpte : s.ms.translate (floor x) = some pte)
    (hheap : heap.Holds pte.ppn) : ∃ key area i, m.shm_manager.lookup key = some area ∧
      i < area.shm_size ∧ m.target s x = some (key, i) ∧ pte.ppn = floor (area.buffer + i) ∧
      page_offset x = page_offset i := by
  obtain ⟨va, ⟨key⟩, area, o, ht, ha, ho, hindex, hppn⟩ := hsound.within _ pte hpte hheap
  have hp : s.AttachedPage m.shm_manager va key area o := ⟨ht, ha, ho⟩
  rw [hj.index_page hp, floor_seen] at hindex
  obtain ⟨hva, -⟩ := hj.low _ _ _ _ hp
  obtain ⟨hbuffer, hsize⟩ := hpaged key area ha
  obtain ⟨ho, holt⟩ := mem_shm_offsets ho
  have hx : x % 2 ^ 39 = va + (o + page_offset x) := by
    unfold page_offset floor PAGE_SIZE at *
    omega
  have hi : o + page_offset x < area.shm_size := by
    unfold page_offset PAGE_SIZE at *
    omega
  refine ⟨key, area, o + page_offset x, ha, hi, target_eq hplaced hj ht ha hi hx, ?_, ?_⟩
  · rw [hppn]
    unfold page_offset floor PAGE_SIZE at *
    omega
  · unfold page_offset PAGE_SIZE at *
    omega

end Target

section Steps

variable {heap : KernelHeap} {t t' : ShmMachine × Contents} {m : ShmMachine} {c : Contents}
  {manager : SharedMemoryManager} {ph : Phys} {e : ShmEvent}

theorem Attached.with_phys (h : m.Attached heap) (hph : ph.allocator = m.ph.allocator) :
    Attached heap { m with ph := ph } where
  inside := h.inside
  counts := h.counts
  placed := h.placed
  frames := by
    rw [hph]
    exact h.frames
  sound := h.sound

/-- The frame of a byte of a segment is one of the heap. -/
theorem Coherent.holds (h : Coherent heap t) {key i : Nat} {area : SharedMemoryArea}
    (harea : t.1.shm_manager.lookup key = some area) (hi : i < area.shm_size) :
    heap.Holds (floor (area.buffer + i)) := by
  rw [← floor_page (h.paged key area harea).1]
  exact h.attached.placed.in_heap key area harea _ (List.mem_map_of_mem (page_mem hi))

/-- A call that moves trackers, and no byte of the heap. -/
theorem Coherent.moved {d : Nat → Int} (h : Coherent heap (m, c))
    {spaces : List (Option ShmSet)} (hattached : Attached heap ⟨m.text, ph, manager, spaces⟩)
    (ha : m.shm_manager.Adjusted d manager)
    (hspaces : ∀ (pid : Nat) (s : ShmSet), spaces[pid]? = some (some s) →
      (∃ q : Nat, m.spaces[q]? = some (some s)) ∨ s.Joined manager)
    (hbytes : ∀ q, heap.Holds q → ph.bytes q = m.ph.bytes q) :
    Coherent heap (⟨m.text, ph, manager, spaces⟩, c) where
  attached := hattached
  joined pid s hs := by
    obtain ⟨q, hq⟩ | hj := hspaces pid s hs
    · exact (h.joined q s hq).adjusted ha
    · exact hj
  paged key area hkey := by
    obtain ⟨area₀, h₀, rfl⟩ := ha.of_lookup hkey
    exact h.paged key area₀ h₀
  bytes key area hkey i hi := by
    obtain ⟨area₀, h₀, rfl⟩ := ha.of_lookup hkey
    exact (congrFun (hbytes _ (h.holds h₀ hi)) _).trans (h.bytes key area₀ h₀ i hi)

theorem zero_buffer_bytes {buffer size q j : Nat} (hj : j < PAGE_SIZE)
    (hbuffer : page_offset buffer = 0) (hq : q ∉ SharedMemoryArea.ppns ⟨size, 0, buffer⟩) :
    (ph.zero_buffer buffer size).bytes q j = ph.bytes q j := by
  refine if_neg fun hrange => hq ?_
  have hi : q * PAGE_SIZE + j - buffer < size := by omega
  have hpage : floor (buffer + floor (q * PAGE_SIZE + j - buffer) * PAGE_SIZE) = q := by
    rw [floor_page hbuffer]
    unfold floor PAGE_SIZE at *
    omega
  exact List.mem_map.mpr ⟨_, page_mem hi, hpage⟩

theorem zero_buffer_zero {buffer size i : Nat} (hbuffer : page_offset buffer = 0) (hi : i < size) :
    (ph.zero_buffer buffer size).bytes (floor (buffer + i)) (page_offset i) = 0 := by
  refine if_pos ?_
  unfold page_offset at hbuffer
  unfold page_offset floor PAGE_SIZE at *
  omega

/-- A new segment is no part of the others, and nobody is attached to it. -/
theorem Coherent.created (h : Coherent heap (m, c)) {key size buffer : Nat}
    (hgrants : heap.Grants m.shm_manager size buffer) (hbuffer : page_offset buffer = 0)
    (hsize : size % PAGE_SIZE = 0) (hnone : m.shm_manager.lookup key = none)
    (hattached : Attached heap { m with
      shm_manager := m.shm_manager.insert key ⟨size, 0, buffer⟩ }) :
    Coherent heap ({ m with
      ph := m.ph.zero_buffer buffer size
      shm_manager := m.shm_manager.insert key ⟨size, 0, buffer⟩ },
      Function.update c key fun _ => 0) where
  attached := hattached.with_phys rfl
  joined pid s hs := by
    have hj := h.joined pid s hs
    have hold {va key' o : Nat} {area : SharedMemoryArea}
        (hp : s.AttachedPage (m.shm_manager.insert key ⟨size, 0, buffer⟩) va key' area o) :
        s.AttachedPage m.shm_manager va key' area o := by
      obtain ⟨rfl, -⟩ | ⟨-, harea⟩ := SharedMemoryManager.lookup_created hnone hp.segment
      · have hzero := h.attached.counts.gone key' hnone
        have hle := attached_le key' hs
        exact absurd rfl (ShmSet.key_ne hp.tracker
          (Nat.le_zero.mp (hle.trans (Nat.le_of_eq hzero))))
      · exact ⟨hp.tracker, harea, hp.offset_mem⟩
    exact ⟨fun _ _ _ _ hp => hj.low _ _ _ _ (hold hp),
      fun _ _ _ _ hp => hj.mapped _ _ _ _ (hold hp),
      fun _ _ _ _ hp => hj.listed _ _ _ _ (hold hp),
      fun _ _ _ _ hp => hj.aside _ _ _ _ (hold hp)⟩
  paged key' area hkey := by
    obtain ⟨-, rfl⟩ | ⟨-, hkey⟩ := SharedMemoryManager.lookup_created hnone hkey
    · exact ⟨hbuffer, hsize⟩
    · exact h.paged key' area hkey
  bytes key' area hkey i hi := by
    obtain ⟨rfl, rfl⟩ | ⟨hne, hkey⟩ := SharedMemoryManager.lookup_created hnone hkey
    · dsimp only
      rw [Function.update_self]
      exact zero_buffer_zero hbuffer hi
    · dsimp only
      rw [Function.update_of_ne hne]
      refine (zero_buffer_bytes (Nat.mod_lt _ (by decide)) hbuffer fun hppn => ?_).trans
        (h.bytes key' area hkey i hi)
      refine (hgrants _ hppn).2 ⟨key', area⟩ (AList.mem_lookup_iff.mp hkey) ?_
      rw [← floor_page (h.paged key' area hkey).1]
      exact List.mem_map_of_mem (page_mem hi)

theorem Coherent.erased (h : Coherent heap (m, c)) (key : Nat)
    (hattached : Attached heap { m with shm_manager := m.shm_manager.erase key }) :
    Coherent heap ({ m with shm_manager := m.shm_manager.erase key }, c) where
  attached := hattached
  joined pid s hs := by
    have hj := h.joined pid s hs
    have hold {va key' o : Nat} {area : SharedMemoryArea}
        (hp : s.AttachedPage (m.shm_manager.erase key) va key' area o) :
        s.AttachedPage m.shm_manager va key' area o :=
      ⟨hp.tracker, (SharedMemoryManager.lookup_erased hp.segment).2, hp.offset_mem⟩
    exact ⟨fun _ _ _ _ hp => hj.low _ _ _ _ (hold hp),
      fun _ _ _ _ hp => hj.mapped _ _ _ _ (hold hp),
      fun _ _ _ _ hp => hj.listed _ _ _ _ (hold hp),
      fun _ _ _ _ hp => hj.aside _ _ _ _ (hold hp)⟩
  paged key' area hkey := h.paged key' area (SharedMemoryManager.lookup_erased hkey).2
  bytes key' area hkey := h.bytes key' area (SharedMemoryManager.lookup_erased hkey).2

/-- A store to a byte of a segment, through whatever attachment. -/
theorem Coherent.stored (h : Coherent heap (m, c)) {key i : Nat} {area : SharedMemoryArea}
    (harea : m.shm_manager.lookup key = some area) (hi : i < area.shm_size) (byte : UInt8) :
    Coherent heap ({ m with
      ph := m.ph.write (floor (area.buffer + i)) (page_offset i) [byte] },
      Function.update c key (Function.update (c key) i byte)) where
  attached := h.attached.with_phys rfl
  joined := h.joined
  paged := h.paged
  bytes key' area' harea' i' hi' := by
    have hbuffer := (h.paged key area harea).1
    have hold := h.bytes key' area' harea' i' hi'
    have hwrite : (m.ph.write (floor (area.buffer + i)) (page_offset i) [byte]).bytes
        (floor (area'.buffer + i')) (page_offset i') =
        if floor (area'.buffer + i') = floor (area.buffer + i) ∧ page_offset i' = page_offset i
        then byte else m.ph.bytes (floor (area'.buffer + i')) (page_offset i') := by
      unfold Phys.write
      dsimp only
      rcases eq_or_ne (floor (area'.buffer + i')) (floor (area.buffer + i)) with heq | hne
      · rw [heq, Function.update_self]
        rcases lt_trichotomy (page_offset i') (page_offset i) with hlt | heq' | hgt
        · rw [if_neg (by omega), if_neg (by omega)]
        · rw [if_pos heq'.ge, heq', Nat.sub_self, if_pos ⟨rfl, rfl⟩]
          rfl
        · rw [if_pos (by omega), if_neg (by omega), List.getElem?_eq_none]
          · rfl
          · simp only [List.length_singleton]
            omega
      · rw [Function.update_of_ne hne, if_neg fun h => hne h.1]
    refine hwrite.trans ?_
    dsimp only at hold ⊢
    rcases eq_or_ne key' key with rfl | hkey
    · cases harea.symm.trans harea'
      rw [Function.update_self]
      rcases eq_or_ne i' i with rfl | hne
      · rw [Function.update_self, if_pos ⟨rfl, rfl⟩]
      · rw [Function.update_of_ne hne, if_neg]
        · exact hold
        · rintro ⟨hfloor, hoffset⟩
          refine hne ?_
          unfold page_offset at hbuffer
          unfold page_offset floor PAGE_SIZE at *
          omega
    · rw [Function.update_of_ne hkey, if_neg]
      · exact hold
      · rintro ⟨hfloor, -⟩
        refine h.attached.placed.apart key' key area' area harea' harea hkey
          (floor (area'.buffer + i')) ?_ ?_
        · rw [← floor_page (h.paged key' area' harea').1]
          exact List.mem_map_of_mem (page_mem hi')
        · rw [hfloor, ← floor_page hbuffer]
          exact List.mem_map_of_mem (page_mem hi)

theorem Coherent.call {op : ShmOp} {m' : ShmMachine} (h : Coherent heap (m, c))
    (hp : PermitsShared heap (m, c) (.call op)) (hm : m.event (.call op) = .ok m') :
    Coherent heap (m', m.record c (.call op)) := by
  obtain ⟨m₁, hstep, hm⟩ := bind_eq_ok.mp hm
  have hattached := h.attached.step hp.1 hstep
  have hput {pid : Nat} {t : Option ShmSet} {manager : SharedMemoryManager}
      (hspaces : ∀ s' ∈ t, s'.Joined manager) (q : Nat) (s' : ShmSet)
      (hq : (m.spaces.set pid t)[q]? = some (some s')) :
      (∃ q : Nat, m.spaces[q]? = some (some s')) ∨ s'.Joined manager := by
    rw [List.getElem?_set] at hq
    split at hq
    · split at hq
      · exact Or.inr (hspaces s' (Option.some.inj hq))
      · cases hq
    · exact Or.inl ⟨q, hq⟩
  cases op with
  | sys_shmget key size buffer =>
    cases hm
    obtain ⟨⟨key', manager⟩, hget, hstep⟩ := bind_eq_ok.mp hstep
    cases hstep
    have hrecord : m.record c (.call (.sys_shmget key size buffer)) =
        Function.update c key' fun _ => 0 := by
      rw [record, hget]
    rw [hrecord]
    unfold sys_shmget at hget
    split at hget
    · obtain ⟨hnone, rfl⟩ := SharedMemoryManager.create_ok hget
      refine h.created hp.1 hp.2 ?_ hnone hattached
      exact Nat.mul_mod_left _ _
    · cases hget
  | sys_shmat pid key address =>
    cases hm
    obtain ⟨s, hs, hstep⟩ := bind_eq_ok.mp hstep
    obtain ⟨⟨address', s', manager, ph⟩, hat, hstep⟩ := bind_eq_ok.mp hstep
    cases hstep
    obtain ⟨r, hattach, hat⟩ := bind_eq_ok.mp hat
    cases hat
    have hs := space_ok hs
    have hfits := hp.2 s (Option.join_eq_some_iff.mpr hs)
    obtain ⟨d, ha, -⟩ := attach_shm_recounts hattach
    refine h.moved hattached ha (hput fun s₁ hs₁ => ?_) fun q hq =>
      attach_shm_bytes h.attached.inside h.attached.frames hattach hq
    cases hs₁
    exact attach_shm_joined (h.joined pid s hs) hfits hattach
  | sys_shmdt pid address =>
    cases hm
    obtain ⟨s, hs, hstep⟩ := bind_eq_ok.mp hstep
    obtain ⟨⟨nattch, s', manager⟩, hdetach, hstep⟩ := bind_eq_ok.mp hstep
    cases hstep
    obtain ⟨d, ha, -⟩ := detach_shm_recounts hdetach
    refine h.moved hattached ha (hput fun s₁ hs₁ => ?_) fun q _ => rfl
    cases hs₁
    exact detach_shm_joined (h.joined pid s (space_ok hs)) h.attached.placed hdetach
  | sys_shmctl key cmd =>
    cases hm
    obtain ⟨manager, hctl, hstep⟩ := bind_eq_ok.mp hstep
    cases hstep
    unfold sys_shmctl at hctl
    split at hctl
    · obtain ⟨area, -, ⟨-, rfl⟩ | ⟨-, rfl⟩⟩ := SharedMemoryManager.remove_ok hctl
      · exact h.erased key hattached
      · exact h
    · cases hctl
  | fork pid =>
    cases hm
    obtain ⟨s, hs, hstep⟩ := bind_eq_ok.mp hstep
    obtain ⟨⟨par, child, manager, ph⟩, hfork, hstep⟩ := bind_eq_ok.mp hstep
    cases hstep
    have hs := space_ok hs
    obtain ⟨-, d, ha, -⟩ := fork_recounts hfork
    obtain ⟨hpar, hchild, hbytes⟩ := fork_joined h.attached.inside (h.attached.sound pid s hs)
      (h.joined pid s hs) h.attached.frames hfork
    refine h.moved hattached ha (fun q s' hq => ?_) hbytes
    rw [List.getElem?_append] at hq
    split at hq
    · refine @hput pid (some par) _ (fun s₁ hs₁ => ?_) q s' hq
      cases hs₁
      exact hpar
    · rw [List.getElem?_singleton] at hq
      split at hq
      · cases hq
        exact Or.inr hchild
      · cases hq
  | exit pid =>
    cases hm
    obtain ⟨s, hs, hstep⟩ := bind_eq_ok.mp hstep
    obtain ⟨⟨manager, ph⟩, hdrop, hstep⟩ := bind_eq_ok.mp hstep
    cases hstep
    obtain ⟨d, ha, -⟩ := drop_recounts hdrop
    refine h.moved hattached ha (hput fun s₁ hs₁ => by cases hs₁) fun q _ => ?_
    obtain ⟨ph₁, hspace, hdrop⟩ := bind_eq_ok.mp hdrop
    obtain ⟨m₁, -, hdrop⟩ := bind_eq_ok.mp hdrop
    cases hdrop
    exact congrFun (drop_space_bytes hspace) q

theorem Coherent.user_store {pid va : Nat} {byte : UInt8} {m' : ShmMachine}
    (h : Coherent heap (m, c)) (hm : m.event (.user_store pid va byte) = .ok m') :
    Coherent heap (m', m.record c (.user_store pid va byte)) := by
  obtain ⟨s, hspace, hm⟩ := bind_eq_ok.mp hm
  cases hm
  have hs := space_ok hspace
  have hj := h.joined pid s hs
  rw [record, hspace]
  dsimp only
  cases htarget : m.target s va with
  | some r =>
    obtain ⟨key, i⟩ := r
    obtain ⟨va', area, htracker, harea, hi, hx⟩ := attached_of_target htarget
    obtain ⟨hpte, hoffset⟩ :=
      translate_target hj htracker harea (h.paged key area harea).1 hi hx
    have hstore : Machine.user_store s.ms m.ph va byte =
        some (m.ph.write (floor (area.buffer + i)) (page_offset i) [byte]) := by
      rw [Machine.user_store, hpte, ← hoffset]
      rfl
    rw [hstore]
    exact h.stored harea hi byte
  | none =>
    dsimp only
    cases hstore : Machine.user_store s.ms m.ph va byte with
    | none => exact h
    | some ph =>
      unfold Machine.user_store at hstore
      split at hstore
      · next pte hpte =>
        split at hstore
        · cases hstore
          have hfree : ¬ heap.Holds pte.ppn := fun hheap => by
            obtain ⟨key, area, i, -, -, hsome, -⟩ := target_of_heap h.attached.placed hj
              (h.attached.sound pid s hs) h.paged hpte hheap
            cases htarget.symm.trans hsome
          refine ⟨h.attached.with_phys rfl, h.joined, h.paged, fun key area harea i hi => ?_⟩
          refine (congrFun (Function.update_of_ne ?_ _ _) _).trans (h.bytes key area harea i hi)
          intro heq
          exact hfree (heq ▸ h.holds harea hi)
        · cases hstore
      · cases hstore

theorem Coherent.step (h : Coherent heap t) (hp : PermitsShared heap t e)
    (ht : shared_step t e = .ok t') : Coherent heap t' := by
  obtain ⟨m, hm, ht⟩ := bind_eq_ok.mp ht
  cases ht
  cases e with
  | call op => exact h.call hp hm
  | user_store pid va byte => exact h.user_store hm

theorem coherent_start {m : Machine} (hheap : heap.Inside m.text) (h : Books 0 m) :
    Coherent heap (start m, fun _ _ => 0) := by
  refine ⟨attached_start hheap h, fun pid s hs => ?_, fun key area hkey => ?_,
    fun key area hkey => ?_⟩
  · have hempty : s.shm_trackers = ∅ := by
      rw [start, List.getElem?_map] at hs
      obtain ⟨t, -, hs⟩ := Option.map_eq_some_iff.mp hs
      obtain ⟨ms, rfl, rfl⟩ := Option.map_eq_some_iff.mp hs
      rfl
    have hnone {va key o : Nat} {area : SharedMemoryArea}
        (hp : s.AttachedPage (start m).shm_manager va key area o) : False := by
      have htracker := hp.tracker
      rw [hempty] at htracker
      cases htracker
    exact ⟨fun _ _ _ _ hp => (hnone hp).elim, fun _ _ _ _ hp => (hnone hp).elim,
      fun _ _ _ _ hp => (hnone hp).elim, fun _ _ _ _ hp => (hnone hp).elim⟩
  · cases hkey
  · cases hkey

end Steps

end ShmMachine

section Decide

/-- The first page from the start of the range on that has the index. -/
theorem index_range_iff {r : VPNRange} {i : Nat} : (∃ vpn ∈ r, index vpn = i) ↔
    i < 2 ^ 27 ∧ r.start + (i + 2 ^ 27 - r.start % 2 ^ 27) % 2 ^ 27 < r.end_ := by
  constructor
  · rintro ⟨vpn, hvpn, rfl⟩
    obtain ⟨hge, hlt⟩ := VPNRange.mem_def.mp hvpn
    unfold index
    omega
  · rintro ⟨hi, hlt⟩
    refine ⟨_, VPNRange.mem_def.mpr ⟨Nat.le_add_right _ _, hlt⟩, ?_⟩
    unfold index
    omega

instance decidableIndexRange (r : VPNRange) (i : Nat) : Decidable (∃ vpn ∈ r, index vpn = i) :=
  decidable_of_iff _ index_range_iff.symm

theorem mmap_valid_iff {ms : MemorySet} {i : Nat} : ms.MmapValid i ↔
    ∃ e ∈ ms.mmap_manager.mmap_map.toList, e.2.valid = true ∧ index e.1 = i := by
  constructor
  · rintro ⟨vpn, page, hpage, h⟩
    exact ⟨(vpn, page), Std.TreeMap.mem_toList_iff_getElem?_eq_some.mpr hpage, h⟩
  · rintro ⟨⟨vpn, page⟩, he, h⟩
    exact ⟨vpn, page, Std.TreeMap.mem_toList_iff_getElem?_eq_some.mp he, h⟩

instance decidableForks (ms : MemorySet) (i : Nat) : Decidable (ms.Forks i) :=
  decidable_of_iff (((∃ area ∈ ms.map_areas.map VmArea.from_another,
    True ∧ ∃ vpn ∈ area.vpn_range, index vpn = i) ∨
      (∃ vpn ∈ ms.user_stack_areas.vpn_range, index vpn = i) ∨
        ∃ vpn ∈ ms.heap_areas.vpn_range, index vpn = i) ∨
    ∃ e ∈ ms.mmap_manager.mmap_map.toList, e.2.valid = true ∧ index e.1 = i)
    (or_congr_right mmap_valid_iff.symm)

instance decidableFits (s : ShmSet) (area : SharedMemoryArea) (va : Nat) :
    Decidable (s.Fits area va) :=
  decidable_of_iff (va + area.shm_size < 2 ^ 39 ∧
    ∀ o ∈ shm_offsets area.shm_size, ¬ s.ms.Forks (floor (va + o)))
    ⟨fun h => ⟨h.1, h.2⟩, fun h => ⟨h.low, h.aside⟩⟩

instance decidablePermitsShared (heap : KernelHeap) (t : ShmMachine × Contents) (e : ShmEvent) :
    Decidable (ShmMachine.PermitsShared heap t e) :=
  match e with
  | .call (.sys_shmget _ _ _) | .call (.sys_shmat _ _ _) => inferInstanceAs (Decidable (_ ∧ _))
  | .call (.sys_shmdt _ _) | .call (.sys_shmctl _ _) | .call (.fork _) | .call (.exit _) =>
    inferInstanceAs (Decidable (_ ∧ True))
  | .user_store _ _ _ => inferInstanceAs (Decidable True)

end Decide

namespace ShmMachine

/-- Two programs attach a segment, and one of them stores to its second byte. -/
def store_for_another : List ShmEvent :=
  [.call (.sys_shmget 0 4096 0x4000), .call (.sys_shmat 0 1 0), .call (.sys_shmat 1 1 0),
    .user_store 1 (SHM_BASE + 1) 7]

end ShmMachine

end MyGOS.Mm
