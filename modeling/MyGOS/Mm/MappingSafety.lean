import MyGOS.Mm.ResidentPages

/-!
# What holds in every state

The two safety properties of user mappings: pages are backed by trackers of
their own address space, and a frame with several trackers is nowhere
writable. Both hold along runs of permitted steps.
-/

namespace MyGOS.Mm

open Outcome StepSystem

namespace Machine

theorem boot_books (text : KernelImage) (r : Nat) : Books 0 (boot text r) where
  owned := exact_init text.ekernel r
  base := rfl
  tracked pid ms h := by
    simp [boot] at h

theorem boot_cow (text : KernelImage) (r : Nat) : Cow 0 (boot text r) := by
  constructor
  · intro pid ms h
    simp [boot] at h
  · intro pid ms h
    simp [boot] at h

variable {text : KernelImage} {r : Nat} {ops : List MachineOp}

/-- Every state of a permitted run. -/
theorem books_of_permits (hops : Guarded step Permits (boot text r) ops) :
    ∀ m ∈ states step (boot text r) ops, Books 0 m :=
  invariant (Books 0) (fun _ op _ h hp hm => ((step_meets h op hp).of_ok hm).1)
    (boot_books text r) hops

theorem cow_of_permits (hops : Guarded step PermitsCow (boot text r) ops) :
    ∀ m ∈ states step (boot text r) ops, Books 0 m ∧ Cow 0 m := by
  refine invariant (fun m => Books 0 m ∧ Cow 0 m) ?_ ⟨boot_books text r, boot_cow text r⟩ hops
  rintro m op m' ⟨hbooks, hcow⟩ hp hm
  obtain ⟨hbooks', hcow'⟩ := (step_meets hbooks op hp.1).of_ok hm
  exact ⟨hbooks', hcow' hp hcow⟩

/-- A valid entry other than a trampoline has a tracker of its address space under its index; so
its frame is not free, and no allocation gives it away. -/
def NoDangling (m : Machine) : Prop :=
  ∀ (pid : Nat) (ms : MemorySet), m.spaces[pid]? = some (some ms) →
    ∀ v pte, ms.translate v = some pte → ¬ IsTrampoline m.text v pte →
      (index v, pte.ppn) ∈ ms.slots ∧ pte.ppn ∉ m.ph.allocator.recycled ∧
        ∀ frame a, m.ph.allocator.alloc_frame = .ok (some (frame, a)) → frame.ppn ≠ pte.ppn

end Machine

theorem Books.noDangling {m : Machine} (h : Books 0 m) : m.NoDangling := by
  intro pid ms hms v pte hv htramp
  have hslot := ((h.tracked pid ms hms).mapped v pte hv).resolve_left htramp
  have hlive : pte.ppn ∈ m.live := by
    rw [Machine.live_split hms]
    exact Multiset.mem_add.mpr (Or.inl (mem_owned_of_slots hslot))
  have howned := h.owned
  rw [zero_add] at howned
  refine ⟨hslot, fun hrec => ?_, fun frame a ha heq => ?_⟩
  · have hzero := ((howned.recycled pte.ppn).mp hrec).2
    exact Multiset.count_eq_zero.mp hzero hlive
  · exact (howned.alloc_frame ha).1 (heq ▸ hlive)

namespace Machine

variable {text : KernelImage} {r : Nat} {ops : List MachineOp}

/-- A small kernel and a program of one page, for the runs below. -/
def image : KernelImage := ⟨1, 2, 16, by decide, by decide⟩

def zeros : File := ⟨true, true, 0, fun _ _ => true, fun _ len => List.replicate len 0⟩

def one_page : ElfFile := ⟨zeros, [⟨0x10000, 0x1000, 0, 0, true, true, false⟩], none⟩

/-- The page `vpn` of the first process satisfies `Q`. -/
def ShowsPage (m : Machine) (vpn : Nat) (Q : PageTableEntry → Prop) : Prop :=
  ∃ ms ∈ m.spaces[0]?.join, ∃ pte ∈ ms.translate vpn, Q pte

instance (m : Machine) (vpn : Nat) (Q : PageTableEntry → Prop) [DecidablePred Q] :
    Decidable (m.ShowsPage vpn Q) :=
  inferInstanceAs (Decidable (∃ ms ∈ m.spaces[0]?.join, ∃ pte ∈ ms.translate vpn, Q pte))

/-- No step of the run drops trackers of pages that stay mapped, or wraps a counter. -/
theorem no_dangling (hops : Guarded step Permits (boot text r) ops) :
    ∀ m ∈ states step (boot text r) ops, m.NoDangling :=
  fun m hm => (books_of_permits hops m hm).noDangling

/-- A touched page keeps its entry after `munmap`, and its frame is free. -/
theorem munmap_dangles : ∃ m, run step (boot image 64) [.spawn one_page,
    .sys_mmap 0 0 4096 3 0x22 none 0, .check_lazy 0 MMAP_BASE, .sys_munmap 0 MMAP_BASE 4096] =
      .ok m ∧ ¬ m.NoDangling := by
  obtain ⟨m, hm, ms, hms, pte, hpte, hrec, hle⟩ : ∃ m, run step (boot image 64) [.spawn one_page,
      .sys_mmap 0 0 4096 3 0x22 none 0, .check_lazy 0 MMAP_BASE, .sys_munmap 0 MMAP_BASE 4096] =
        .ok m ∧ m.ShowsPage (floor MMAP_BASE) fun pte =>
          pte.ppn ∈ m.ph.allocator.recycled ∧ m.text.ekernel ≤ pte.ppn :=
    Meets.exists_ok (by decide +kernel)
  refine ⟨m, hm, fun hsafe => ?_⟩
  have htramp : ¬ IsTrampoline m.text (floor MMAP_BASE) pte := fun h => by
    have := h.lt
    omega
  exact (hsafe 0 ms (Option.join_eq_some_iff.mp hms) _ pte hpte htramp).2.1 hrec

def unmap_elsewhere : List MachineOp :=
  [.spawn one_page, .sys_mmap 0 0 4096 3 0x22 none 0, .check_lazy 0 MMAP_BASE,
    .sys_mmap 0 0 4096 3 0x22 none 0, .sys_munmap 0 (MMAP_BASE + 4096) 4096]

/-- Touching a page, and unmapping another one. -/
theorem no_dangling_elsewhere : Guarded step Permits (boot image 64) unmap_elsewhere ∧
    ∀ m ∈ states step (boot image 64) unmap_elsewhere, m.NoDangling := by
  have hguarded : Guarded step Permits (boot image 64) unmap_elsewhere := by decide +kernel
  exact ⟨hguarded, no_dangling hguarded⟩

/-- A frame with several trackers is mapped without the W bit everywhere. -/
def NoSharedWritable (m : Machine) : Prop :=
  ∀ (pid : Nat) (ms : MemorySet), m.spaces[pid]? = some (some ms) →
    ∀ v pte, ms.translate v = some pte → 1 < m.live.count pte.ppn → pte.writable = false

theorem no_shared_writable (hops : Guarded step PermitsCow (boot text r) ops) :
    ∀ m ∈ states step (boot text r) ops, m.NoSharedWritable := by
  intro m hm pid ms hms v pte hv hmany
  have hcow := (cow_of_permits hops m hm).2
  rw [← Bool.not_eq_true]
  intro hw
  have hone := hcow.alone pid ms hms v pte hv hw
  rw [zero_add] at hone
  omega

/-- A fork of a process with one page, and two things the kernel does to the page afterwards. -/
theorem forked_page : ∃ m, run step (boot image 64) [.spawn one_page, .fork 0] = .ok m ∧
    Meets (m.step (.sys_mprotect 0 0x10000 0x1000 3)) (fun _ => False) (fun m' =>
      m'.ShowsPage 0x10 fun pte => 1 < m'.live.count pte.ppn ∧ pte.writable = true) ∧
    ∃ parent ∈ m.spaces[0]?.join, ∃ child ∈ m.spaces[1]?.join,
      Meets (translated_bytes_buffer parent m.ph 0x10000 1) (fun _ => False) fun r =>
        child.view (write_slices r.2.2 r.1 [1]) 0x10000 ≠ child.view m.ph 0x10000 := by
  rw [step_eq]
  exact Meets.exists_ok (by decide +kernel)

/-- After a fork the parent's page is shared, and `mprotect` makes it writable again. -/
theorem mprotect_shares : ∃ m, run step (boot image 64) [.spawn one_page, .fork 0,
    .sys_mprotect 0 0x10000 0x1000 3] = .ok m ∧ ¬ m.NoSharedWritable := by
  obtain ⟨m, hm, hmeets, _⟩ := forked_page
  obtain ⟨m', hm', ms, hms, pte, hpte, hmany, hw⟩ := hmeets.exists_ok
  refine ⟨m', ?_, fun hsafe => ?_⟩
  · have hsplit := @run_append _ _ _ step _ _ _ hm [.sys_mprotect 0 0x10000 0x1000 3]
    rw [run_cons, hm'] at hsplit
    exact hsplit
  · rw [hsafe 0 ms (Option.join_eq_some_iff.mp hms) _ pte hpte hmany] at hw
    cases hw

def protect_alone : List MachineOp :=
  [.spawn one_page, .sys_mmap 0 0 4096 1 0x22 none 0, .check_lazy 0 MMAP_BASE,
    .sys_mprotect 0 MMAP_BASE 4096 3]

/-- A page that nobody shares may become writable. -/
theorem no_shared_writable_alone : Guarded step PermitsCow (boot image 64) protect_alone ∧
    ∀ m ∈ states step (boot image 64) protect_alone, m.NoSharedWritable := by
  have hguarded : Guarded step PermitsCow (boot image 64) protect_alone := by decide +kernel
  exact ⟨hguarded, no_shared_writable hguarded⟩

end Machine

end MyGOS.Mm
