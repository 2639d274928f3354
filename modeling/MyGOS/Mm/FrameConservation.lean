import MyGOS.Mm.MappingSafety
import Mathlib.Data.Finset.Card
import Mathlib.Order.Interval.Finset.Nat

/-!
# No frame is lost

Each frame the allocator handed out has a tracker or waits in the recycled list. The
trackers of an address space go with it, so a machine on which nothing is left has
all its frames back, and memory runs out only where every frame has an owner.
-/

namespace MyGOS.Mm

open Outcome StepSystem

namespace Owned

variable {a : StackFrameAllocator} {M : Multiset Nat} {ppn : Nat}

theorem mem_recycled (h : Owned a M) :
    ppn ∈ a.recycled ↔ (a.base_num ≤ ppn ∧ ppn < a.current) ∧ ppn ∉ M := by
  rw [Exact.recycled h ppn, Multiset.count_eq_zero]

theorem mem_iff (h : Owned a M) :
    ppn ∈ M ↔ (a.base_num ≤ ppn ∧ ppn < a.current) ∧ ppn ∉ a.recycled := by
  constructor
  · intro hp
    have hrange := Exact.inRange h ppn (Multiset.count_pos.mpr hp)
    exact ⟨hrange, fun hrec => (h.mem_recycled.mp hrec).2 hp⟩
  · rintro ⟨hrange, hrec⟩
    by_contra hp
    exact hrec (h.mem_recycled.mpr ⟨hrange, hp⟩)

/-- The frames handed out are the recycled ones and those with a tracker. -/
theorem handed_out (h : Owned a M) :
    a.recycled.length + M.toFinset.card = a.current - a.base_num := by
  have hdisjoint : Disjoint a.recycled.toFinset M.toFinset := by
    rw [Finset.disjoint_left]
    intro p hp hM
    exact (h.mem_recycled.mp (List.mem_toFinset.mp hp)).2 (Multiset.mem_toFinset.mp hM)
  have hunion : a.recycled.toFinset ∪ M.toFinset = Finset.Ico a.base_num a.current := by
    ext p
    rw [Finset.mem_union, List.mem_toFinset, Multiset.mem_toFinset, Finset.mem_Ico, h.mem_iff]
    constructor
    · rintro (hp | ⟨hrange, -⟩)
      · exact (h.mem_recycled.mp hp).1
      · exact hrange
    · intro hrange
      exact (em (p ∈ a.recycled)).imp_right fun hp => ⟨hrange, hp⟩
  rw [← Nat.card_Ico, ← hunion, Finset.card_union_of_disjoint hdisjoint,
    List.toFinset_card_of_nodup (Exact.nodup h)]

/-- An allocation fails only where each frame of the memory has a tracker. -/
theorem mem_of_alloc_none (h : Owned a M) (hnone : a.alloc = none) (hbase : a.base_num ≤ ppn)
    (hend : ppn < a.end_) : ppn ∈ M := by
  unfold StackFrameAllocator.alloc at hnone
  split at hnone
  · cases hnone
  next hrec =>
    split at hnone
    next hcurrent =>
      rw [h.mem_iff, hrec, hcurrent]
      exact ⟨⟨hbase, hend⟩, List.not_mem_nil⟩
    · cases hnone

/-- With no tracker left, all frames handed out are recycled and no counter is kept. -/
theorem all_recycled (h : Owned a 0) :
    a.recycled.Perm (List.range' a.base_num (a.current - a.base_num)) ∧
      ∀ p : Nat, a.refcounter[p]? = none := by
  have hbase := Exact.base_le h
  have hnodup := Exact.nodup h
  refine ⟨(List.perm_ext_iff_of_nodup hnodup List.nodup_range').mpr fun p => ?_, fun p => ?_⟩
  · rw [h.mem_recycled, and_iff_left (Multiset.notMem_zero p), List.mem_range'_1]
    omega
  · exact Exact.counter_eq_none h (Multiset.count_zero p)

end Owned

namespace Machine

/-- Neither an address space nor the kernel holds a frame. -/
def Vacant (m : Machine) : Prop := (∀ space ∈ m.spaces, space = none) ∧ m.held = []

instance : DecidablePred Vacant := fun _ => inferInstanceAs (Decidable (_ ∧ _))

theorem Vacant.live {m : Machine} (h : m.Vacant) : m.live = 0 := by
  have hspaces : ∀ owned ∈ m.spaces.map owned_of, owned = 0 := by
    intro owned howned
    obtain ⟨space, hspace, rfl⟩ := List.mem_map.mp howned
    rw [h.1 space hspace]
    rfl
  rw [Machine.live, spaces_owned, List.sum_eq_zero hspaces, held_owned, h.2]
  rfl

/-- The allocator has every frame that is in no address space. -/
structure Conserves (m : Machine) : Prop where
  handed_out : m.ph.allocator.recycled.length + m.live.toFinset.card =
    m.ph.allocator.current - m.text.ekernel
  exhausted : m.ph.allocator.alloc = none → ∀ ppn, m.text.ekernel ≤ ppn →
    ppn < m.ph.allocator.end_ → ppn ∈ m.live
  vacant : m.Vacant →
    m.ph.allocator.recycled.Perm
      (List.range' m.text.ekernel (m.ph.allocator.current - m.text.ekernel)) ∧
    ∀ p : Nat, m.ph.allocator.refcounter[p]? = none

end Machine

theorem Books.conserves {m : Machine} (h : Books 0 m) : m.Conserves := by
  have howned : Owned m.ph.allocator m.live := by
    have hbooks := h.owned
    rwa [zero_add] at hbooks
  have hbase := h.base
  refine ⟨?_, fun hnone ppn hle => ?_, fun hvacant => ?_⟩
  · rw [howned.handed_out, hbase]
  · exact howned.mem_of_alloc_none hnone (hbase.le.trans hle)
  · rw [hvacant.live] at howned
    rw [← hbase]
    exact howned.all_recycled

namespace Machine

variable {text : KernelImage} {r : Nat} {ops : List MachineOp}

/-- No run of steps that drop no trackers of mapped pages and wrap no counter loses a frame. -/
theorem frames_conserved (hops : Guarded step Permits (boot text r) ops) :
    ∀ m ∈ states step (boot text r) ops, m.Conserves :=
  fun m hm => (books_of_permits hops m hm).conserves

def load_touch_exit : List MachineOp :=
  [.spawn one_page, .sys_mmap 0 0 4096 3 0x22 none 0, .check_lazy 0 MMAP_BASE, .hold, .exit 0,
    .release 26]

/-- A process that got frames for its tables and its pages, and gave them back. -/
theorem frames_conserved_exit : Guarded step Permits (boot image 64) load_touch_exit ∧
    ∃ m, run step (boot image 64) load_touch_exit = .ok m ∧ m.Vacant ∧
      2 < m.ph.allocator.recycled.length ∧ m.Conserves := by
  have hguarded : Guarded step Permits (boot image 64) load_touch_exit := by decide +kernel
  have hrun : Meets (run step (boot image 64) load_touch_exit) (fun _ => False)
      fun m => m.Vacant ∧ 2 < m.ph.allocator.recycled.length := by decide +kernel
  obtain ⟨m, hm, hvacant, hlen⟩ := hrun.exists_ok
  exact ⟨hguarded, m, hm, hvacant, hlen, frames_conserved hguarded m (mem_states_of_run hm)⟩

end Machine

end MyGOS.Mm
