import MyGOS.Mm.FrameAllocator
import Mathlib.Data.Multiset.Count
import Mathlib.Algebra.Order.Group.Multiset
import Mathlib.Logic.Function.Basic

/-!
# Physical memory

The frame allocator together with the bytes of the frames. `Owned` is exactness
of the allocator against the multiset of frames that have a tracker, once for
each tracker. `Moves` is what an operation on some of the trackers may do to
physical memory, with the other trackers as a frame.
-/

namespace MyGOS.Mm

structure Phys where
  allocator : StackFrameAllocator
  bytes : Nat → Nat → UInt8

namespace Phys

/-- `alloc_frame().unwrap()`; `FrameTracker::new` zeroes the page. -/
def alloc_frame (ph : Phys) : Except Panic (FrameTracker × Phys) := do
  match ← ph.allocator.alloc_frame with
  | none => .error .outOfMemory
  | some (frame, allocator) =>
    .ok (frame, ⟨allocator, Function.update ph.bytes frame.ppn fun _ => 0⟩)

/-- `FrameTracker::from_ppn`. -/
def from_ppn (ph : Phys) (ppn : Nat) : Except Panic (FrameTracker × Phys) := do
  let allocator ← ph.allocator.add_ref ppn
  return (⟨ppn⟩, { ph with allocator := allocator })

/-- `Drop` of a tracker. -/
def drop (ph : Phys) (frame : FrameTracker) : Except Panic Phys := do
  let allocator ← ph.allocator.dealloc frame.ppn
  return { ph with allocator := allocator }

/-- `ppn.as_bytes_array()[offset..offset + data.len()].copy_from_slice(data)`. -/
def write (ph : Phys) (ppn offset : Nat) (data : List UInt8) : Phys :=
  { ph with bytes := Function.update ph.bytes ppn fun i =>
      if offset ≤ i then (data[i - offset]?).getD (ph.bytes ppn i) else ph.bytes ppn i }

/-- `dst.as_bytes_array().copy_from_slice(src.as_bytes_array())`. -/
def copy (ph : Phys) (dst src : Nat) : Phys :=
  { ph with bytes := Function.update ph.bytes dst (ph.bytes src) }

end Phys

def Owned (a : StackFrameAllocator) (M : Multiset Nat) : Prop := Exact a fun p => M.count p

namespace Owned

variable {a a' : StackFrameAllocator} {M : Multiset Nat} {ppn : Nat}

theorem count_le (h : Owned a M) (ppn : Nat) : M.count ppn ≤ 255 := h.live_le ppn

theorem base_le (h : Owned a M) (hp : ppn ∈ M) : a.base_num ≤ ppn :=
  (h.inRange ppn (Multiset.count_pos.mpr hp)).1

theorem enquire_ref (h : Owned a M) (hp : ppn ∈ M) : a.enquire_ref ppn = .ok (M.count ppn) :=
  Exact.enquire_ref h (Multiset.count_pos.mpr hp)

theorem enquire_ref_eq (h : Owned a M) {n : Nat} (hn : a.enquire_ref ppn = .ok n) :
    n = M.count ppn ∧ ppn ∈ M := by
  obtain ⟨rfl, hpos⟩ := Exact.enquire_ref_eq h hn
  exact ⟨rfl, Multiset.count_pos.mp hpos⟩

theorem alloc_frame (h : Owned a M) {frame : FrameTracker}
    (ha : a.alloc_frame = .ok (some (frame, a'))) :
    frame.ppn ∉ M ∧ a.base_num ≤ frame.ppn ∧ a'.base_num = a.base_num ∧
      Owned a' (frame.ppn ::ₘ M) := by
  obtain ⟨hzero, hle, hbase, hexact⟩ := Exact.alloc_frame h ha
  refine ⟨Multiset.count_eq_zero.mp hzero, hle, hbase, hexact.congr fun q => ?_⟩
  exact Multiset.count_cons q frame.ppn M

theorem add_ref (h : Owned a M) (hlt : M.count ppn < 255) (ha : a.add_ref ppn = .ok a') :
    ppn ∈ M ∧ a'.base_num = a.base_num ∧ Owned a' (ppn ::ₘ M) := by
  refine ⟨?_, ?_, (Exact.add_ref h hlt ha).congr fun q => Multiset.count_cons q ppn M⟩
  · unfold StackFrameAllocator.add_ref at ha
    split at ha
    · cases ha
    · rename_i c hc
      exact Multiset.count_pos.mp (Exact.live_of_counter h hc).2
  · unfold StackFrameAllocator.add_ref at ha
    split at ha
    · cases ha
    · cases ha
      rfl

theorem add_ref_ok (h : Owned a M) (hp : ppn ∈ M) : ∃ a', a.add_ref ppn = .ok a' :=
  Exact.add_ref_ok h (Multiset.count_pos.mpr hp)

theorem dealloc (h : Owned a (ppn ::ₘ M)) :
    ∃ a', a.dealloc ppn = .ok a' ∧ a'.base_num = a.base_num ∧ Owned a' M := by
  obtain ⟨a', hd, hbase, hexact⟩ := Exact.dealloc h (by simp : 0 < (ppn ::ₘ M).count ppn)
  refine ⟨a', hd, hbase, hexact.congr fun q => ?_⟩
  rw [Multiset.count_cons]
  omega

end Owned

/-- An operation that turns the trackers `O` into `O'` while others hold `E`. -/
structure Moves (E O O' : Multiset Nat) (ph ph' : Phys) : Prop where
  owned : Owned ph'.allocator (O' + E)
  base : ph'.allocator.base_num = ph.allocator.base_num

namespace Moves

variable {E F O O' O'' : Multiset Nat} {ph ph' ph'' : Phys}

theorem refl (h : Owned ph.allocator (O + E)) : Moves E O O ph ph := ⟨h, rfl⟩

theorem trans (h : Moves E O O' ph ph') (h' : Moves E O' O'' ph' ph'') : Moves E O O'' ph ph'' :=
  ⟨h'.owned, h'.base.trans h.base⟩

/-- Trackers that an operation leaves alone may be counted with its own. -/
theorem frame (h : Moves (F + E) O O' ph ph') : Moves E (O + F) (O' + F) ph ph' where
  owned := by
    rw [add_assoc]
    exact h.owned
  base := h.base

end Moves

/-- No frame gets a second tracker, or one more where it has several. -/
def Calm (M M' : Multiset Nat) : Prop := ∀ p, M'.count p ≤ max (M.count p) 1

namespace Calm

variable {M M' M'' : Multiset Nat} {ppn : Nat}

theorem refl (M : Multiset Nat) : Calm M M := fun _ => Nat.le_max_left _ _

theorem trans (h : Calm M M') (h' : Calm M' M'') : Calm M M'' := by
  intro p
  have hp := h p
  have hp' := h' p
  omega

theorem of_le (h : M' ≤ M) : Calm M M' := fun p =>
  (Multiset.count_le_of_le p h).trans (Nat.le_max_left _ _)

theorem cons (h : ppn ∉ M) : Calm M (ppn ::ₘ M) := by
  intro p
  rw [Multiset.count_cons]
  split
  · rename_i heq
    rw [heq, Multiset.count_eq_zero.mpr h]
    exact Nat.le_max_right _ _
  · exact Nat.le_max_left _ _

end Calm

/-- The bytes of the frames `M`, and of those below the allocator's, stay the same. -/
def Quiet (M : Multiset Nat) (ph ph' : Phys) : Prop :=
  ∀ q, q ∈ M ∨ q < ph.allocator.base_num → ph'.bytes q = ph.bytes q

namespace Quiet

variable {M M' : Multiset Nat} {ph ph' ph'' : Phys} {ppn : Nat}

theorem refl (M : Multiset Nat) (ph : Phys) : Quiet M ph ph := fun _ _ => rfl

theorem mono (h : Quiet M ph ph') (hM : ∀ q ∈ M', q ∈ M) : Quiet M' ph ph' :=
  fun q hq => h q (hq.imp_left (hM q))

theorem trans (h : Quiet M ph ph') (h' : Quiet M ph' ph'')
    (hbase : ph'.allocator.base_num = ph.allocator.base_num) : Quiet M ph ph'' :=
  fun q hq => (h' q (by rwa [hbase])).trans (h q hq)

theorem of_update (hfresh : ppn ∉ M) (hbase : ph.allocator.base_num ≤ ppn)
    (hbytes : ∀ q, q ≠ ppn → ph'.bytes q = ph.bytes q) : Quiet M ph ph' := by
  intro q hq
  refine hbytes q ?_
  rintro rfl
  rcases hq with hq | hq
  · exact hfresh hq
  · omega

end Quiet

namespace Phys

open Outcome

variable {E O M : Multiset Nat} {ph : Phys}

/-- The only way an allocation stops is that there is no frame left. -/
theorem alloc_frame_meets (h : Owned ph.allocator M) :
    Meets ph.alloc_frame (· = .outOfMemory) fun r =>
      r.1.ppn ∉ M ∧ ph.allocator.base_num ≤ r.1.ppn ∧
        r.2.allocator.base_num = ph.allocator.base_num ∧ Owned r.2.allocator (r.1.ppn ::ₘ M) ∧
        r.2.bytes = Function.update ph.bytes r.1.ppn fun _ => 0 := by
  unfold Phys.alloc_frame
  cases ha : ph.allocator.alloc_frame with
  | error e =>
    unfold StackFrameAllocator.alloc_frame StackFrameAllocator.alloc at ha
    split at ha
    · cases ha
    · rename_i ppn b hb
      have hcounter : b.refcounter[ppn]? = some 0 := by
        split at hb
        · cases hb
          exact Std.TreeMap.getElem?_insert_self
        · split at hb
          · cases hb
          · cases hb
            exact Std.TreeMap.getElem?_insert_self
      simp [StackFrameAllocator.add_ref, hcounter, bind, Except.bind, pure, Except.pure] at ha
  | ok r =>
    cases r with
    | none => exact (rfl : Panic.outOfMemory = _)
    | some r =>
      obtain ⟨hfresh, hle, hbase, howned⟩ := h.alloc_frame ha
      exact ⟨hfresh, hle, hbase, howned, rfl⟩

theorem alloc_frame_moves (h : Owned ph.allocator (O + E)) :
    Meets ph.alloc_frame (· = .outOfMemory) fun r =>
      r.1.ppn ∉ O + E ∧ ph.allocator.base_num ≤ r.1.ppn ∧
        Moves E O (r.1.ppn ::ₘ O) ph r.2 ∧ Calm (O + E) (r.1.ppn ::ₘ O + E) ∧
        Quiet (O + E) ph r.2 := by
  refine (alloc_frame_meets h).mono ?_
  rintro ⟨frame, ph'⟩ ⟨hfresh, hle, hbase, howned, hbytes⟩
  rw [Multiset.cons_add]
  refine ⟨hfresh, hle, ⟨?_, hbase⟩, Calm.cons hfresh, Quiet.of_update hfresh hle fun q hq => ?_⟩
  · rwa [Multiset.cons_add]
  · rw [hbytes, Function.update_of_ne hq]

theorem from_ppn_meets (h : Owned ph.allocator M) {ppn : Nat} (hlt : M.count ppn < 255) :
    Meets (ph.from_ppn ppn) (fun _ => ppn ∉ M) fun r =>
      r.1 = ⟨ppn⟩ ∧ ppn ∈ M ∧ r.2.allocator.base_num = ph.allocator.base_num ∧
        Owned r.2.allocator (ppn ::ₘ M) ∧ r.2.bytes = ph.bytes := by
  unfold Phys.from_ppn
  cases ha : ph.allocator.add_ref ppn with
  | error e =>
    intro hmem
    obtain ⟨a, hok⟩ := h.add_ref_ok hmem
    cases ha.symm.trans hok
  | ok a =>
    obtain ⟨hmem, hbase, howned⟩ := h.add_ref hlt ha
    exact ⟨rfl, hmem, hbase, howned, rfl⟩

theorem drop_spec {frame : FrameTracker} (h : Owned ph.allocator (frame.ppn ::ₘ M)) :
    ∃ ph', ph.drop frame = .ok ph' ∧ ph'.allocator.base_num = ph.allocator.base_num ∧
      Owned ph'.allocator M ∧ ph'.bytes = ph.bytes := by
  obtain ⟨a, hd, hbase, howned⟩ := h.dealloc
  refine ⟨{ ph with allocator := a }, ?_, hbase, howned, rfl⟩
  rw [Phys.drop, hd]
  rfl

end Phys

end MyGOS.Mm
