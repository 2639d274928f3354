import MyGOS.Basic
import MyGOS.Lib.StepSystem
import Mathlib.Tactic.Linarith

/-!
# The frame allocator and its reference counters

`StackFrameAllocator` hands out physical frames and counts the `FrameTracker`s
alive on each of them in a `u8`. The kernel is built in release mode, where the
increment of `add_ref` wraps. `Exact` says that the allocator's books agree
with the trackers; every operation keeps it as long as no counter wraps.
-/

namespace MyGOS.Mm

/-- A `FrameTracker` is one reference to a frame; dropping it calls `dealloc_frame`. -/
@[ext]
structure FrameTracker where
  ppn : Nat
deriving DecidableEq, Repr

/-- The end of the source's `recycled` vector, where it pushes and pops, is the head here. -/
structure StackFrameAllocator where
  base_num : Nat
  end_ : Nat
  current : Nat
  recycled : List Nat
  refcounter : Std.TreeMap Nat UInt8

namespace StackFrameAllocator

def new : StackFrameAllocator where
  base_num := 0
  end_ := 0
  current := 0
  recycled := []
  refcounter := ∅

def init (a : StackFrameAllocator) (l r : Nat) : StackFrameAllocator :=
  { a with current := l, end_ := r, base_num := l }

def alloc (a : StackFrameAllocator) : Option (Nat × StackFrameAllocator) :=
  match a.recycled with
  | ppn :: recycled =>
    some (ppn, { a with recycled := recycled, refcounter := a.refcounter.insert ppn 0 })
  | [] =>
    if a.current = a.end_ then none
    else some (a.current,
      { a with current := a.current + 1, refcounter := a.refcounter.insert a.current 0 })

def dealloc (a : StackFrameAllocator) (ppn : Nat) : Except Panic StackFrameAllocator :=
  match a.refcounter[ppn]? with
  | none => .error (.noReference ppn)
  | some ref_times =>
    if ref_times = 0 then .error (.noReference ppn)
    else if ref_times - 1 = 0 then
      if a.current ≤ ppn ∨ ppn ∈ a.recycled then .error (.notAllocated ppn)
      else .ok { a with
        refcounter := a.refcounter.erase ppn
        recycled := ppn :: a.recycled }
    else .ok { a with refcounter := a.refcounter.insert ppn (ref_times - 1) }

/-- `*ref_times += 1` on a `u8`. -/
def add_ref (a : StackFrameAllocator) (ppn : Nat) : Except Panic StackFrameAllocator :=
  match a.refcounter[ppn]? with
  | none => .error (.noReference ppn)
  | some ref_times => .ok { a with refcounter := a.refcounter.insert ppn (ref_times + 1) }

def enquire_ref (a : StackFrameAllocator) (ppn : Nat) : Except Panic Nat :=
  match a.refcounter[ppn]? with
  | none => .error (.noReference ppn)
  | some ref_times => .ok ref_times.toNat

/-- `alloc_frame`, less the zeroing of the page: `alloc`, then `FrameTracker::new`. -/
def alloc_frame (a : StackFrameAllocator) :
    Except Panic (Option (FrameTracker × StackFrameAllocator)) :=
  match a.alloc with
  | none => .ok none
  | some (ppn, a') => do
    let a'' ← a'.add_ref ppn
    return some (⟨ppn⟩, a'')

end StackFrameAllocator

/-- The allocator's books agree with the number `live ppn` of trackers alive on each frame:
counted frames are the ones with a tracker, the recycled list holds each frame handed out
before that has none. -/
structure Exact (a : StackFrameAllocator) (live : Nat → Nat) : Prop where
  counted : ∀ ppn, (a.refcounter[ppn]?).map UInt8.toNat =
    if live ppn = 0 then none else some (live ppn)
  recycled : ∀ ppn, ppn ∈ a.recycled ↔ (a.base_num ≤ ppn ∧ ppn < a.current) ∧ live ppn = 0
  nodup : a.recycled.Nodup
  inRange : ∀ ppn, 0 < live ppn → a.base_num ≤ ppn ∧ ppn < a.current
  base_le : a.base_num ≤ a.current

namespace Exact

variable {a a' : StackFrameAllocator} {live live' : Nat → Nat} {ppn : Nat}

theorem congr (h : Exact a live) (hl : ∀ q, live' q = live q) : Exact a live' := by
  rwa [show live' = live from funext hl]

theorem counter_eq_some (h : Exact a live) (hp : 0 < live ppn) :
    ∃ c, a.refcounter[ppn]? = some c ∧ c.toNat = live ppn := by
  have hc := h.counted ppn
  rw [if_neg (by omega)] at hc
  exact Option.map_eq_some_iff.mp hc

theorem counter_eq_none (h : Exact a live) (hp : live ppn = 0) : a.refcounter[ppn]? = none := by
  have hc := h.counted ppn
  rw [if_pos hp] at hc
  exact Option.map_eq_none_iff.mp hc

theorem live_of_counter (h : Exact a live) {c : UInt8} (hc : a.refcounter[ppn]? = some c) :
    c.toNat = live ppn ∧ 0 < live ppn := by
  have hcount := h.counted ppn
  rw [hc] at hcount
  split at hcount
  · cases hcount
  · exact ⟨Option.some.inj hcount, by omega⟩

/-- A counter is a `u8`, so exact books bound the trackers of a frame. -/
theorem live_le (h : Exact a live) (ppn : Nat) : live ppn ≤ 255 := by
  rcases Nat.eq_zero_or_pos (live ppn) with h0 | hp
  · omega
  · obtain ⟨c, _, hc⟩ := h.counter_eq_some hp
    have hlt := c.toNat_lt
    omega

theorem enquire_ref (h : Exact a live) (hp : 0 < live ppn) :
    a.enquire_ref ppn = .ok (live ppn) := by
  obtain ⟨c, hc, hlive⟩ := h.counter_eq_some hp
  simp [StackFrameAllocator.enquire_ref, hc, hlive]

theorem enquire_ref_eq (h : Exact a live) {n : Nat} (hn : a.enquire_ref ppn = .ok n) :
    n = live ppn ∧ 0 < n := by
  unfold StackFrameAllocator.enquire_ref at hn
  split at hn
  · cases hn
  · rename_i c hc
    cases hn
    have hl := h.live_of_counter hc
    omega

/-- A new sharer of a frame that has one. -/
theorem add_ref (h : Exact a live) (hb : live ppn < 255) (ha : a.add_ref ppn = .ok a') :
    Exact a' (fun q => live q + if q = ppn then 1 else 0) := by
  unfold StackFrameAllocator.add_ref at ha
  split at ha
  · cases ha
  · rename_i c hc
    cases ha
    obtain ⟨hlive, hpos⟩ := h.live_of_counter hc
    have hadd : (c + 1).toNat = live ppn + 1 := by
      rw [UInt8.toNat_add, hlive]
      simp
      omega
    refine ⟨?_, ?_, h.nodup, ?_, h.base_le⟩
    · intro q
      by_cases hq : q = ppn
      · subst hq
        simp [hadd]
      · have hcount := h.counted q
        simpa [Std.TreeMap.getElem?_insert, Ne.symm hq, hq] using hcount
    · intro q
      by_cases hq : q = ppn
      · subst hq
        simp [h.recycled q]
        omega
      · simp [h.recycled q, hq]
    · intro q hlq
      by_cases hq : q = ppn
      · subst hq
        exact h.inRange q hpos
      · exact h.inRange q (by simpa [hq] using hlq)

theorem add_ref_ok (h : Exact a live) (hp : 0 < live ppn) : ∃ a', a.add_ref ppn = .ok a' := by
  obtain ⟨c, hc, _⟩ := h.counter_eq_some hp
  simp [StackFrameAllocator.add_ref, hc]

/-- The frame `alloc` picks has no tracker, and the books are exact once it has one. -/
theorem alloc_frame (h : Exact a live) {frame : FrameTracker}
    (ha : a.alloc_frame = .ok (some (frame, a'))) :
    live frame.ppn = 0 ∧ a.base_num ≤ frame.ppn ∧ a'.base_num = a.base_num ∧
      Exact a' (fun q => live q + if q = frame.ppn then 1 else 0) := by
  unfold StackFrameAllocator.alloc_frame StackFrameAllocator.alloc at ha
  split at ha
  · cases ha
  · rename_i ppn b hb
    simp only [StackFrameAllocator.add_ref] at ha
    split at hb
    · rename_i top rest hrec
      cases hb
      have htop := (h.recycled ppn).mp (by simp [hrec])
      have hnodup : ppn ∉ rest ∧ rest.Nodup := List.nodup_cons.mp (hrec ▸ h.nodup)
      simp [bind, Except.bind, pure, Except.pure] at ha
      obtain ⟨rfl, rfl⟩ := ha
      refine ⟨htop.2, htop.1.1, rfl, ?_, ?_, hnodup.2, ?_, h.base_le⟩
      · intro q
        have hcount := h.counted q
        by_cases hq : q = ppn
        · subst hq
          simp [htop.2]
        · simpa [Std.TreeMap.getElem?_insert, Ne.symm hq, hq] using hcount
      · intro q
        have hmem := h.recycled q
        rw [hrec, List.mem_cons] at hmem
        by_cases hq : q = ppn
        · subst hq
          simp [hnodup.1]
        · simpa [hq] using hmem
      · intro q hlq
        by_cases hq : q = ppn
        · subst hq
          exact htop.1
        · exact h.inRange q (by simpa [hq] using hlq)
    · rename_i hrec
      split at hb
      · cases hb
      · cases hb
        have hzero : live a.current = 0 := by
          rcases Nat.eq_zero_or_pos (live a.current) with h0 | hp
          · exact h0
          · have := h.inRange _ hp
            omega
        simp [bind, Except.bind, pure, Except.pure] at ha
        obtain ⟨rfl, rfl⟩ := ha
        have hbase := h.base_le
        refine ⟨hzero, hbase, rfl, ?_, ?_, h.nodup, ?_, ?_⟩
        · intro q
          have hcount := h.counted q
          by_cases hq : q = a.current
          · subst hq
            simp [hzero]
          · simpa [Std.TreeMap.getElem?_insert, Ne.symm hq, hq] using hcount
        · intro q
          have hmem := h.recycled q
          rw [hrec] at hmem ⊢
          by_cases hq : q = a.current
          · simp [hq]
          · simp only [List.not_mem_nil, false_iff, hq, ite_false, Nat.add_zero] at hmem ⊢
            omega
        · intro q hlq
          by_cases hq : q = a.current
          · subst hq
            exact ⟨hbase, Nat.lt_succ_self _⟩
          · have := h.inRange q (by simpa [hq] using hlq)
            exact ⟨this.1, by simp only; omega⟩
        · exact Nat.le_succ_of_le hbase

/-- Dropping a tracker of a frame that has one. -/
theorem dealloc (h : Exact a live) (hp : 0 < live ppn) :
    ∃ a', a.dealloc ppn = .ok a' ∧ a'.base_num = a.base_num ∧
      Exact a' (fun q => live q - if q = ppn then 1 else 0) := by
  obtain ⟨c, hc, hlive⟩ := h.counter_eq_some hp
  have hc0 : c ≠ 0 := by
    rintro rfl
    simp at hlive
    omega
  have hsub : (c - 1).toNat = live ppn - 1 := by
    have h1 : (1 : UInt8) ≤ c := by
      rw [UInt8.le_iff_toNat_le]
      simp
      omega
    rw [UInt8.toNat_sub_of_le _ _ h1, hlive]
    rfl
  have hrange := h.inRange ppn hp
  have hnot : ppn ∉ a.recycled := by
    intro hmem
    have := ((h.recycled ppn).mp hmem).2
    omega
  by_cases hlast : c - 1 = 0
  · have h1 : live ppn = 1 := by
      rw [hlast] at hsub
      simp at hsub
      omega
    have hrun : a.dealloc ppn = .ok { a with
        refcounter := a.refcounter.erase ppn
        recycled := ppn :: a.recycled } := by
      simp only [StackFrameAllocator.dealloc, hc, if_neg hc0, if_pos hlast]
      rw [if_neg (by
        rintro (hle | hmem)
        · omega
        · exact hnot hmem)]
    refine ⟨_, hrun, rfl, ?_⟩
    refine ⟨?_, ?_, List.nodup_cons.mpr ⟨hnot, h.nodup⟩, ?_, h.base_le⟩
    · intro q
      have hcount := h.counted q
      by_cases hq : q = ppn
      · subst hq
        simp [h1]
      · simpa [Std.TreeMap.getElem?_erase, Ne.symm hq, hq] using hcount
    · intro q
      by_cases hq : q = ppn
      · subst hq
        simp [h1, hrange]
      · simp [h.recycled q, hq]
    · intro q hlq
      exact h.inRange q (by omega)
  · have hrun : a.dealloc ppn =
        .ok { a with refcounter := a.refcounter.insert ppn (c - 1) } := by
      simp only [StackFrameAllocator.dealloc, hc, if_neg hc0, if_neg hlast]
    have h2 : 1 < live ppn := by
      rcases Nat.lt_or_ge 1 (live ppn) with h2 | h2
      · exact h2
      · exact absurd (UInt8.toNat_inj.mp (by rw [hsub]; simp; omega)) hlast
    refine ⟨_, hrun, rfl, ?_⟩
    refine ⟨?_, ?_, h.nodup, ?_, h.base_le⟩
    · intro q
      have hcount := h.counted q
      by_cases hq : q = ppn
      · subst hq
        simp [hsub]
        omega
      · simpa [Std.TreeMap.getElem?_insert, Ne.symm hq, hq] using hcount
    · intro q
      by_cases hq : q = ppn
      · subst hq
        simp [h.recycled q]
        omega
      · simp [h.recycled q, hq]
    · intro q hlq
      exact h.inRange q (by omega)

end Exact

theorem exact_init (l r : Nat) : Exact (StackFrameAllocator.new.init l r) fun _ => 0 := by
  refine ⟨?_, ?_, List.nodup_nil, ?_, Nat.le_refl _⟩
  · intro ppn
    simp [StackFrameAllocator.new, StackFrameAllocator.init]
  · intro ppn
    simp [StackFrameAllocator.new, StackFrameAllocator.init]
  · intro ppn h
    omega

end MyGOS.Mm
