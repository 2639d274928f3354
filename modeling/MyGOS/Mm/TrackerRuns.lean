import MyGOS.Mm.FrameAllocator

/-!
# Runs of allocations, shares and drops

The state is the allocator, the trackers alive and the frames `alloc_frame` has
returned so far. The counters are exact along a run precisely when no frame
gets a 256th tracker: `add_ref` wraps the `u8` there.
-/

namespace MyGOS.Mm

open StepSystem

structure TrackerState where
  allocator : StackFrameAllocator
  live : List FrameTracker
  allocated : List Nat

/-- `fromPpn` is `FrameTracker::from_ppn` and `Clone::clone`, the two ways a frame gets
one more tracker. -/
inductive TrackerOp where
  | allocFrame
  | fromPpn (ppn : Nat)
  | drop (ppn : Nat)

namespace TrackerState

def start (l r : Nat) : TrackerState where
  allocator := StackFrameAllocator.new.init l r
  live := []
  allocated := []

def step (s : TrackerState) : TrackerOp → Except Panic TrackerState
  | .allocFrame => do
    match ← s.allocator.alloc_frame with
    | none => return s
    | some (frame, a) => return ⟨a, frame :: s.live, frame.ppn :: s.allocated⟩
  | .fromPpn ppn => do
    let a ← s.allocator.add_ref ppn
    return { s with allocator := a, live := ⟨ppn⟩ :: s.live }
  | .drop ppn =>
    if ⟨ppn⟩ ∈ s.live then do
      let a ← s.allocator.dealloc ppn
      return { s with allocator := a, live := s.live.erase ⟨ppn⟩ }
    else .error .outOfBounds

/-- What exact reference counting means for a state. -/
structure RefcountExact (s : TrackerState) : Prop where
  counted : ∀ ppn, ((s.allocator.refcounter[ppn]?).getD 0).toNat = s.live.count ⟨ppn⟩
  recycled : ∀ ppn, s.allocator.recycled.count ppn =
    if ppn ∈ s.allocated ∧ ⟨ppn⟩ ∉ s.live then 1 else 0
  fresh : ∀ frame a, s.allocator.alloc_frame = .ok (some (frame, a)) → frame ∉ s.live

/-- A frame is shared only while it has fewer than 255 trackers. -/
def Sharable (s : TrackerState) : TrackerOp → Prop
  | .fromPpn ppn => s.live.count ⟨ppn⟩ < 255
  | _ => True

/-- The invariant: the allocator's books, and the frames handed out are the ones below
the bump pointer. -/
structure Books (s : TrackerState) : Prop where
  exact : Exact s.allocator fun ppn => s.live.count ⟨ppn⟩
  allocated : ∀ ppn, ppn ∈ s.allocated ↔ s.allocator.base_num ≤ ppn ∧ ppn < s.allocator.current

theorem books_start (l r : Nat) : (start l r).Books where
  exact := exact_init l r
  allocated ppn := by
    simp [start, StackFrameAllocator.init]

theorem count_cons_tracker (l : List FrameTracker) (frame : FrameTracker) (ppn : Nat) :
    (frame :: l).count ⟨ppn⟩ = l.count ⟨ppn⟩ + if ppn = frame.ppn then 1 else 0 := by
  rw [List.count_cons]
  congr 1
  refine if_congr ?_ rfl rfl
  rw [beq_iff_eq, eq_comm, FrameTracker.ext_iff]

theorem count_erase_tracker (l : List FrameTracker) (q ppn : Nat) :
    (l.erase ⟨q⟩).count ⟨ppn⟩ = l.count ⟨ppn⟩ - if ppn = q then 1 else 0 := by
  rw [List.count_erase]
  congr 1
  refine if_congr ?_ rfl rfl
  rw [beq_iff_eq, eq_comm, FrameTracker.ext_iff]

theorem Books.refcountExact {s : TrackerState} (h : s.Books) : s.RefcountExact where
  counted ppn := by
    rcases Nat.eq_zero_or_pos (s.live.count ⟨ppn⟩) with h0 | hp
    · rw [h.exact.counter_eq_none h0, h0]
      rfl
    · obtain ⟨c, hc, hlive⟩ := h.exact.counter_eq_some hp
      rw [hc]
      exact hlive
  recycled ppn := by
    rw [h.exact.nodup.count]
    have hiff : ppn ∈ s.allocator.recycled ↔ ppn ∈ s.allocated ∧ ⟨ppn⟩ ∉ s.live := by
      rw [h.exact.recycled, h.allocated, List.count_eq_zero]
    simp only [hiff]
  fresh frame a ha := List.count_eq_zero.mp (h.exact.alloc_frame ha).1

/-- `alloc` moves the bump pointer over the frame it returns, or takes a frame below it. -/
theorem alloc_current {a a' : StackFrameAllocator} {live : Nat → Nat} {frame : FrameTracker}
    (h : Exact a live) (ha : a.alloc_frame = .ok (some (frame, a'))) (ppn : Nat) :
    ppn < a'.current ∧ a.base_num ≤ ppn ↔
      ppn = frame.ppn ∨ ppn < a.current ∧ a.base_num ≤ ppn := by
  have hbase := h.base_le
  unfold StackFrameAllocator.alloc_frame StackFrameAllocator.alloc at ha
  split at ha
  · cases ha
  · rename_i q b hb
    split at hb
    · rename_i top rest hrec
      cases hb
      have htop := ((h.recycled q).mp (by simp [hrec])).1
      simp [StackFrameAllocator.add_ref, bind, Except.bind, pure, Except.pure] at ha
      obtain ⟨rfl, rfl⟩ := ha
      dsimp only
      omega
    · split at hb
      · cases hb
      · cases hb
        simp [StackFrameAllocator.add_ref, bind, Except.bind, pure, Except.pure] at ha
        obtain ⟨rfl, rfl⟩ := ha
        dsimp only
        omega

theorem dealloc_current {a a' : StackFrameAllocator} {ppn : Nat} (h : a.dealloc ppn = .ok a') :
    a'.current = a.current := by
  unfold StackFrameAllocator.dealloc at h
  split at h
  · cases h
  · split at h
    · cases h
    · split at h
      · split at h
        · cases h
        · cases h
          rfl
      · cases h
        rfl

theorem add_ref_current {a a' : StackFrameAllocator} {ppn : Nat} (h : a.add_ref ppn = .ok a') :
    a'.current = a.current ∧ a'.base_num = a.base_num := by
  unfold StackFrameAllocator.add_ref at h
  split at h
  · cases h
  · cases h
    exact ⟨rfl, rfl⟩

theorem Books.step {s t : TrackerState} {op : TrackerOp} (h : s.Books) (hop : s.Sharable op)
    (hs : s.step op = .ok t) : t.Books := by
  cases op with
  | allocFrame =>
    obtain ⟨result, halloc, hs⟩ := Outcome.bind_eq_ok.mp hs
    cases result with
    | none =>
      cases hs
      exact h
    | some p =>
      obtain ⟨frame, a⟩ := p
      cases hs
      obtain ⟨_, _, hbase, hexact⟩ := h.exact.alloc_frame halloc
      refine ⟨hexact.congr (count_cons_tracker s.live frame), ?_⟩
      intro ppn
      have hcurrent := alloc_current h.exact halloc ppn
      have hmem := h.allocated ppn
      simp only [List.mem_cons, hbase]
      tauto
  | fromPpn ppn =>
    obtain ⟨a, hadd, hs⟩ := Outcome.bind_eq_ok.mp hs
    cases hs
    obtain ⟨hcurrent, hbase⟩ := add_ref_current hadd
    refine ⟨(h.exact.add_ref hop hadd).congr (count_cons_tracker s.live ⟨ppn⟩), ?_⟩
    simpa only [hcurrent, hbase] using h.allocated
  | drop ppn =>
    simp only [TrackerState.step] at hs
    split at hs
    · rename_i hmem
      obtain ⟨a, hdrop, hs⟩ := Outcome.bind_eq_ok.mp hs
      cases hs
      obtain ⟨a', hdrop', hbase, hexact⟩ := h.exact.dealloc (List.count_pos_iff.mpr hmem)
      cases hdrop.symm.trans hdrop'
      refine ⟨hexact.congr (count_erase_tracker s.live ppn), ?_⟩
      simpa only [dealloc_current hdrop, hbase] using h.allocated
    · cases hs

theorem step_fromPpn {s : TrackerState} {ppn : Nat} {c : UInt8}
    (hc : s.allocator.refcounter[ppn]? = some c) :
    s.step (.fromPpn ppn) = .ok { s with
      allocator := { s.allocator with refcounter := s.allocator.refcounter.insert ppn (c + 1) }
      live := ⟨ppn⟩ :: s.live } := by
  simp [step, StackFrameAllocator.add_ref, hc, bind, Except.bind, pure, Except.pure]

/-- Sharing a frame a 256th time leaves a state whose counter is not exact. -/
theorem sharable_of_exact {s : TrackerState} {op : TrackerOp} (h : s.RefcountExact)
    (hnext : ∀ t, s.step op = .ok t → t.RefcountExact) : s.Sharable op := by
  cases op with
  | allocFrame => trivial
  | drop ppn => trivial
  | fromPpn ppn =>
    show s.live.count ⟨ppn⟩ < 255
    by_contra hge
    have hcount := h.counted ppn
    have hlt := ((s.allocator.refcounter[ppn]?).getD 0).toNat_lt
    cases hc : s.allocator.refcounter[ppn]? with
    | none =>
      simp [hc] at hcount
      omega
    | some c =>
      have hcount' := (hnext _ (step_fromPpn hc)).counted ppn
      have hlt' := (c + 1).toNat_lt
      simp only [Std.TreeMap.getElem?_insert_self, Option.getD_some, List.count_cons_self]
        at hcount'
      omega

/-- Along a run the books are exact exactly when no frame is shared a 256th time. -/
theorem refcount_exact_iff (l r : Nat) (ops : List TrackerOp) :
    (∀ t ∈ states step (start l r) ops, t.RefcountExact) ↔
      Guarded step Sharable (start l r) ops := by
  constructor
  · exact guarded_of_states fun s op => sharable_of_exact
  · intro hops t ht
    have hbooks := invariant Books (fun _ _ _ => Books.step) (books_start l r) hops t ht
    exact hbooks.refcountExact

/-- `n` more sharers of a frame, however many it has. -/
theorem run_shares (ppn n : Nat) (s : TrackerState) (c : UInt8)
    (hc : s.allocator.refcounter[ppn]? = some c) :
    ∃ t, run step s (List.replicate n (.fromPpn ppn)) = .ok t ∧
      t.allocator.refcounter[ppn]? = some (c + UInt8.ofNat n) ∧
      t.live.count ⟨ppn⟩ = s.live.count ⟨ppn⟩ + n := by
  induction n generalizing s c with
  | zero => exact ⟨s, rfl, by simpa using hc, rfl⟩
  | succ n ih =>
    have hstep := step_fromPpn hc
    generalize hu : TrackerState.mk _ _ _ = u at hstep
    obtain ⟨t, hrun, hcounter, hlive⟩ := ih u (c + 1) (by
      rw [← hu]
      exact Std.TreeMap.getElem?_insert_self)
    refine ⟨t, ?_, ?_, ?_⟩
    · rw [List.replicate_succ, run_cons, hstep]
      exact hrun
    · rw [hcounter, UInt8.add_assoc, UInt8.add_comm 1, UInt8.ofNat_add]
      rfl
    · rw [hlive, ← hu, List.count_cons_self]
      omega

theorem step_start : ∃ s, step (start 0 1) .allocFrame = .ok s ∧
    s.allocator.refcounter[0]? = some 1 ∧ s.live.count ⟨0⟩ = 1 :=
  ⟨_, rfl, by decide, by decide⟩

/-- One allocation and 255 shares: 256 trackers, and the counter reads 0. -/
theorem refcount_wraps :
    ¬ ∀ l r ops, ∀ t ∈ states step (start l r) ops, t.RefcountExact := by
  intro h
  obtain ⟨s, hstep, hone, hlive⟩ := step_start
  obtain ⟨t, hrun, hcounter, hcount⟩ := run_shares 0 255 s 1 hone
  have hstates : t ∈ states step (start 0 1)
      (.allocFrame :: List.replicate 255 (.fromPpn 0)) := by
    apply mem_states_of_run
    rw [run_cons, hstep]
    exact hrun
  have hexact := (h 0 1 _ t hstates).counted 0
  rw [hcounter, hcount, hlive] at hexact
  exact absurd hexact (by decide)

end TrackerState

end MyGOS.Mm
