import MyGOS.Lib.StepSystem
import MyGOS.Mm.Address
import Mathlib.Data.List.Nodup

/-!
# The pages of trap contexts

`fork` gives a new task a slot below `TRAP_CONTEXT_BASE`: the difference between
its pid and its `tgid`, which for a thread is the pid of its creator. The slots
of an address space are never unmapped, and a copy has them too.
-/

namespace MyGOS.Task

open Mm Outcome StepSystem

/-- `trap_context_position`, as a page. -/
def trap_context_position (tid : Nat) : Nat :=
  floor (virt_addr (TRAP_CONTEXT_BASE - tid * PAGE_SIZE))

theorem index_trap_context_position {tid : Nat} (h : tid < THREAD_LIMIT) :
    index (trap_context_position tid) = 2 ^ 27 - 3 - tid := by
  have hhigh : ¬ TRAP_CONTEXT_BASE - tid * PAGE_SIZE < 2 ^ 39 := by
    simp only [TRAP_CONTEXT_BASE, SIGNAL_TRAMPOLINE, TRAMPOLINE, PAGE_SIZE, THREAD_LIMIT] at *
    omega
  rw [trap_context_position, virt_addr, if_neg hhigh]
  simp only [floor, index, TRAP_CONTEXT_BASE, SIGNAL_TRAMPOLINE, TRAMPOLINE, PAGE_SIZE,
    THREAD_LIMIT] at *
  omega

/-- The slots have different pages. -/
theorem trap_context_position_inj {tid tid' : Nat} (h : tid < THREAD_LIMIT) (h' : tid' < THREAD_LIMIT)
    (heq : index (trap_context_position tid) = index (trap_context_position tid')) : tid = tid' := by
  rw [index_trap_context_position h, index_trap_context_position h'] at heq
  simp only [THREAD_LIMIT] at h h'
  omega

/-- The areas of an address space that hold trap contexts, and their frames. -/
structure TrapPages where
  areas : List Nat
  frames : Nat → Option Nat

namespace TrapPages

/-- `new_bare`, as far as trap contexts go. -/
def empty : TrapPages := ⟨[], fun _ => none⟩

/-- `insert_and_map` of the area of one page, with the frame it takes. -/
def insert_and_map (s : TrapPages) (vpn frame : Nat) : Except Panic TrapPages :=
  if (s.frames (index vpn)).isSome then .error (.mappedBefore vpn)
  else .ok ⟨s.areas ++ [vpn], Function.update s.frames (index vpn) (some frame)⟩

def translate (s : TrapPages) (vpn : Nat) : Option Nat := s.frames (index vpn)

/-- The areas that `from_copy_on_write` copies, each to a frame of its own. -/
def copy_areas : List Nat → TrapPages → (frame : Nat) → Except Panic (TrapPages × Nat)
  | [], s, frame => .ok (s, frame)
  | vpn :: vpns, s, frame => do
    let s ← s.insert_and_map vpn frame
    copy_areas vpns s (frame + 1)

/-- Each area has a frame of its own below `frame`, and there are no other frames. -/
structure Wf (s : TrapPages) (frame : Nat) : Prop where
  nodup : (s.areas.map index).Nodup
  mapped : ∀ i, s.frames i ≠ none ↔ i ∈ s.areas.map index
  own : ∀ i j f, s.frames i = some f → s.frames j = some f → i = j
  below : ∀ i f, s.frames i = some f → f < frame

variable {s : TrapPages} {frame vpn : Nat} {vpns : List Nat}

theorem Wf.mono (h : s.Wf frame) {frame' : Nat} (hle : frame ≤ frame') : s.Wf frame' :=
  ⟨h.nodup, h.mapped, h.own, fun i f hf => Nat.lt_of_lt_of_le (h.below i f hf) hle⟩

theorem Wf.empty (frame : Nat) : TrapPages.empty.Wf frame := by
  constructor
  · exact List.nodup_nil
  · intro i
    simp [TrapPages.empty]
  · intro i j f hf
    cases hf
  · intro i f hf
    cases hf

theorem Wf.insert_fails (h : s.Wf frame) (hvpn : index vpn ∈ s.areas.map index) :
    s.insert_and_map vpn frame = .error (.mappedBefore vpn) := by
  rw [insert_and_map, if_pos]
  rw [Option.isSome_iff_ne_none]
  exact (h.mapped _).mpr hvpn

theorem Wf.insert_meets (h : s.Wf frame) (hvpn : index vpn ∉ s.areas.map index) :
    Meets (s.insert_and_map vpn frame) (fun _ => False) fun t => t.Wf (frame + 1) ∧
      t.areas = s.areas ++ [vpn] ∧ ∀ i, i ∈ s.areas.map index → t.frames i = s.frames i := by
  have hnone : s.frames (index vpn) = none := by
    by_contra hne
    exact hvpn ((h.mapped _).mp hne)
  rw [insert_and_map, hnone]
  refine ⟨⟨?_, fun i => ?_, fun i j f hi hj => ?_, fun i f hi => ?_⟩, rfl, fun i hi => ?_⟩
  · rw [List.map_append, List.nodup_append]
    refine ⟨h.nodup, List.nodup_singleton _, ?_⟩
    rintro i hi j hj rfl
    rw [List.map_singleton, List.mem_singleton] at hj
    exact hvpn (hj ▸ hi)
  · simp only [Function.update_apply, List.map_append, List.map_singleton, List.mem_append,
      List.mem_singleton]
    split
    · next heq => simp [heq]
    · next hne =>
      rw [h.mapped]
      simp [hne]
  · simp only [Function.update_apply] at hi hj
    split at hi <;> split at hj
    · next hi' hj' => rw [hi', hj']
    · cases hi
      exact absurd (h.below j frame hj) (Nat.lt_irrefl _)
    · cases hj
      exact absurd (h.below i frame hi) (Nat.lt_irrefl _)
    · exact h.own i j f hi hj
  · simp only [Function.update_apply] at hi
    split at hi
    · cases hi
      exact Nat.lt_succ_self frame
    · exact Nat.lt_succ_of_lt (h.below i f hi)
  · have hne : i ≠ index vpn := by
      rintro rfl
      exact hvpn hi
    exact Function.update_of_ne hne ..

/-- The copies of areas that do not overlap. -/
theorem Wf.copy_areas_meets (h : s.Wf frame) (hvpns : ((s.areas ++ vpns).map index).Nodup) :
    Meets (copy_areas vpns s frame) (fun _ => False) fun r => r.1.Wf r.2 ∧ frame ≤ r.2 ∧
      r.1.areas = s.areas ++ vpns := by
  induction vpns generalizing s frame with
  | nil => exact ⟨h, Nat.le_refl frame, (List.append_nil _).symm⟩
  | cons vpn vpns ih =>
    have hsplit : s.areas ++ vpn :: vpns = (s.areas ++ [vpn]) ++ vpns := by
      rw [List.append_assoc, List.singleton_append]
    have hnew : index vpn ∉ s.areas.map index := by
      intro hmem
      rw [List.map_append, List.map_cons] at hvpns
      exact (List.nodup_append.mp hvpns).2.2 _ hmem _ List.mem_cons_self rfl
    apply (h.insert_meets hnew).bind
    rintro t ⟨ht, hareas, -⟩
    rw [hsplit, ← hareas] at hvpns ⊢
    apply (ih ht hvpns).mono
    rintro r ⟨hr, hle, hr'⟩
    exact ⟨hr, by omega, hr'⟩

end TrapPages

structure TrapTask where
  tgid : Nat
  memory_set : Nat
  trap_cx_ppn : Nat
deriving DecidableEq

/-- The tasks that have not exited and the address spaces. The frames that are taken are those
below `next_frame`. -/
structure TrapWorld where
  tasks : Nat → Option TrapTask
  spaces : Nat → TrapPages
  next_pid : Nat
  next_space : Nat
  next_frame : Nat

inductive ForkOp where
  | fork (pid : Nat) (vm thread : Bool)
  | exit (pid : Nat)

namespace TrapWorld

/-- The first process: `map_trap_context` in its address space. -/
def boot : TrapWorld where
  tasks := Function.update (fun _ => none) 0 (some ⟨0, 0, 0⟩)
  spaces := Function.update (fun _ => .empty) 0 ⟨[trap_context_position 0],
    Function.update (fun _ => none) (index (trap_context_position 0)) (some 0)⟩
  next_pid := 1
  next_space := 1
  next_frame := 1

/-- `from_copy_on_write` into a new address space. -/
def copy_space (w : TrapWorld) (ms : Nat) : Except Panic (Nat × TrapWorld) := do
  let (s, frame) ← TrapPages.copy_areas (w.spaces ms).areas .empty w.next_frame
  return (w.next_space, { w with
    spaces := Function.update w.spaces w.next_space s
    next_space := w.next_space + 1
    next_frame := frame })

def map_thread_trap_context (w : TrapWorld) (ms tid : Nat) : Except Panic TrapWorld :=
  if 0 < tid ∧ tid < THREAD_LIMIT then do
    let s ← (w.spaces ms).insert_and_map (trap_context_position tid) w.next_frame
    return { w with spaces := Function.update w.spaces ms s, next_frame := w.next_frame + 1 }
  else .error .assertion

/-- `memory_set` and `trap_cx_ppn` of the new task. -/
def trap_context (w : TrapWorld) (ms private_tid : Nat) (thread : Bool) :
    Except Panic (Nat × TrapWorld) := do
  let w ← if thread then w.map_thread_trap_context ms private_tid else .ok w
  match (w.spaces ms).translate (trap_context_position private_tid) with
  | none => .error (.notTranslated (trap_context_position private_tid))
  | some ppn => return (ppn, w)

def fork (w : TrapWorld) (p : Nat) (vm thread : Bool) : Except Panic TrapWorld :=
  match w.tasks p with
  | none => .error .outOfBounds
  | some t => do
    let pid := w.next_pid
    let tgid := if thread then p else pid
    let private_tid := pid - tgid
    let (ms, w) ← if vm then .ok (t.memory_set, w) else w.copy_space t.memory_set
    let (trap_cx_ppn, w) ← w.trap_context ms private_tid thread
    return { w with
      tasks := Function.update w.tasks pid (some ⟨tgid, ms, trap_cx_ppn⟩)
      next_pid := pid + 1 }

def step (w : TrapWorld) : ForkOp → Except Panic TrapWorld
  | .fork p vm thread => w.fork p vm thread
  | .exit p => .ok { w with tasks := Function.update w.tasks p none }

/-- Tasks that share an address space have different trap contexts. -/
def Distinct (w : TrapWorld) : Prop :=
  ∀ p q tp tq, w.tasks p = some tp → w.tasks q = some tq → p ≠ q →
    tp.memory_set = tq.memory_set → tp.trap_cx_ppn ≠ tq.trap_cx_ppn

/-- The differences in pid between each thread made in an address space and its creator; a copy
starts with those of its original. -/
abbrev Differences := Nat → List Nat

def record (used : Differences) (w : TrapWorld) : ForkOp → Differences
  | .exit _ => used
  | .fork p vm thread =>
    match w.tasks p with
    | none => used
    | some t =>
      let ms := if vm then t.memory_set else w.next_space
      let old := used t.memory_set
      Function.update used ms (if thread then old ++ [w.next_pid - p] else old)

def step_recorded (x : TrapWorld × Differences) (op : ForkOp) :
    Except Panic (TrapWorld × Differences) := do
  return (← x.1.step op, record x.2 x.1 op)

/-- A task that shares its creator's address space is a thread, unless every task there is one;
and a thread is made less than `THREAD_LIMIT` pids after its creator, with a difference that is
new to the address space. -/
def Permits (x : TrapWorld × Differences) : ForkOp → Prop
  | .exit _ => True
  | .fork p vm thread => ∃ t, x.1.tasks p = some t ∧
      (vm = true → thread = false →
        ∀ q tq, x.1.tasks q = some tq → tq.memory_set = t.memory_set → q ≠ tq.tgid) ∧
      (thread = true → x.1.next_pid - p < THREAD_LIMIT ∧ x.1.next_pid - p ∉ x.2 t.memory_set)

theorem Permits.thread {x : TrapWorld × Differences} {p : Nat} {t : TrapTask} {vm : Bool}
    (ht : x.1.tasks p = some t)
    (hd : x.1.next_pid - p < THREAD_LIMIT ∧ x.1.next_pid - p ∉ x.2 t.memory_set) :
    Permits x (.fork p vm true) :=
  ⟨t, ht, (fun _ h => nomatch h), fun _ => hd⟩

theorem Permits.process {x : TrapWorld × Differences} {p : Nat} {t : TrapTask}
    (ht : x.1.tasks p = some t) : Permits x (.fork p false false) :=
  ⟨t, ht, (fun h => nomatch h), fun h => nomatch h⟩

/-- The address space `ms` has the slots 0 and `used ms`. -/
structure SpaceOk (w : TrapWorld) (used : Differences) (ms : Nat) : Prop where
  wf : (w.spaces ms).Wf w.next_frame
  areas : (w.spaces ms).areas = (0 :: used ms).map trap_context_position
  slots : ∀ tid ∈ used ms, 0 < tid ∧ tid < THREAD_LIMIT
  nodup : (used ms).Nodup

/-- A task has the slot of its difference from its `tgid`. -/
structure TaskOk (w : TrapWorld) (used : Differences) (p : Nat) (t : TrapTask) : Prop where
  pid : p < w.next_pid
  tgid : t.tgid ≤ p
  memory_set : t.memory_set < w.next_space
  slot : p - t.tgid ∈ 0 :: used t.memory_set
  frame : (w.spaces t.memory_set).translate (trap_context_position (p - t.tgid)) =
    some t.trap_cx_ppn

structure Slots (w : TrapWorld) (used : Differences) : Prop where
  spaces : ∀ ms, ms < w.next_space → SpaceOk w used ms
  tasks : ∀ p t, w.tasks p = some t → TaskOk w used p t
  apart : ∀ p q tp tq, w.tasks p = some tp → w.tasks q = some tq → p ≠ q →
    tp.memory_set = tq.memory_set → p - tp.tgid ≠ q - tq.tgid

variable {w w' : TrapWorld} {used : Differences} {p ms tid : Nat} {t : TrapTask} {op : ForkOp}

theorem SpaceOk.lt (h : SpaceOk w used ms) (htid : tid ∈ 0 :: used ms) : tid < THREAD_LIMIT := by
  rcases List.mem_cons.mp htid with rfl | hmem
  · decide
  · exact (h.slots tid hmem).2

theorem SpaceOk.mem_areas (h : SpaceOk w used ms) (htid : tid < THREAD_LIMIT) :
    index (trap_context_position tid) ∈ (w.spaces ms).areas.map index ↔ tid ∈ 0 :: used ms := by
  rw [h.areas, List.map_map, List.mem_map]
  constructor
  · rintro ⟨tid', hmem, heq⟩
    rwa [← trap_context_position_inj (h.lt hmem) htid heq]
  · intro hmem
    exact ⟨tid, hmem, rfl⟩

/-- Different slots, different frames. -/
theorem Slots.distinct (h : Slots w used) : w.Distinct := by
  intro p q tp tq hp hq hne hms heq
  have htp := h.tasks p tp hp
  have htq := h.tasks q tq hq
  have hspace := h.spaces tp.memory_set htp.memory_set
  have hslot := htq.slot
  have hframe := htq.frame
  rw [← hms] at hslot hframe
  have hindex := hspace.wf.own _ _ _ htp.frame (heq ▸ hframe)
  exact h.apart p q tp tq hp hq hne hms
    (trap_context_position_inj (hspace.lt htp.slot) (hspace.lt hslot) hindex)

/-- What the changes of the address spaces keep. -/
structure Keeps (w w' : TrapWorld) : Prop where
  tasks : w'.tasks = w.tasks
  next_pid : w'.next_pid = w.next_pid
  next_space : w.next_space ≤ w'.next_space

theorem Slots.copy_space (h : Slots w used) (hms : ms < w.next_space) :
    Meets (w.copy_space ms) (fun _ => False) fun r => r.1 = w.next_space ∧ Keeps w r.2 ∧
      w.next_space < r.2.next_space ∧ Slots r.2 (Function.update used w.next_space (used ms)) := by
  have hspace := h.spaces ms hms
  have hnodup : ((TrapPages.empty.areas ++ (w.spaces ms).areas).map index).Nodup :=
    hspace.wf.nodup
  apply ((TrapPages.Wf.empty w.next_frame).copy_areas_meets hnodup).bind
  rintro ⟨s, frame⟩ ⟨hs, hle, hareas⟩
  refine ⟨rfl, ⟨rfl, rfl, Nat.le_succ _⟩, Nat.lt_succ_self _, ?_, ?_, h.apart⟩
  · intro m hm
    by_cases hnew : m = w.next_space
    · subst hnew
      constructor
      · simp only [Function.update_self]
        exact hs
      · simp only [Function.update_self]
        rw [hareas]
        exact hspace.areas
      · simp only [Function.update_self]
        exact hspace.slots
      · simp only [Function.update_self]
        exact hspace.nodup
    · have hold := h.spaces m (by
        have hm' : m < w.next_space + 1 := hm
        omega)
      constructor
      · simp only [Function.update_of_ne hnew]
        exact hold.wf.mono hle
      · simp only [Function.update_of_ne hnew]
        exact hold.areas
      · simp only [Function.update_of_ne hnew]
        exact hold.slots
      · simp only [Function.update_of_ne hnew]
        exact hold.nodup
  · intro q tq hq
    have hold := h.tasks q tq hq
    have hne : tq.memory_set ≠ w.next_space := Nat.ne_of_lt hold.memory_set
    refine ⟨hold.pid, hold.tgid, Nat.lt_succ_of_lt hold.memory_set, ?_, ?_⟩
    · rw [Function.update_of_ne hne]
      exact hold.slot
    · simp only [Function.update_of_ne hne]
      exact hold.frame

theorem Slots.map_thread_trap_context (h : Slots w used) (hms : ms < w.next_space) (hpos : 0 < tid)
    (hlt : tid < THREAD_LIMIT) (hnew : tid ∉ used ms) :
    Meets (w.map_thread_trap_context ms tid) (fun _ => False) fun w' => Keeps w w' ∧
      w'.next_space = w.next_space ∧ Slots w' (Function.update used ms (used ms ++ [tid])) := by
  have hspace := h.spaces ms hms
  have hfree : index (trap_context_position tid) ∉ (w.spaces ms).areas.map index := by
    rw [hspace.mem_areas hlt, List.mem_cons]
    rintro (hzero | hmem)
    · omega
    · exact hnew hmem
  rw [TrapWorld.map_thread_trap_context, if_pos ⟨hpos, hlt⟩]
  apply (hspace.wf.insert_meets hfree).bind
  rintro s ⟨hs, hareas, hframes⟩
  refine ⟨⟨rfl, rfl, Nat.le_refl _⟩, rfl, ?_, ?_, h.apart⟩
  · intro m hm
    by_cases hsame : m = ms
    · subst hsame
      constructor
      · simp only [Function.update_self]
        exact hs
      · simp only [Function.update_self]
        rw [hareas, hspace.areas, ← List.cons_append, List.map_append]
        rfl
      · simp only [Function.update_self]
        intro tid' hmem
        rcases List.mem_append.mp hmem with hmem | hmem
        · exact hspace.slots tid' hmem
        · rw [List.mem_singleton.mp hmem]
          exact ⟨hpos, hlt⟩
      · simp only [Function.update_self]
        rw [List.nodup_append]
        refine ⟨hspace.nodup, List.nodup_singleton _, ?_⟩
        rintro i hi j hj rfl
        exact hnew (List.mem_singleton.mp hj ▸ hi)
    · have hold := h.spaces m hm
      constructor
      · simp only [Function.update_of_ne hsame]
        exact hold.wf.mono (Nat.le_succ _)
      · simp only [Function.update_of_ne hsame]
        exact hold.areas
      · simp only [Function.update_of_ne hsame]
        exact hold.slots
      · simp only [Function.update_of_ne hsame]
        exact hold.nodup
  · intro q tq hq
    have hold := h.tasks q tq hq
    by_cases hsame : tq.memory_set = ms
    · have hslot := hold.slot
      have hframe := hold.frame
      rw [hsame] at hslot hframe
      refine ⟨hold.pid, hold.tgid, hold.memory_set, ?_, ?_⟩
      · rw [hsame, Function.update_self, ← List.cons_append]
        exact List.mem_append_left _ hslot
      · simp only [hsame, Function.update_self]
        rw [TrapPages.translate, hframes _ ((hspace.mem_areas (hspace.lt hslot)).mpr hslot)]
        exact hframe
    · refine ⟨hold.pid, hold.tgid, hold.memory_set, ?_, ?_⟩
      · rw [Function.update_of_ne hsame]
        exact hold.slot
      · simp only [Function.update_of_ne hsame]
        exact hold.frame

/-- A new task at a slot that no other task of its address space has. -/
theorem Slots.add_task (h : Slots w used) {tgid ppn : Nat} (htgid : tgid ≤ w.next_pid)
    (hms : ms < w.next_space) (hslot : w.next_pid - tgid ∈ 0 :: used ms)
    (hframe : (w.spaces ms).translate (trap_context_position (w.next_pid - tgid)) = some ppn)
    (hapart : ∀ q tq, w.tasks q = some tq → tq.memory_set = ms →
      q - tq.tgid ≠ w.next_pid - tgid) :
    Slots { w with
      tasks := Function.update w.tasks w.next_pid (some ⟨tgid, ms, ppn⟩)
      next_pid := w.next_pid + 1 } used := by
  refine ⟨fun m hm => ?_, fun q tq hq => ?_, fun q r tq tr hq hr hne heq => ?_⟩
  · have hold := h.spaces m hm
    exact ⟨hold.wf, hold.areas, hold.slots, hold.nodup⟩
  · simp only [Function.update_apply] at hq
    split at hq
    · next hpid =>
      cases hq
      subst hpid
      exact ⟨Nat.lt_succ_self _, htgid, hms, hslot, hframe⟩
    · have hold := h.tasks q tq hq
      exact ⟨Nat.lt_succ_of_lt hold.pid, hold.tgid, hold.memory_set, hold.slot, hold.frame⟩
  · simp only [Function.update_apply] at hq hr
    split at hq <;> split at hr
    · next hq' hr' => exact absurd (hq'.trans hr'.symm) hne
    · next hq' hr' =>
      cases hq
      subst hq'
      exact (hapart r tr hr heq.symm).symm
    · next hq' hr' =>
      cases hr
      subst hr'
      exact hapart q tq hq heq
    · exact h.apart q r tq tr hq hr hne heq

/-- The address space of the new task, before its trap context is mapped. -/
theorem Slots.memory_set (h : Slots w used) (ht : w.tasks p = some t) (vm : Bool) :
    Meets (if vm then .ok (t.memory_set, w) else w.copy_space t.memory_set) (fun _ => False)
      fun r => r.1 = (if vm then t.memory_set else w.next_space) ∧ Keeps w r.2 ∧
        r.1 < r.2.next_space ∧ Slots r.2 (Function.update used r.1 (used t.memory_set)) := by
  have hms := (h.tasks p t ht).memory_set
  cases vm with
  | true =>
    refine ⟨rfl, ⟨rfl, rfl, Nat.le_refl _⟩, hms, ?_⟩
    rw [Function.update_eq_self]
    exact h
  | false =>
    apply (h.copy_space hms).mono
    rintro ⟨ms, w'⟩ ⟨rfl, hkeeps, hlt, hslots⟩
    exact ⟨rfl, hkeeps, hlt, hslots⟩

theorem Slots.trap_context (h : Slots w used) (hms : ms < w.next_space) {thread : Bool}
    (hthread : thread = true → 0 < tid ∧ tid < THREAD_LIMIT ∧ tid ∉ used ms)
    (hprocess : thread = false → tid = 0) :
    Meets (w.trap_context ms tid thread) (fun _ => False) fun r => Keeps w r.2 ∧
      r.2.next_space = w.next_space ∧
      Slots r.2 (Function.update used ms (if thread then used ms ++ [tid] else used ms)) ∧
      (r.2.spaces ms).translate (trap_context_position tid) = some r.1 := by
  have htranslate : ∀ {w' : TrapWorld} {used' : Differences}, Slots w' used' →
      ms < w'.next_space → tid ∈ 0 :: used' ms → tid < THREAD_LIMIT →
      ∃ ppn, (w'.spaces ms).translate (trap_context_position tid) = some ppn := by
    intro w' used' hslots hlt hmem hlimit
    have hspace := hslots.spaces ms hlt
    have hmapped := (hspace.wf.mapped _).mpr ((hspace.mem_areas hlimit).mpr hmem)
    exact Option.ne_none_iff_exists'.mp hmapped
  cases thread with
  | false =>
    cases hprocess rfl
    obtain ⟨ppn, hppn⟩ := htranslate h hms List.mem_cons_self (by decide)
    simp only [TrapWorld.trap_context, Bool.false_eq_true, if_false, bind, Except.bind, hppn]
    refine ⟨⟨rfl, rfl, Nat.le_refl _⟩, rfl, ?_, hppn⟩
    rw [Function.update_eq_self]
    exact h
  | true =>
    obtain ⟨hpos, hlimit, hnew⟩ := hthread rfl
    apply (h.map_thread_trap_context hms hpos hlimit hnew).bind
    rintro w' ⟨hkeeps, hspaces, hslots⟩
    have hmem : tid ∈ 0 :: Function.update used ms (used ms ++ [tid]) ms := by
      rw [Function.update_self]
      exact List.mem_cons_of_mem _ (List.mem_append_right _ (List.mem_singleton_self _))
    obtain ⟨ppn, hppn⟩ := htranslate hslots (hspaces ▸ hms) hmem hlimit
    simp only [hppn]
    exact ⟨hkeeps, hspaces, hslots, hppn⟩

/-- The new task with its pid, at the slot of its difference from `tgid`. -/
def new_task (w : TrapWorld) (pid tgid ms ppn : Nat) : TrapWorld :=
  { w with tasks := Function.update w.tasks pid (some ⟨tgid, ms, ppn⟩), next_pid := pid + 1 }

theorem fork_eq (ht : w.tasks p = some t) (vm thread : Bool) :
    w.fork p vm thread =
      (if vm then .ok (t.memory_set, w) else w.copy_space t.memory_set) >>= fun r =>
      r.2.trap_context r.1 (w.next_pid - if thread then p else w.next_pid) thread >>= fun r' =>
      pure (r'.2.new_task w.next_pid (if thread then p else w.next_pid) r.1 r'.1) := by
  rw [TrapWorld.fork, ht]
  cases vm <;> rfl

/-- A permitted `fork` succeeds, with a slot of its own for the new task. -/
theorem Slots.fork (h : Slots w used) {vm thread : Bool}
    (hpermits : Permits (w, used) (.fork p vm thread)) :
    Meets (w.fork p vm thread) (fun _ => False) fun w' =>
      Slots w' (record used w (.fork p vm thread)) := by
  obtain ⟨t, ht, hshared, hthread⟩ := hpermits
  dsimp only at ht hshared hthread
  have hpid := (h.tasks p t ht).pid
  rw [fork_eq ht]
  simp only [record, ht]
  apply (h.memory_set ht vm).bind
  rintro ⟨ms, w₁⟩ ⟨hms, hkeeps₁, hlt, hslots₁⟩
  have hold : Function.update used ms (used t.memory_set) ms = used t.memory_set :=
    Function.update_self ..
  dsimp only at hms hkeeps₁ hlt hslots₁ ⊢
  apply (@Slots.trap_context _ _ _ (w.next_pid - if thread then p else w.next_pid) hslots₁ hlt thread
    ?_ ?_).bind
  · rintro ⟨ppn, w₂⟩ ⟨hkeeps₂, hspaces, hslots₂, hframe⟩
    rw [hold, Function.update_idem] at hslots₂
    rw [← hms]
    dsimp only at hkeeps₂ hspaces hslots₂ hframe ⊢
    have hpid₂ : w₂.next_pid = w.next_pid := hkeeps₂.next_pid.trans hkeeps₁.next_pid
    have htasks : w₂.tasks = w.tasks := hkeeps₂.tasks.trans hkeeps₁.tasks
    rw [← hpid₂] at hslots₂ hframe hthread ⊢
    cases thread with
    | true =>
      simp only [if_true] at hslots₂ hframe ⊢
      obtain ⟨-, hnew⟩ := hthread rfl
      apply hslots₂.add_task (by omega) (hspaces ▸ hlt) ?_ hframe
      · intro q tq hq hq'
        rw [htasks] at hq
        have hslot := (hslots₁.tasks q tq (hkeeps₁.tasks ▸ hq)).slot
        rw [hq', hold] at hslot
        rintro heq
        rw [heq] at hslot
        rcases List.mem_cons.mp hslot with hzero | hmem
        · omega
        · exact hnew hmem
      · rw [Function.update_self]
        exact List.mem_cons_of_mem _ (List.mem_append_right _ (List.mem_singleton_self _))
    | false =>
      simp only [Bool.false_eq_true, if_false] at hslots₂ hframe ⊢
      apply hslots₂.add_task (Nat.le_refl _) (hspaces ▸ hlt) ?_ hframe
      · intro q tq hq hq'
        rw [htasks] at hq
        have htq := h.tasks q tq hq
        cases vm with
        | true =>
          have hne := hshared rfl rfl q tq hq (hq'.trans hms)
          have hle := htq.tgid
          omega
        | false =>
          have hlt' := htq.memory_set
          rw [hq', hms] at hlt'
          exact absurd hlt' (Nat.lt_irrefl _)
      · simp
  · rintro rfl
    rw [hold]
    refine ⟨?_, hthread rfl⟩
    rw [if_pos rfl]
    omega
  · rintro rfl
    exact Nat.sub_self _

/-- A `fork` that succeeds and leaves the trap contexts distinct is a permitted one. -/
theorem Slots.permits_of_fork (h : Slots w used) (ht : w.tasks p = some t) {vm thread : Bool}
    (hfork : w.fork p vm thread = .ok w') (hdistinct : w'.Distinct) :
    Permits (w, used) (.fork p vm thread) := by
  have hpid := (h.tasks p t ht).pid
  obtain ⟨⟨ms, w₁⟩, hr, hms, hkeeps, hlt, hslots⟩ := (h.memory_set ht vm).exists_ok
  dsimp only at hms hkeeps hlt hslots
  rw [fork_eq ht, hr] at hfork
  obtain ⟨_, hspace, hfork⟩ := bind_eq_ok.mp hfork
  cases hspace
  obtain ⟨⟨ppn, w₂⟩, hcontext, hw'⟩ := bind_eq_ok.mp hfork
  dsimp only at hcontext hw'
  cases hw'
  have hspace := hslots.spaces ms hlt
  have hold : Function.update used ms (used t.memory_set) ms = used t.memory_set :=
    Function.update_self ..
  refine ⟨t, ht, ?_, ?_⟩
  · rintro rfl rfl q tq hq hq' htgid
    cases hr
    dsimp only at hq
    have hframe := (h.tasks q tq hq).frame
    have hne : q ≠ w.next_pid := Nat.ne_of_lt (h.tasks q tq hq).pid
    simp only [TrapWorld.trap_context, Bool.false_eq_true, if_false, bind, Except.bind,
      Nat.sub_self] at hcontext
    rw [← htgid, Nat.sub_self, hq'] at hframe
    rw [hframe] at hcontext
    cases hcontext
    apply hdistinct q w.next_pid tq ⟨w.next_pid, t.memory_set, tq.trap_cx_ppn⟩ ?_ ?_ hne hq' rfl
    · exact (Function.update_of_ne hne ..).trans hq
    · exact Function.update_self ..
  · rintro rfl
    simp only [if_true, TrapWorld.trap_context] at hcontext
    obtain ⟨w₃, hmap, -⟩ := bind_eq_ok.mp hcontext
    rw [TrapWorld.map_thread_trap_context] at hmap
    split at hmap
    · next hrange =>
      refine ⟨hrange.2, fun hmem => ?_⟩
      have htaken := (hspace.mem_areas hrange.2).mpr (List.mem_cons_of_mem _ (hold.symm ▸ hmem))
      rw [hspace.wf.insert_fails htaken] at hmap
      cases hmap
    · cases hmap

theorem Slots.exit (h : Slots w used) (p : Nat) :
    Slots { w with tasks := Function.update w.tasks p none } used := by
  have hlive : ∀ {q : Nat} {tq : TrapTask}, Function.update w.tasks p none q = some tq →
      w.tasks q = some tq := by
    intro q tq hq
    rw [Function.update_apply] at hq
    split at hq
    · cases hq
    · exact hq
  constructor
  · intro m hm
    have hold := h.spaces m hm
    exact ⟨hold.wf, hold.areas, hold.slots, hold.nodup⟩
  · intro q tq hq
    have hold := h.tasks q tq (hlive hq)
    exact ⟨hold.pid, hold.tgid, hold.memory_set, hold.slot, hold.frame⟩
  · intro q r tq tr hq hr
    exact h.apart q r tq tr (hlive hq) (hlive hr)

theorem Slots.boot : Slots TrapWorld.boot fun _ => [] := by
  have htask : ∀ {q : Nat} {tq : TrapTask}, TrapWorld.boot.tasks q = some tq → q = 0 ∧ tq = ⟨0, 0, 0⟩ := by
    intro q tq hq
    simp only [TrapWorld.boot, Function.update_apply] at hq
    split at hq
    · next hzero =>
      cases hq
      exact ⟨hzero, rfl⟩
    · cases hq
  constructor
  · intro m hm
    cases Nat.lt_one_iff.mp hm
    have hinsert := @TrapPages.Wf.insert_meets _ _ (trap_context_position 0) (.empty 0)
      List.not_mem_nil
    refine ⟨hinsert.1, rfl, ?_, List.nodup_nil⟩
    intro tid hmem
    cases hmem
  · intro q tq hq
    obtain ⟨rfl, rfl⟩ := htask hq
    exact ⟨Nat.one_pos, Nat.le_refl _, Nat.one_pos, List.mem_cons_self, rfl⟩
  · intro q r tq tr hq hr hne
    exact absurd ((htask hq).1.trans (htask hr).1.symm) hne

/-- One permitted step keeps the slots. -/
theorem Slots.step_recorded (h : Slots w used) (hpermits : Permits (w, used) op)
    {x : TrapWorld × Differences} (hx : step_recorded (w, used) op = .ok x) : Slots x.1 x.2 := by
  obtain ⟨w', hstep, hx'⟩ := bind_eq_ok.mp hx
  cases hx'
  cases op with
  | fork p vm thread => exact (h.fork hpermits).of_ok hstep
  | exit p =>
    cases hstep
    exact h.exit p

/-- In every state that permitted steps reach the trap contexts are distinct, and a `fork` of a
live task succeeds and keeps them so exactly when it is permitted. -/
theorem trap_contexts_distinct {ops : List ForkOp}
    (hC : Guarded TrapWorld.step_recorded Permits (TrapWorld.boot, fun _ => []) ops) :
    ∀ x ∈ states TrapWorld.step_recorded (TrapWorld.boot, fun _ => []) ops, x.1.Distinct ∧
      ∀ p t vm thread, x.1.tasks p = some t →
        ((∃ w', x.1.fork p vm thread = .ok w' ∧ w'.Distinct) ↔
          Permits x (.fork p vm thread)) := by
  intro x hx
  have h : Slots x.1 x.2 :=
    invariant (fun x : TrapWorld × Differences => Slots x.1 x.2)
      (fun _ _ _ h hpermits hstep => h.step_recorded hpermits hstep) Slots.boot hC x hx
  refine ⟨h.distinct, fun p t vm thread ht => ?_⟩
  constructor
  · rintro ⟨w', hfork, hdistinct⟩
    exact h.permits_of_fork ht hfork hdistinct
  · intro hpermits
    obtain ⟨w', hfork, hslots⟩ := (h.fork hpermits).exists_ok
    exact ⟨w', hfork, hslots.distinct⟩

theorem trap_contexts_distinct_threads :
    Guarded TrapWorld.step_recorded Permits (TrapWorld.boot, fun _ => [])
      [.fork 0 true true, .fork 0 true true, .fork 1 false false, .exit 1] ∧
    ∀ x ∈ states TrapWorld.step_recorded (TrapWorld.boot, fun _ => [])
      [.fork 0 true true, .fork 0 true true, .fork 1 false false, .exit 1], x.1.Distinct := by
  have hguarded : Guarded TrapWorld.step_recorded Permits (TrapWorld.boot, fun _ => [])
      [.fork 0 true true, .fork 0 true true, .fork 1 false false, .exit 1] :=
    ⟨.thread rfl (by decide), .thread rfl (by decide), .process rfl, trivial, trivial⟩
  exact ⟨hguarded, fun x hx => (trap_contexts_distinct hguarded x hx).1⟩

/-- A task that shares the address space without being a thread has the trap context of its
creator. The first thread of a process cannot make one, and neither can a process that was made
after it, alone in its address space. -/
theorem trap_contexts_shared :
    (∃ w, run TrapWorld.step TrapWorld.boot [.fork 0 true false] = .ok w ∧ ¬ w.Distinct) ∧
    ∃ w, run TrapWorld.step TrapWorld.boot [.fork 0 true true, .fork 0 false false] = .ok w ∧
      w.fork 2 true true = .error (.mappedBefore (trap_context_position 1)) ∧
      run TrapWorld.step TrapWorld.boot [.fork 0 true true, .fork 1 true true] =
        .error (.mappedBefore (trap_context_position 1)) := by
  constructor
  · refine ⟨_, rfl, fun hdistinct => ?_⟩
    exact hdistinct 0 1 _ _ rfl rfl (by decide) rfl rfl
  · exact ⟨_, rfl, rfl, rfl⟩

end TrapWorld

end MyGOS.Task
