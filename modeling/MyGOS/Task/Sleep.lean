import MyGOS.Lib.StepSystem
import MyGOS.Task.Manager
import MyGOS.Time.TimeVal

/-!
# Sleeping tasks

The readings of the nanosecond clock come with the steps and never go back. What
each sleeper asked for, in numbers that do not wrap, is kept beside the task
manager, with what the sleep queue has given back.
-/

namespace MyGOS.Task

open StepSystem
open Time (TimeSpec)

/-- `sys_nanosleep`, where the clock reads `tic`. -/
def sys_nanosleep (m : TaskManager) (task tic : Nat) (req : TimeSpec) : TaskManager :=
  m.hang tic req.into_ns task

/-- `sys_clock_nanosleep`. Without a new state the call returns at once. -/
def sys_clock_nanosleep (m : TaskManager) (task : Nat) (flags : Int) (current_time : Nat)
    (req : TimeSpec) : Option TaskManager :=
  if flags = 1 then
    let abs_time := req.into_ns
    if current_time < abs_time then some (m.hang current_time (abs_time - current_time) task)
    else none
  else some (sys_nanosleep m task current_time req)

/-- A sleep that is over. -/
structure Waking where
  due : Nat
  now : Nat
deriving DecidableEq, Repr

structure SleepWorld where
  manager : TaskManager
  /-- the last reading -/
  clock : Nat
  /-- when the sleep that a task has asked for last ends -/
  due : Nat → Nat
  /-- the sleeps taken from the queue, the last one first -/
  woken : List Waking
  /-- the sleeps that ended in the call -/
  returned : List Waking

inductive SleepOp where
  | nanosleep (task now : Nat) (req : TimeSpec)
  | clock_nanosleep (task : Nat) (flags : Int) (now : Nat) (req : TimeSpec)
  | check_hanging (now pick : Nat)
  | add (task : Nat)
  | fetch
  | block (task : Nat)
  | unblock_task (task : Nat)

/-- Why an operation is none of the system. -/
inductive SleepStop where
  /-- a task that sleeps makes no call -/
  | asleep
  /-- a clock that goes back -/
  | backwards
deriving DecidableEq, Repr

namespace SleepWorld

def new : SleepWorld := ⟨.new, 0, fun _ => 0, [], []⟩

/-- The manager has put a task to sleep until `due`. -/
def sleep (w : SleepWorld) (task now due : Nat) (manager : TaskManager) : SleepWorld :=
  { w with
    manager := manager
    clock := now
    due := Function.update w.due task due }

/-- A call at `now` of a task that is awake. -/
def call (w : SleepWorld) (task now : Nat) (next : SleepWorld) : Except SleepStop SleepWorld :=
  if task ∈ w.manager.hanging_queue.map HangingTask.inner then .error .asleep
  else if now < w.clock then .error .backwards
  else .ok next

def step (w : SleepWorld) : SleepOp → Except SleepStop SleepWorld
  | .nanosleep task now req =>
    w.call task now (w.sleep task now (now + req.nanos) (sys_nanosleep w.manager task now req))
  | .clock_nanosleep task flags now req =>
    -- an absolute time is asked for by what is left until then
    let due := if flags = 1 then max now req.nanos else now + req.nanos
    w.call task now (match sys_clock_nanosleep w.manager task flags now req with
      | some manager => w.sleep task now due manager
      | none => { w with clock := now, returned := ⟨due, now⟩ :: w.returned })
  | .check_hanging now pick =>
    if now < w.clock then .error .backwards
    else
      match w.manager.check_hanging now pick with
      | some (task, manager) => .ok { w with
          manager := manager
          clock := now
          woken := ⟨w.due task, now⟩ :: w.woken }
      | none => .ok { w with clock := now }
  | .add task => .ok { w with manager := w.manager.add task }
  | .fetch =>
    match w.manager.fetch with
    | some (_, manager) => .ok { w with manager := manager }
    | none => .ok w
  | .block task => .ok { w with manager := w.manager.block task }
  | .unblock_task task => .ok { w with manager := w.manager.unblock_task task }

/-- No sleep was cut short, and those in the queue ended in the order of their ends. -/
structure Punctual (w : SleepWorld) : Prop where
  woken : ∀ s ∈ w.woken, s.due ≤ s.now
  returned : ∀ s ∈ w.returned, s.due ≤ s.now
  ordered : w.woken.Pairwise fun later earlier => earlier.due ≤ later.due
  first : ∀ s ∈ w.woken, ∀ h ∈ w.manager.hanging_queue, s.due ≤ w.due h.inner

/-- The end of the sleep fits the 64 bits of a time in nanoseconds. -/
def Fits (_ : SleepWorld) : SleepOp → Prop
  | .nanosleep _ now req => now + req.nanos < 2 ^ 64
  | .clock_nanosleep _ flags now req =>
    (if flags = 1 then req.nanos else now + req.nanos) < 2 ^ 64
  | _ => True

instance Fits.decidable (w : SleepWorld) : ∀ op, Decidable (Fits w op)
  | .nanosleep .. => inferInstanceAs (Decidable (_ < _))
  | .clock_nanosleep .. => inferInstanceAs (Decidable (_ < _))
  | .check_hanging .. | .add _ | .fetch | .block _ | .unblock_task _ =>
    inferInstanceAs (Decidable True)

/-- What is known of the queue: each sleeper is in it once, with the end it asked for, and
none that has been taken from it should have ended later. -/
structure Scheduled (w : SleepWorld) : Prop extends Punctual w where
  nodup : (w.manager.hanging_queue.map HangingTask.inner).Nodup
  exact : ∀ h ∈ w.manager.hanging_queue, h.wake_up_time = w.due h.inner
  past : ∀ s ∈ w.woken, s.due ≤ w.clock

variable {w w' : SleepWorld} {task now due : Nat}

theorem scheduled_new : Scheduled new where
  woken := by simp [new]
  returned := by simp [new]
  ordered := by simp [new]
  first := by simp [new]
  nodup := by simp [new, TaskManager.new]
  exact := by simp [new, TaskManager.new]
  past := by simp [new]

/-- Operations on the other queues leave the sleepers alone. -/
theorem Scheduled.same_queue (h : Scheduled w) {manager : TaskManager}
    (hqueue : manager.hanging_queue = w.manager.hanging_queue) :
    Scheduled { w with manager := manager } where
  woken := h.woken
  returned := h.returned
  ordered := h.ordered
  first := by simpa only [hqueue] using h.first
  nodup := by simpa only [hqueue] using h.nodup
  exact := by simpa only [hqueue] using h.exact
  past := h.past

/-- The clock goes on. -/
theorem Scheduled.tick (h : Scheduled w) (hclock : w.clock ≤ now) :
    Scheduled { w with clock := now } where
  woken := h.woken
  returned := h.returned
  ordered := h.ordered
  first := h.first
  nodup := h.nodup
  exact := h.exact
  past s hs := (h.past s hs).trans hclock

theorem Scheduled.sleep (h : Scheduled w) (hclock : w.clock ≤ now) (hdue : now ≤ due)
    (hawake : task ∉ w.manager.hanging_queue.map HangingTask.inner) {manager : TaskManager}
    (hqueue : manager.hanging_queue = ⟨due, task⟩ :: w.manager.hanging_queue) :
    Scheduled (w.sleep task now due manager) := by
  have hkept : ∀ g ∈ w.manager.hanging_queue, Function.update w.due task due g.inner =
      w.due g.inner := fun g hg =>
    Function.update_of_ne (fun heq => hawake (List.mem_map.mpr ⟨g, hg, heq⟩)) _ _
  constructor
  · constructor
    · exact h.woken
    · exact h.returned
    · exact h.ordered
    · intro s hs g hg
      rcases List.mem_cons.mp (hqueue ▸ hg) with rfl | hg
      · simpa [SleepWorld.sleep] using (h.past s hs).trans (hclock.trans hdue)
      · exact (h.first s hs g hg).trans_eq (hkept g hg).symm
  · rw [SleepWorld.sleep, hqueue, List.map_cons, List.nodup_cons]
    exact ⟨hawake, h.nodup⟩
  · intro g hg
    rcases List.mem_cons.mp (hqueue ▸ hg) with rfl | hg
    · simp [SleepWorld.sleep]
    · exact (h.exact g hg).trans (hkept g hg).symm
  · exact fun s hs => (h.past s hs).trans hclock

/-- A call of a task that is awake, with a clock that has not gone back. -/
theorem call_ok {next : SleepWorld} (h : w.call task now next = .ok w') :
    task ∉ w.manager.hanging_queue.map HangingTask.inner ∧ w.clock ≤ now ∧ next = w' := by
  unfold call at h
  split at h
  · cases h
  · rename_i hawake
    split at h
    · cases h
    · rename_i hclock
      exact ⟨hawake, Nat.le_of_not_lt hclock, Except.ok.inj h⟩

end SleepWorld

namespace TaskManager

variable {m m' : TaskManager} {task now pick : Nat}

/-- `check_hanging` takes an entry that ends first, once it has ended. -/
theorem check_hanging_some (h : m.check_hanging now pick = some (task, m')) :
    ∃ g ∈ m.hanging_queue, g.inner = task ∧ g.wake_up_time ≤ now ∧
      (∀ g' ∈ m.hanging_queue, g.wake_up_time ≤ g'.wake_up_time) ∧
      m'.hanging_queue = m.hanging_queue.erase g := by
  unfold check_hanging at h
  split at h
  · cases h
  · rename_i g hpick
    split at h
    · rename_i hnow
      cases h
      obtain ⟨hmem, hall⟩ := List.mem_filter.mp (List.mem_of_getElem? hpick)
      exact ⟨g, hmem, rfl, hnow, by simpa using hall, rfl⟩
    · cases h

/-- A sleeper that is alone in the queue. -/
theorem check_hanging_alone {wake : Nat} (h : wake ≤ now) :
    (⟨[], [⟨wake, task⟩], []⟩ : TaskManager).check_hanging now 0 = some (task, .new) := by
  simp [check_hanging, earliest, new, h]

@[simp] theorem hanging_queue_unblock_task (m : TaskManager) (task : Nat) :
    (m.unblock_task task).hanging_queue = m.hanging_queue := by
  unfold unblock_task
  split <;> rfl

theorem hanging_queue_fetch (h : m.fetch = some (task, m')) :
    m'.hanging_queue = m.hanging_queue := by
  unfold fetch at h
  split at h
  · cases h
  · cases h
    rfl

end TaskManager

namespace SleepWorld

variable {w w' : SleepWorld} {task now due : Nat}

theorem Scheduled.check_hanging (h : Scheduled w) (hclock : w.clock ≤ now) {pick : Nat}
    {manager : TaskManager} (hcheck : w.manager.check_hanging now pick = some (task, manager)) :
    Scheduled { w with
      manager := manager
      clock := now
      woken := ⟨w.due task, now⟩ :: w.woken } := by
  obtain ⟨g, hg, rfl, hnow, hleast, herase⟩ := TaskManager.check_hanging_some hcheck
  have hsub : manager.hanging_queue ⊆ w.manager.hanging_queue := by
    rw [herase]
    exact List.erase_subset
  have hdue : w.due g.inner ≤ now := (h.exact g hg).symm.trans_le hnow
  constructor
  · constructor
    · exact List.forall_mem_cons.mpr ⟨hdue, h.woken⟩
    · exact h.returned
    · exact List.pairwise_cons.mpr ⟨fun s hs => h.first s hs g hg, h.ordered⟩
    · refine List.forall_mem_cons.mpr ⟨fun g' hg' => ?_, fun s hs g' hg' => ?_⟩
      · simpa only [← h.exact g hg, ← h.exact g' (hsub hg')] using hleast g' (hsub hg')
      · exact h.first s hs g' (hsub hg')
  · rw [herase]
    exact h.nodup.sublist (List.erase_sublist.map _)
  · exact fun g' hg' => h.exact g' (hsub hg')
  · exact List.forall_mem_cons.mpr ⟨hdue, fun s hs => (h.past s hs).trans hclock⟩

/-- A call that returns at once has nothing left to sleep. -/
theorem Scheduled.return_at_once (h : Scheduled w) (hclock : w.clock ≤ now) (hdue : due ≤ now) :
    Scheduled { w with
      clock := now
      returned := ⟨due, now⟩ :: w.returned } :=
  { h.tick hclock with returned := List.forall_mem_cons.mpr ⟨hdue, h.returned⟩ }

theorem Scheduled.nanosleep (h : Scheduled w) (hclock : w.clock ≤ now) {req : TimeSpec}
    (hawake : task ∉ w.manager.hanging_queue.map HangingTask.inner)
    (hfits : now + req.nanos < 2 ^ 64) :
    Scheduled (w.sleep task now (now + req.nanos) (sys_nanosleep w.manager task now req)) := by
  have hns : req.into_ns = req.nanos := TimeSpec.into_ns_of_lt (by omega)
  apply h.sleep hclock (Nat.le_add_right _ _) hawake
  rw [sys_nanosleep, TaskManager.hang, HangingTask.new, hns, Nat.mod_eq_of_lt hfits]

/-- A sleep until an absolute time. -/
theorem Scheduled.sleep_until (h : Scheduled w) (hclock : w.clock ≤ now) {req : TimeSpec}
    (hawake : task ∉ w.manager.hanging_queue.map HangingTask.inner)
    (hfits : req.nanos < 2 ^ 64) (hlater : now < req.nanos) :
    Scheduled (w.sleep task now req.nanos (w.manager.hang now (req.nanos - now) task)) := by
  apply h.sleep hclock hlater.le hawake
  rw [TaskManager.hang, HangingTask.new, Nat.add_sub_of_le hlater.le, Nat.mod_eq_of_lt hfits]

theorem Scheduled.step {op : SleepOp} (h : Scheduled w) (hfits : Fits w op)
    (hok : step w op = .ok w') : Scheduled w' := by
  cases op with
  | nanosleep task now req =>
    obtain ⟨hawake, hclock, rfl⟩ := call_ok hok
    rw [Fits] at hfits
    exact h.nanosleep hclock hawake hfits
  | clock_nanosleep task flags now req =>
    obtain ⟨hawake, hclock, rfl⟩ := call_ok hok
    rcases eq_or_ne flags 1 with hflags | hflags
    · simp only [Fits, if_pos hflags] at hfits
      have hns : req.into_ns = req.nanos := TimeSpec.into_ns_of_lt hfits
      rcases Nat.lt_or_ge now req.nanos with hlater | hpast
      · simp only [sys_clock_nanosleep, if_pos hflags, hns, if_pos hlater,
          Nat.max_eq_right hlater.le]
        exact h.sleep_until hclock hawake hfits hlater
      · simp only [sys_clock_nanosleep, if_pos hflags, hns, if_neg (Nat.not_lt.mpr hpast)]
        exact h.return_at_once hclock (Nat.max_le.mpr ⟨le_rfl, hpast⟩)
    · simp only [Fits, if_neg hflags] at hfits
      simp only [sys_clock_nanosleep, if_neg hflags]
      exact h.nanosleep hclock hawake hfits
  | check_hanging now pick =>
    simp only [SleepWorld.step] at hok
    split at hok
    · cases hok
    · rename_i hclock
      have hclock := Nat.le_of_not_lt hclock
      split at hok
      · rename_i hcheck
        cases hok
        exact h.check_hanging hclock hcheck
      · cases hok
        exact h.tick hclock
  | add task =>
    cases hok
    exact h.same_queue rfl
  | fetch =>
    simp only [SleepWorld.step] at hok
    split at hok
    · rename_i hfetch
      cases hok
      exact h.same_queue (TaskManager.hanging_queue_fetch hfetch)
    · cases hok
      exact h
  | block task =>
    cases hok
    exact h.same_queue rfl
  | unblock_task task =>
    cases hok
    exact h.same_queue (TaskManager.hanging_queue_unblock_task _ _)

/-- In a run whose sleeps all end at times that fit 64 bits none is cut short. -/
theorem sleeps_punctual {ops : List SleepOp} (h : Guarded step Fits new ops) :
    ∀ w ∈ states step new ops, Punctual w := fun w hw =>
  (StepSystem.invariant Scheduled (fun _ _ _ hs hfits hok => hs.step hfits hok) scheduled_new h
    w hw).toPunctual

/-- Two sleepers wake up in order. -/
theorem sleeps_punctual_two :
    ∃ w, run step new [.nanosleep 1 5 ⟨2, 0⟩, .clock_nanosleep 2 1 6 ⟨1, 0⟩,
        .check_hanging 3000000000 0, .check_hanging 3000000000 0] = .ok w ∧
      w.woken = [⟨2000000005, 3000000000⟩, ⟨1000000000, 3000000000⟩] ∧ Punctual w := by
  have hok : run step new [.nanosleep 1 5 ⟨2, 0⟩, .clock_nanosleep 2 1 6 ⟨1, 0⟩,
      .check_hanging 3000000000 0, .check_hanging 3000000000 0] = .ok _ := rfl
  exact ⟨_, hok, rfl, sleeps_punctual (by decide +kernel) _ (mem_states_of_run hok)⟩

theorem step_check_hanging {pick : Nat} {manager : TaskManager} (hclock : w.clock ≤ now)
    (hcheck : w.manager.check_hanging now pick = some (task, manager)) :
    step w (.check_hanging now pick) = .ok { w with
      manager := manager
      clock := now
      woken := ⟨w.due task, now⟩ :: w.woken } := by
  simp only [step, if_neg (Nat.not_lt.mpr hclock), hcheck]

/-- The condition leaves out nothing that works: whenever the end that was asked for is not the
one in the queue, a check between the two cuts the sleep short. -/
theorem sleep_cut_short {req : TimeSpec} {later : Nat} (hclock : now ≤ later)
    (hwake : (now + req.into_ns) % 2 ^ 64 ≤ later) (hdue : later < now + req.nanos) :
    ∃ w, run step new [.nanosleep task now req, .check_hanging later 0] = .ok w ∧
      ¬ Punctual w := by
  have hcall : step new (.nanosleep task now req) =
      .ok (new.sleep task now (now + req.nanos) (sys_nanosleep .new task now req)) := by
    simp [step, call, new, TaskManager.new]
  have hcheck : (sys_nanosleep .new task now req).check_hanging later 0 = some (task, .new) := by
    rw [← TaskManager.check_hanging_alone hwake]
    simp only [sys_nanosleep, TaskManager.hang, HangingTask.new, TaskManager.new]
  rw [run_cons, hcall, Outcome.ok_bind, run_cons, step_check_hanging hclock hcheck]
  refine ⟨_, rfl, fun h => ?_⟩
  have hle := h.woken _ List.mem_cons_self
  simp only [SleepWorld.sleep, Function.update_self] at hle
  exact Nat.not_le.mpr hdue hle

/-- 584 years and a few months are a third of a second. -/
theorem long_sleep_cut_short :
    ∃ w, run step new [.nanosleep 1 0 ⟨18446744074, 0⟩, .check_hanging 1000000000 0] = .ok w ∧
      ¬ Punctual w := by
  refine ⟨_, rfl, fun h => ?_⟩
  exact absurd (h.woken ⟨18446744074000000000, 1000000000⟩ (by decide)) (by decide)

end SleepWorld

end MyGOS.Task
