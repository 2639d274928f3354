import MyGOS.Task.TaskControlBlock
import Mathlib.Data.List.Basic

/-!
# The task manager

Three queues of tasks: those ready to run, those asleep until a time, and those
blocked on a futex.
-/

namespace MyGOS.Task

structure HangingTask where
  wake_up_time : Nat
  inner : Nat
deriving DecidableEq, Repr

def HangingTask.new (sleep_time duration task : Nat) : HangingTask :=
  ⟨(sleep_time + duration) % 2 ^ 64, task⟩

structure TaskManager where
  ready_queue : List Nat
  hanging_queue : List HangingTask
  waiting_queue : List Nat

namespace TaskManager

def new : TaskManager := ⟨[], [], []⟩

def add (m : TaskManager) (task : Nat) : TaskManager :=
  { m with ready_queue := m.ready_queue ++ [task] }

def fetch (m : TaskManager) : Option (Nat × TaskManager) :=
  match m.ready_queue with
  | [] => none
  | task :: ready_queue => some (task, { m with ready_queue := ready_queue })

def hang (m : TaskManager) (sleep_time duration task : Nat) : TaskManager :=
  { m with hanging_queue := .new sleep_time duration task :: m.hanging_queue }

def block (m : TaskManager) (task : Nat) : TaskManager :=
  { m with waiting_queue := m.waiting_queue ++ [task] }

/-- The greatest entries of the heap, which are those to wake up first. -/
def earliest (m : TaskManager) : List HangingTask :=
  m.hanging_queue.filter fun h => m.hanging_queue.all fun g => h.wake_up_time ≤ g.wake_up_time

/-- `check_hanging`; which one of several greatest entries the heap has on top is `pick`. -/
def check_hanging (m : TaskManager) (now pick : Nat) : Option (Nat × TaskManager) :=
  match m.earliest[pick % m.earliest.length]? with
  | none => none
  | some h =>
    if h.wake_up_time ≤ now then
      some (h.inner, { m with hanging_queue := m.hanging_queue.erase h })
    else none

def unblock_task (m : TaskManager) (task : Nat) : TaskManager :=
  if task ∈ m.waiting_queue then
    { m with waiting_queue := m.waiting_queue.erase task }.add task
  else m

/-- How often a task is queued. -/
def count (m : TaskManager) (task : Nat) : Nat :=
  m.ready_queue.count task + (m.hanging_queue.map HangingTask.inner).count task +
    m.waiting_queue.count task

section Count

variable {m m' : TaskManager} {task : Nat}

theorem count_add (m : TaskManager) (task p : Nat) :
    (m.add task).count p = m.count p + if p = task then 1 else 0 := by
  simp only [count, add, List.count_append, List.count_singleton]
  rcases eq_or_ne p task with rfl | hne
  · simp
    omega
  · simp [hne, hne.symm]

theorem count_hang (m : TaskManager) (sleep_time duration task p : Nat) :
    (m.hang sleep_time duration task).count p = m.count p + if p = task then 1 else 0 := by
  simp only [count, hang, List.map_cons, HangingTask.new, List.count_cons]
  rcases eq_or_ne p task with rfl | hne
  · simp
    omega
  · simp [hne, hne.symm]

theorem count_block (m : TaskManager) (task p : Nat) :
    (m.block task).count p = m.count p + if p = task then 1 else 0 := by
  simp only [count, block, List.count_append, List.count_singleton]
  rcases eq_or_ne p task with rfl | hne
  · simp
    omega
  · simp [hne, hne.symm]

theorem count_fetch (h : m.fetch = some (task, m')) (p : Nat) :
    m.count p = m'.count p + if p = task then 1 else 0 := by
  unfold fetch at h
  split at h
  · cases h
  · rename_i hready
    cases h
    simp only [count, hready, List.count_cons]
    rcases eq_or_ne p task with rfl | hne
    · simp
      omega
    · simp [hne, hne.symm]

theorem count_check_hanging {now pick : Nat} (h : m.check_hanging now pick = some (task, m'))
    (p : Nat) : m.count p = m'.count p + if p = task then 1 else 0 := by
  unfold check_hanging at h
  split at h
  · cases h
  · rename_i hanging hpick
    split at h
    · cases h
      have hmem : hanging ∈ m.hanging_queue :=
        List.mem_of_mem_filter (List.mem_of_getElem? hpick)
      have hperm := ((List.perm_cons_erase hmem).map HangingTask.inner).count_eq p
      rw [List.map_cons, List.count_cons] at hperm
      simp only [count, hperm]
      rcases eq_or_ne p hanging.inner with rfl | hne
      · simp
        omega
      · simp [hne, hne.symm]
    · cases h

/-- A task that is unblocked only changes its queue. -/
theorem count_unblock_task (m : TaskManager) (task p : Nat) :
    (m.unblock_task task).count p = m.count p := by
  unfold unblock_task
  split
  · rename_i hmem
    have hperm := (List.perm_cons_erase hmem).count_eq p
    rw [List.count_cons] at hperm
    rw [count_add]
    simp only [count, hperm]
    rcases eq_or_ne p task with rfl | hne
    · simp
      omega
    · simp [hne, hne.symm]
  · rfl

end Count

end TaskManager

end MyGOS.Task
