import MyGOS.Lib.ServiceOrder
import MyGOS.Task.Conservation

/-!
# The ready queue is served in its order

Only `run_tasks` takes a task from the ready queue, the one in front, and runs
it; whatever else the kernel does may put tasks behind those that wait. Between
two turns of a task all those get theirs that were ready before it.
-/

namespace MyGOS.Task

open Outcome StepSystem

namespace Kernel

def ready_queue (k : Kernel) : List Nat := k.manager.ready_queue

/-- The task that `run_tasks` fetches, if nothing else is to be done first. -/
def fetched (k : Kernel) : KernelOp → List Nat
  | .dispatch now pick =>
    if (k.manager.check_hanging now pick).isNone ∧
        (k.check_futex_interupt_or_expire now pick).isNone then
      k.ready_queue.take 1
    else []
  | _ => []

/-- The tasks that are fetched along a run. -/
def turns : Kernel → List KernelOp → List Nat := gather step fetched

variable {k k' : Kernel} {p : Nat}

section Behind

theorem ready_queue_unblock_task (m : TaskManager) (task : Nat) :
    m.ready_queue <+: (m.unblock_task task).ready_queue := by
  unfold TaskManager.unblock_task
  split
  · exact List.prefix_append ..
  · exact List.prefix_rfl

theorem wake_up_behind (k : Kernel) (futexes : FutexMap) (ws : List FutexWaiter) :
    k.ready_queue <+: ({ k with futexes := futexes }.wake_up ws).ready_queue := by
  show k.manager.ready_queue <+: (ws.foldl _ k.manager).ready_queue
  generalize k.manager = m
  induction ws generalizing m with
  | nil => exact List.prefix_rfl
  | cons w ws ih => exact (ready_queue_unblock_task m w.task).trans (ih _)

theorem futex_wake_behind (k : Kernel) (uaddr nr_wake : Nat) :
    Meets (k.futex_wake uaddr nr_wake) (fun _ => True) fun r =>
      k.ready_queue <+: r.2.ready_queue := by
  unfold futex_wake
  split
  · exact List.prefix_rfl
  · split
    · exact List.prefix_rfl
    · refine Meets.bind (Q := fun _ => True) ?_ fun r _ => wake_up_behind k _ _
      cases FutexQueue.pop_waiters _ _ <;> trivial

theorem futex_requeue_behind (k : Kernel) (uaddr nr_wake uaddr2 nr_limit : Nat) :
    Meets (k.futex_requeue uaddr nr_wake uaddr2 nr_limit) (fun _ => True) fun r =>
      k.ready_queue <+: r.2.ready_queue := by
  unfold futex_requeue
  split
  · exact List.prefix_rfl
  · split
    · exact List.prefix_rfl
    · refine Meets.bind (Q := fun _ => True) ?_ fun r _ => ?_
      · cases FutexQueue.pop_waiters _ _ <;> trivial
      · refine Meets.bind (Q := fun _ => True) ?_ fun r' _ => ?_
        · cases FutexQueue.pop_waiters _ _ <;> trivial
        · dsimp only
          have hwake := wake_up_behind k (k.futexes.put uaddr r'.2) r.1
          split
          · exact hwake
          · exact hwake

theorem sys_futex_behind (k : Kernel) (p uaddr futex_op val val2 uaddr2 timeout word now : Nat) :
    Meets (k.sys_futex p uaddr futex_op val val2 uaddr2 timeout word now) (fun _ => True) fun k' =>
      k.ready_queue <+: k'.ready_queue := by
  have hsnd {x : Except TaskPanic (Nat × Kernel)} (hx : Meets x (fun _ => True) fun r =>
      k.ready_queue <+: r.2.ready_queue) :
      Meets (Prod.snd <$> x) (fun _ => True) fun k' => k.ready_queue <+: k'.ready_queue := by
    cases x with
    | error e => trivial
    | ok r => exact hx
  unfold sys_futex
  dsimp only
  split
  · exact List.prefix_rfl
  · split
    · unfold futex_wait
      dsimp only
      split
      · exact List.prefix_rfl
      · exact List.prefix_rfl
    · split
      · exact hsnd (futex_wake_behind k _ _)
      · split
        · exact hsnd (futex_requeue_behind k _ _ _ _)
        · trivial

theorem reparent_ready_queue (cs : List Nat) (k : Kernel) :
    (cs.foldl reparent k).ready_queue = k.ready_queue := by
  induction cs generalizing k with
  | nil => rfl
  | cons c cs ih => exact ih (k.reparent c)

theorem cancel_thread_behind (k : Kernel) (p : Nat) (t : TaskControlBlock) :
    Meets (k.cancel_thread p t) (fun _ => True) fun k' => k'.ready_queue = k.ready_queue := by
  unfold cancel_thread
  split
  · trivial
  · split
    · trivial
    · split
      · dsimp only
        split
        · rfl
        · trivial
      · trivial

theorem wake_clear_child_tid_behind (k : Kernel) (t : TaskControlBlock) :
    Meets (k.wake_clear_child_tid t) (fun _ => True) fun k' =>
      k.ready_queue <+: k'.ready_queue := by
  unfold wake_clear_child_tid
  split
  · exact List.prefix_rfl
  · have h := futex_wake_behind k t.clear_child_tid 1
    cases hwake : k.futex_wake t.clear_child_tid 1 with
    | error e => trivial
    | ok r => exact h.of_ok hwake

theorem exit_behind (k : Kernel) (exit_code : Int) :
    Meets (k.exit_current_and_run_next exit_code) (fun _ => True) fun k' =>
      k.ready_queue <+: k'.ready_queue := by
  unfold exit_current_and_run_next
  split
  · trivial
  · next p _ =>
    refine (k.task_meets p).bind fun t _ => ?_
    split
    · trivial
    refine (wake_clear_child_tid_behind _ t).bind fun k₁ h₁ => ?_
    have hreparent := reparent_ready_queue t.children (k₁.modify p fun t =>
      { t with task_status := .Zombie, exit_code := exit_code })
    have hk₁ : k.ready_queue <+: (t.children.foldl reparent (k₁.modify p fun t =>
        { t with task_status := .Zombie, exit_code := exit_code })).ready_queue := by
      rw [hreparent]
      exact h₁
    split
    · trivial
    · split
      · trivial
      · dsimp only
        split
        · refine (cancel_thread_behind _ p t).bind fun k₂ h₂ => ?_
          show k.ready_queue <+: k₂.ready_queue
          rw [h₂]
          exact hk₁
        · generalize t.children.foldl reparent _ = k₂ at hk₁
          show k.ready_queue <+: (k₂.drop k₂.next_pid p).manager.ready_queue
          rw [(Freed.drop k₂.next_pid k₂ p).manager]
          exact hk₁

theorem handle_signals_behind (sigactions : Nat → SigAction) (p : Nat) (fuel : Nat)
    (k : Kernel) : Meets (handle_signals sigactions p fuel k) (fun _ => True) fun r =>
      k.ready_queue <+: r.2.ready_queue := by
  induction fuel generalizing k with
  | zero => exact List.prefix_rfl
  | succ fuel ih =>
    unfold handle_signals
    refine (k.task_meets p).bind fun t _ => ?_
    split
    · exact List.prefix_rfl
    · dsimp only
      split
      · exact ih (k.modify p _)
      · split
        · split
          · exact (exit_behind (k.modify p _) _).bind fun k' h => h
          · exact List.prefix_rfl
        · exact List.prefix_rfl

theorem exec_signal_handlers_behind (k : Kernel) (sigactions : Nat → SigAction) :
    Meets (k.exec_signal_handlers sigactions) (fun _ => True) fun r =>
      k.ready_queue <+: r.2.ready_queue := by
  unfold exec_signal_handlers
  split
  · trivial
  · exact handle_signals_behind sigactions _ _ k

theorem suspend_behind (k : Kernel) (sigactions : Nat → SigAction) :
    Meets (k.suspend_current_and_run_next sigactions) (fun _ => True) fun k' =>
      k.ready_queue <+: k'.ready_queue := by
  unfold suspend_current_and_run_next
  refine (exec_signal_handlers_behind k sigactions).bind fun r hr => ?_
  dsimp only
  split
  · exact hr
  · split
    · trivial
    · exact hr

theorem wait4_loop_behind (k : Kernel) (p : Nat) (t : TaskControlBlock) (pid : Int)
    (sigactions : Nat → SigAction) :
    Meets (k.wait4_loop p t pid sigactions) (fun _ => True) fun k' =>
      k.ready_queue <+: k'.ready_queue := by
  unfold wait4_loop
  split
  · next c _ =>
    dsimp only
    split
    · generalize hk₁ : k.modify p _ = k₁
      have hready : k₁.ready_queue = k.ready_queue := by
        rw [← hk₁]
        rfl
      show k.ready_queue <+: (k₁.drop k₁.next_pid c).manager.ready_queue
      rw [(Freed.drop k₁.next_pid k₁ c).manager, ← hready]
      exact List.prefix_rfl
    · trivial
  · exact suspend_behind (k.modify p _) sigactions

theorem resume_behind (k : Kernel) (sigactions : Nat → SigAction) :
    Meets (k.resume sigactions) (fun _ => True) fun k' => k.ready_queue <+: k'.ready_queue := by
  unfold resume
  split
  · next p _ _ =>
    refine (k.task_meets p).bind fun t _ => ?_
    split
    · trivial
    · exact wait4_loop_behind k p t _ sigactions
    · exact List.prefix_rfl
  · trivial

theorem sys_do_fork_behind (k : Kernel) (p : Nat) (t : TaskControlBlock) (flags ctid : Nat) :
    Meets (k.sys_do_fork p t flags ctid) (fun _ => True) fun k' =>
      k.ready_queue <+: k'.ready_queue := by
  unfold sys_do_fork
  split
  · trivial
  · exact List.prefix_append ..

theorem put_away_behind (k : Kernel) :
    Meets k.put_away (fun _ => True) fun k' => k.ready_queue <+: k'.ready_queue := by
  unfold put_away
  split
  · have hlast : k.ready_queue <+: k.take_last.ready_queue := by
      unfold take_last
      split
      · exact List.prefix_rfl
      · split
        · exact List.prefix_append ..
        · exact List.prefix_rfl
    show k.ready_queue <+: (k.take_last.recycle_child_threads_res).manager.ready_queue
    unfold recycle_child_threads_res
    rw [(Freed.foldl_drop _ _ _).manager]
    exact hlast
  · trivial
  · trivial

end Behind

section Front

/-- What `dispatch` takes from the ready queue. -/
theorem dispatch_front (k : Kernel) (now pick : Nat) :
    Meets (k.dispatch now pick) (fun _ => True) fun k' =>
      k.ready_queue <+: k.fetched (.dispatch now pick) ++ k'.ready_queue ∧
      ∀ p ∈ k.fetched (.dispatch now pick), k'.phase = .running ∧ k'.current = some p := by
  unfold dispatch
  split
  · cases hhanging : k.manager.check_hanging now pick with
    | some r =>
      obtain ⟨p, manager⟩ := r
      have hready : manager.ready_queue = k.ready_queue := by
        unfold TaskManager.check_hanging at hhanging
        split at hhanging
        · cases hhanging
        · split at hhanging
          · cases hhanging
            rfl
          · cases hhanging
      have hfetched : k.fetched (.dispatch now pick) = [] := by
        rw [fetched, hhanging, if_neg fun h => by cases h.1]
      rw [hfetched]
      exact ⟨hready ▸ List.prefix_rfl, fun p hp => by cases hp⟩
    | none =>
      cases hfutex : k.check_futex_interupt_or_expire now pick with
      | some r =>
        obtain ⟨p, k₁⟩ := r
        have hready : k₁.manager = k.manager := by
          unfold check_futex_interupt_or_expire at hfutex
          split at hfutex
          · cases hfutex
            rfl
          · obtain ⟨r, _, heq⟩ := Option.map_eq_some_iff.mp hfutex
            cases heq
            rfl
        have hfetched : k.fetched (.dispatch now pick) = [] := by
          rw [fetched, hfutex, if_neg fun h => by cases h.2]
        rw [hfetched]
        refine ⟨?_, fun p hp => by cases hp⟩
        show k.manager.ready_queue <+: (k₁.manager.unblock_task p).ready_queue
        rw [hready]
        exact ready_queue_unblock_task _ _
      | none =>
        have hfetched : k.fetched (.dispatch now pick) = k.ready_queue.take 1 := by
          rw [fetched, hhanging, hfutex, if_pos ⟨rfl, rfl⟩]
        rw [hfetched]
        dsimp only
        unfold TaskManager.fetch ready_queue
        cases hready : k.manager.ready_queue with
        | nil =>
          dsimp only
          exact ⟨List.nil_prefix, fun p hp => by cases hp⟩
        | cons q rest =>
          dsimp only
          refine ⟨List.prefix_rfl, fun p hp => ?_⟩
          rw [List.mem_singleton.mp hp]
          exact ⟨rfl, rfl⟩
  · trivial
  · trivial

/-- One step takes a task from the front to run it, or none. -/
theorem step_front (k : Kernel) (op : KernelOp) : Meets (k.step op) (fun _ => True) fun k' =>
    k.ready_queue <+: k.fetched op ++ k'.ready_queue ∧
    ∀ p ∈ k.fetched op, k'.phase = .running ∧ k'.current = some p := by
  have hbehind {x : Except TaskPanic Kernel} (hx : Meets x (fun _ => True) fun k' =>
      k.ready_queue <+: k'.ready_queue) : Meets x (fun _ => True) fun k' =>
        k.ready_queue <+: [] ++ k'.ready_queue ∧
        ∀ p ∈ ([] : List Nat), k'.phase = .running ∧ k'.current = some p :=
    hx.mono fun k' h => ⟨h, fun p hp => by cases hp⟩
  have huser {f : Nat × TaskControlBlock → Except TaskPanic Kernel}
      (hf : ∀ r, Meets (f r) (fun _ => True) fun k' => k.ready_queue <+: k'.ready_queue) :
      Meets (k.user >>= f) (fun _ => True) fun k' => k.ready_queue <+: k'.ready_queue :=
    k.user_meets.bind fun r _ => hf r
  cases op with
  | suspend sigactions => exact hbehind (huser fun _ => suspend_behind k sigactions)
  | exec_signal_handlers sigactions =>
    refine hbehind (huser fun _ => ?_)
    have h := exec_signal_handlers_behind k sigactions
    cases hx : k.exec_signal_handlers sigactions with
    | error e => trivial
    | ok r => exact h.of_ok hx
  | sys_exit exit_code => exact hbehind (huser fun _ => exit_behind k exit_code)
  | sys_do_fork flags ctid => exact hbehind (huser fun r => sys_do_fork_behind k r.1 r.2 flags ctid)
  | sys_exec =>
    refine hbehind (huser fun r => ?_)
    show Meets (k.sys_exec r.1 r.2) _ _
    unfold sys_exec
    split
    · exact List.prefix_rfl
    · trivial
  | sys_wait4 pid sigactions =>
    refine hbehind (huser fun r => ?_)
    show Meets (k.sys_wait4 r.1 r.2 pid sigactions) _ _
    unfold sys_wait4
    split
    · exact List.prefix_rfl
    · split
      · exact List.prefix_rfl
      · exact wait4_loop_behind k r.1 r.2 pid sigactions
  | resume sigactions => exact hbehind (resume_behind k sigactions)
  | sys_kill pid signal =>
    refine hbehind (huser fun _ => ?_)
    show k.ready_queue <+: (k.sys_kill pid signal).ready_queue
    unfold sys_kill
    dsimp only
    split
    · exact List.prefix_rfl
    · exact List.prefix_rfl
  | add_signal signal => exact hbehind (huser fun _ => List.prefix_rfl)
  | set_sigmask sigmask => exact hbehind (huser fun _ => List.prefix_rfl)
  | sys_set_tid_address tidptr => exact hbehind (huser fun _ => List.prefix_rfl)
  | hang sleep_time duration => exact hbehind (huser fun _ => List.prefix_rfl)
  | sys_futex uaddr futex_op val val2 uaddr2 timeout word now =>
    exact hbehind (huser fun r => sys_futex_behind k r.1 _ _ _ _ _ _ _ _)
  | put_away => exact hbehind (put_away_behind k)
  | dispatch now pick => exact dispatch_front k now pick

end Front

end Kernel

open Kernel

/-- A ready task with `i` others in front of it runs with the next `i + 1` that are fetched. -/
theorem first_come_first_served {k k' : Kernel} {ops : List KernelOp}
    (hrun : run step k ops = .ok k') {i p : Nat} (hp : k.ready_queue[i]? = some p) :
    (k.turns ops)[i]? = some p ∧
        (∃ t ∈ states step k ops, t.phase = .running ∧ t.current = some p) ∨
      (k.turns ops).length ≤ i ∧ k'.ready_queue[i - (k.turns ops).length]? = some p := by
  have horder : InOrder step ready_queue fetched := fun s a t hs => ((step_front s a).of_ok hs).1
  refine (horder.waits hrun hp).imp_left fun hserved => ⟨hserved, ?_⟩
  exact exists_of_mem_gather (P := fun p t => t.phase = .running ∧ t.current = some p)
    (fun s a t hs => ((step_front s a).of_ok hs).2) (List.mem_of_getElem? hserved)

/-- Initproc forks twice. -/
def fork_twice : List KernelOp :=
  [.put_away, .dispatch 0 0, .sys_do_fork 0 0, .sys_do_fork 0 0]

/-- It sleeps, and each of its children has a turn. -/
def child_turns : List KernelOp :=
  [.hang 0 9, .put_away, .dispatch 1 0, .sys_exit 0, .put_away, .dispatch 2 0]

theorem children_take_turns : ∃ k k', run step boot fork_twice = .ok k ∧
    run step k child_turns = .ok k' ∧ k.ready_queue[1]? = some 2 ∧
    ((k.turns child_turns)[1]? = some 2 ∧
        (∃ t ∈ states step k child_turns, t.phase = .running ∧ t.current = some 2) ∨
      (k.turns child_turns).length ≤ 1 ∧
        k'.ready_queue[1 - (k.turns child_turns).length]? = some 2) :=
  ⟨_, _, rfl, rfl, rfl, first_come_first_served rfl rfl⟩

end MyGOS.Task
