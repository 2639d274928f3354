import MyGOS.Lib.StepSystem
import MyGOS.Task.Futex

/-!
# Tasks and their scheduler on one hart

The state between two context switches. A task runs until it enters the idle
control flow (`switched`); `run_tasks` puts the last task away (`idle`) and
dispatches the next one (`running`). What the kernel reads from user memory or
from the clock, and the signal actions of the current task, come with a step.
-/

namespace MyGOS.Task

inductive Phase where
  /-- the current task is executing -/
  | running
  /-- at the top of the loop of `run_tasks` -/
  | switched
  /-- the last task is put away -/
  | idle
deriving DecidableEq, Repr

structure Kernel where
  tasks : Nat → Option TaskControlBlock
  next_pid : Nat
  next_memory_set : Nat
  manager : TaskManager
  futexes : FutexMap
  current : Option Nat
  pid2tcb : List Nat
  cleaner : List Nat
  phase : Phase

namespace Kernel

def INITPROC : Nat := 0

/-- `add_initproc`: one task, ready to run. -/
def boot : Kernel where
  tasks := Function.update (fun _ => none) INITPROC (some ⟨0, 0, .Ready, none, [], 0, 0, 0, 0, .user⟩)
  next_pid := 1
  next_memory_set := 1
  manager := TaskManager.new.add INITPROC
  futexes := ∅
  current := none
  pid2tcb := [INITPROC]
  cleaner := []
  phase := .switched

def task (k : Kernel) (p : Nat) : Except TaskPanic TaskControlBlock :=
  match k.tasks p with
  | some t => .ok t
  | none => .error (.noTask p)

def modify (k : Kernel) (p : Nat) (f : TaskControlBlock → TaskControlBlock) : Kernel :=
  { k with tasks := Function.update k.tasks p ((k.tasks p).map f) }

def status (k : Kernel) (p : Nat) : Option TaskStatus := (k.tasks p).map (·.task_status)

def children (k : Kernel) (p : Nat) : List Nat := ((k.tasks p).map (·.children)).getD []

/-- The entries for a task in all children lists. -/
def holders (k : Kernel) (p : Nat) : Nat :=
  ((List.range k.next_pid).map fun q => (k.children q).count p).sum

/-- The references to a task, but for those in the frame of the function that asks. -/
def strong_count (k : Kernel) (p : Nat) : Nat :=
  k.manager.count p + (if k.current = some p then 1 else 0) + k.holders p + k.futexes.count p +
    k.cleaner.count p + k.pid2tcb.count p +
    if (k.tasks p).any (·.holds_itself) then 1 else 0

/-- What is left to do once a reference to a task is gone. -/
def drop : (fuel : Nat) → Kernel → (p : Nat) → Kernel
  | 0, k, _ => k
  | fuel + 1, k, p =>
    match k.tasks p with
    | none => k
    | some t =>
      if k.strong_count p = 0 then
        t.children.foldl (drop fuel) { k with tasks := Function.update k.tasks p none }
      else k

def add_task (k : Kernel) (p : Nat) : Kernel :=
  { k with pid2tcb := k.pid2tcb.insert p, manager := k.manager.add p }

/-- The task that executes in user mode. -/
def user (k : Kernel) : Except TaskPanic (Nat × TaskControlBlock) :=
  match k.phase, k.current with
  | .running, some p => do
    let t ← k.task p
    if t.resume = .user then return (p, t) else .error .notRunning
  | _, _ => .error .notRunning

section Futex

def wake_up (k : Kernel) (ws : List FutexWaiter) : Kernel :=
  { k with manager := ws.foldl (fun m w => m.unblock_task w.task) k.manager }

/-- `word` is what user memory holds at `uaddr`. -/
def futex_wait (k : Kernel) (p uaddr val timeout word now : Nat) : Kernel :=
  let fq := k.futexes.queue uaddr
  -- the waiter counted in is counted out again
  if word ≠ val then { k with futexes := k.futexes.put uaddr fq }
  else
    let timeout_time := min (now + timeout) (2 ^ 64 - 1)
    let k := k.modify p fun t =>
      { t with task_status := .Blocking, resume := .futex_wait timeout_time }
    { k with
      futexes := k.futexes.insert uaddr (fq.push_back (.new p now timeout))
      manager := k.manager.block p
      phase := .switched }

def futex_wake (k : Kernel) (uaddr nr_wake : Nat) : Except TaskPanic (Nat × Kernel) :=
  match k.futexes.lookup uaddr with
  | none => .ok (0, k)
  | some fq =>
    if fq.waiters = 0 then .ok (0, k)
    else do
      let nr_wake := min nr_wake (fq.waiters % 2 ^ 32)
      let (wakeup_queue, fq) ← fq.pop_waiters nr_wake
      return (nr_wake, { k with futexes := k.futexes.put uaddr fq }.wake_up wakeup_queue)

def futex_requeue (k : Kernel) (uaddr nr_wake uaddr2 nr_limit : Nat) :
    Except TaskPanic (Nat × Kernel) :=
  match k.futexes.lookup uaddr with
  | none => .ok (0, k)
  | some fq =>
    if fq.waiters = 0 then .ok (0, k)
    else do
      let nr_wake := min nr_wake (fq.waiters % 2 ^ 32)
      let (wakeup_q, fq) ← fq.pop_waiters nr_wake
      let nr_limit := min nr_limit (fq.waiters % 2 ^ 32)
      let (requeue_q, fq) ← fq.pop_waiters nr_limit
      let k := { k with futexes := k.futexes.put uaddr fq }.wake_up wakeup_q
      if nr_limit = 0 then return (nr_wake, k)
      else
        let fq2 := requeue_q.foldl FutexQueue.push_back (k.futexes.queue uaddr2)
        return (nr_wake, { k with futexes := k.futexes.insert uaddr2 fq2 })

/-- `timeout` is what user memory holds at `val2`, if that is a pointer. -/
def sys_futex (k : Kernel) (p uaddr futex_op val val2 uaddr2 timeout word now : Nat) :
    Except TaskPanic Kernel :=
  let option := (BitVec.ofNat 64 futex_op &&& ~~~384#64).toNat
  if futex_op.testBit 8 ∧ option ≠ FUTEX_WAIT then .ok k
  else if option = FUTEX_WAIT then
    .ok (k.futex_wait p uaddr val (if val2 = 0 then 2 ^ 64 - 1 else timeout) word now)
  else if option = FUTEX_WAKE then Prod.snd <$> k.futex_wake uaddr val
  else if option = FUTEX_REQUEUE then
    Prod.snd <$> k.futex_requeue uaddr val uaddr2 (val2 % 2 ^ 32)
  else .error .unsupported

end Futex

section Exit

/-- A child of a task that exits goes to initproc. -/
def reparent (k : Kernel) (c : Nat) : Kernel :=
  (k.modify c fun t => { t with parent := some INITPROC }).modify INITPROC fun t =>
    { t with children := t.children ++ [c] }

/-- The wake of `CLONE_CHILD_CLEARTID`. -/
def wake_clear_child_tid (k : Kernel) (t : TaskControlBlock) : Except TaskPanic Kernel :=
  if t.clear_child_tid = 0 then .ok k else Prod.snd <$> k.futex_wake t.clear_child_tid 1

/-- A child thread leaves the children of its parent, for the cleaner. -/
def cancel_thread (k : Kernel) (p : Nat) (t : TaskControlBlock) : Except TaskPanic Kernel :=
  match t.parent with
  | none => .error (.noParent p)
  | some q =>
    match k.tasks q with
    | none => .error (.noParent p)
    | some tq =>
      if p ∈ tq.children then
        let k := k.modify q fun t => { t with children := t.children.erase p }
        if k.strong_count p = 0 then .ok { k with cleaner := k.cleaner ++ [p] }
        else .error (.strongCount p)
      else .error (.noParent p)

def exit_current_and_run_next (k : Kernel) (exit_code : Int) : Except TaskPanic Kernel :=
  match k.current with
  | none => .error .notRunning
  | some p => do
    let t ← k.task p
    if p ∉ k.pid2tcb then .error (.noPid p)
    else
      let k := { k with current := none, pid2tcb := k.pid2tcb.erase p }
      let k ← k.wake_clear_child_tid t
      let k := k.modify p fun t => { t with task_status := .Zombie, exit_code := exit_code }
      if p = INITPROC then .error .initprocReturn
      else if p ≠ t.tgid ∧ t.children ≠ [] then .error (.hasChildren p)
      else
        let k := t.children.foldl reparent k
        if p ≠ t.tgid then do
          let k ← k.cancel_thread p t
          return { k with phase := .switched }
        else return { k.drop k.next_pid p with phase := .switched }

end Exit

section Signals

/-- The loop over the pending signals. `true` when the task has exited. -/
def handle_signals (sigactions : Nat → SigAction) (p : Nat) :
    (fuel : Nat) → Kernel → Except TaskPanic (Bool × Kernel)
  | 0, k => .ok (false, k)
  | fuel + 1, k => do
    let t ← k.task p
    match (t.pending_signals.difference t.sigmask).fetch with
    | none => return (false, k)
    | some signum =>
      let k := k.modify p fun t => { t with pending_signals := t.pending_signals.sub signum }
      let sigaction := sigactions signum
      if sigaction.sa_handler = SIG_IGN then handle_signals sigactions p fuel k
      else if sigaction.sa_handler = SIG_DFL then
        if signum = SIGKILL ∨ signum = SIGSEGV then do
          let k ← k.exit_current_and_run_next (-signum)
          return (true, k)
        else return (false, k)
      else
        let sa_mask := sigaction.sa_mask
        let sigmask := if sigaction.sa_nodefer then sa_mask else sa_mask.add signum
        return (false, k.modify p fun t => { t with sigmask := sigmask ||| t.sigmask })

/-- Each round takes one of the 63 signals out of the pending ones. -/
def exec_signal_handlers (k : Kernel) (sigactions : Nat → SigAction) :
    Except TaskPanic (Bool × Kernel) :=
  match k.current with
  | none => .error .notRunning
  | some p => handle_signals sigactions p 64 k

def suspend_current_and_run_next (k : Kernel) (sigactions : Nat → SigAction) :
    Except TaskPanic Kernel := do
  let (exited, k) ← k.exec_signal_handlers sigactions
  if exited then return k
  else
    match k.current with
    | none => .error .notRunning
    | some p =>
      return { k.modify p fun t => { t with task_status := .Ready } with phase := .switched }

/-- A shift by 64 bits or more wraps; the last bit is no signal's. -/
def sys_kill (k : Kernel) (pid signal : Nat) : Kernel :=
  let signum := (signal - 1) % 64 + 1
  if signal = 0 ∨ pid ∉ k.pid2tcb ∨ signum = 64 then k
  else k.modify pid fun t => { t with pending_signals := t.pending_signals.add signum }

end Signals

section Tree

/-- `sys_do_fork`, up to its return to user mode. -/
def sys_do_fork (k : Kernel) (p : Nat) (t : TaskControlBlock) (flags ctid : Nat) :
    Except TaskPanic Kernel :=
  match CloneFlags.from_bits (flags - flags % 256) with
  | none => .error .unsupported
  | some flags =>
    let pid := k.next_pid
    let child : TaskControlBlock := {
      tgid := if flags.thread then p else pid,
      memory_set := if flags.vm then t.memory_set else k.next_memory_set,
      task_status := .Ready,
      parent := some p,
      children := [],
      pending_signals := 0,
      sigmask := t.sigmask,
      exit_code := 0,
      clear_child_tid := if flags.child_cleartid then ctid else 0,
      resume := .user }
    let k := k.modify p fun t => { t with children := t.children ++ [pid] }
    .ok ({ k with
      tasks := Function.update k.tasks pid (some child)
      next_pid := pid + 1
      next_memory_set := k.next_memory_set + 1 }.add_task pid)

/-- The new image is put into the same `Arc<RwLock<MemorySet>>`. -/
def sys_exec (k : Kernel) (p : Nat) (t : TaskControlBlock) : Except TaskPanic Kernel :=
  if p = t.tgid then .ok k else .error .execThread

/-- `-1` is for any child. -/
def asks_for (pid : Int) (c : Nat) : Bool := pid = -1 ∨ pid = c

/-- One round of the loop of `sys_wait4`. -/
def wait4_loop (k : Kernel) (p : Nat) (t : TaskControlBlock) (pid : Int)
    (sigactions : Nat → SigAction) : Except TaskPanic Kernel :=
  match t.children.find? fun c => (k.tasks c).any (·.is_zombie) && asks_for pid c with
  | some c =>
    let k := k.modify p fun t => { t with children := t.children.erase c, resume := .user }
    if k.strong_count c = 0 then .ok (k.drop k.next_pid c) else .error (.strongCount c)
  | none =>
    (k.modify p fun t => { t with resume := .wait4 pid }).suspend_current_and_run_next sigactions

def sys_wait4 (k : Kernel) (p : Nat) (t : TaskControlBlock) (pid : Int)
    (sigactions : Nat → SigAction) : Except TaskPanic Kernel :=
  if pid = -1 ∧ t.children = [] then .ok k
  -- ECHILD
  else if ¬ t.children.any (asks_for pid) then .ok k
  else k.wait4_loop p t pid sigactions

/-- The kernel goes on with the call in which the task was switched away. -/
def resume (k : Kernel) (sigactions : Nat → SigAction) : Except TaskPanic Kernel :=
  match k.phase, k.current with
  | .running, some p => do
    let t ← k.task p
    match t.resume with
    | .user => .error .notRunning
    | .wait4 pid => k.wait4_loop p t pid sigactions
    -- ETIMEDOUT, EINTR or 0
    | .futex_wait _ => return k.modify p fun t => { t with resume := .user }
  | _, _ => .error .notRunning

end Tree

section Schedule

/-- `hanging_current_and_run_next`. -/
def hang (k : Kernel) (p sleep_time duration : Nat) : Kernel :=
  { k.modify p fun t => { t with task_status := .Hanging } with
    manager := k.manager.hang sleep_time duration p
    current := none
    phase := .switched }

/-- The last task is taken from the slot, and queued if it is ready. -/
def take_last (k : Kernel) : Kernel :=
  match k.current with
  | none => k
  | some p =>
    if k.status p = some .Ready then { k with current := none }.add_task p
    else { k with current := none }

/-- `clear_all` of the cleaner. -/
def recycle_child_threads_res (k : Kernel) : Kernel :=
  k.cleaner.foldl (drop k.next_pid) { k with cleaner := [] }

/-- The first half of a round of `run_tasks`. -/
def put_away (k : Kernel) : Except TaskPanic Kernel :=
  match k.phase with
  | .switched => .ok { k.take_last.recycle_child_threads_res with phase := .idle }
  | .running | .idle => .error .notRunning

def run_task (k : Kernel) (p : Nat) : Kernel :=
  { k.modify p fun t => { t with task_status := .Running } with
    current := some p
    phase := .running }

/-- A waiting task with a signal to handle, or an expired waiter. -/
def check_futex_interupt_or_expire (k : Kernel) (now pick : Nat) : Option (Nat × Kernel) :=
  match k.manager.waiting_queue.find? fun p => (k.tasks p).any (·.interrupted) with
  | some p => some (p, k)
  | none => (k.futexes.pop_expired now pick).map fun r => (r.1, { k with futexes := r.2 })

/-- The second half. -/
def dispatch (k : Kernel) (now pick : Nat) : Except TaskPanic Kernel :=
  match k.phase with
  | .idle =>
    match k.manager.check_hanging now pick with
    | some (p, manager) => .ok ({ k with manager := manager }.run_task p)
    | none =>
      match k.check_futex_interupt_or_expire now pick with
      | some (p, k) => .ok { k with manager := k.manager.unblock_task p, phase := .switched }
      | none =>
        match k.manager.fetch with
        | some (p, manager) => .ok ({ k with manager := manager }.run_task p)
        | none => .ok { k with phase := .switched }
  | .running | .switched => .error .notRunning

end Schedule

end Kernel

inductive KernelOp where
  | suspend (sigactions : Nat → SigAction)
  | exec_signal_handlers (sigactions : Nat → SigAction)
  | sys_exit (exit_code : Int)
  | sys_do_fork (flags ctid : Nat)
  | sys_exec
  | sys_wait4 (pid : Int) (sigactions : Nat → SigAction)
  | resume (sigactions : Nat → SigAction)
  | sys_kill (pid signal : Nat)
  /-- `current_add_signal`, and what `check_interval_timer` does -/
  | add_signal (signal : SigSet)
  /-- what `sys_sigprocmask` and `sys_sigreturn` do -/
  | set_sigmask (sigmask : SigSet)
  | sys_set_tid_address (tidptr : Nat)
  | hang (sleep_time duration : Nat)
  | sys_futex (uaddr futex_op val val2 uaddr2 timeout word now : Nat)
  | put_away
  | dispatch (now pick : Nat)

namespace Kernel

/-- A step of the task that executes, or half a round of `run_tasks`. -/
def step (k : Kernel) : KernelOp → Except TaskPanic Kernel
  | .suspend sigactions => do
    let _ ← k.user
    k.suspend_current_and_run_next sigactions
  | .exec_signal_handlers sigactions => do
    let _ ← k.user
    Prod.snd <$> k.exec_signal_handlers sigactions
  | .sys_exit exit_code => do
    let _ ← k.user
    k.exit_current_and_run_next exit_code
  | .sys_do_fork flags ctid => do
    let (p, t) ← k.user
    k.sys_do_fork p t flags ctid
  | .sys_exec => do
    let (p, t) ← k.user
    k.sys_exec p t
  | .sys_wait4 pid sigactions => do
    let (p, t) ← k.user
    k.sys_wait4 p t pid sigactions
  | .resume sigactions => k.resume sigactions
  | .sys_kill pid signal => do
    let _ ← k.user
    return k.sys_kill pid signal
  | .add_signal signal => do
    let (p, _) ← k.user
    return k.modify p fun t => { t with pending_signals := t.pending_signals ||| signal }
  | .set_sigmask sigmask => do
    let (p, _) ← k.user
    return k.modify p fun t => { t with sigmask := sigmask }
  | .sys_set_tid_address tidptr => do
    let (p, _) ← k.user
    return k.modify p fun t => { t with clear_child_tid := tidptr }
  | .hang sleep_time duration => do
    let (p, _) ← k.user
    return k.hang p sleep_time duration
  | .sys_futex uaddr futex_op val val2 uaddr2 timeout word now => do
    let (p, _) ← k.user
    k.sys_futex p uaddr futex_op val val2 uaddr2 timeout word now
  | .put_away => k.put_away
  | .dispatch now pick => k.dispatch now pick

end Kernel

end MyGOS.Task
