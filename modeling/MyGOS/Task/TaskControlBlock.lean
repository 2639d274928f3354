import MyGOS.Basic
import Mathlib.Data.BitVec
import Mathlib.Logic.Function.Basic

/-!
# Task control blocks

Tasks are named by their pid, and their address spaces by a number for each
`Arc<RwLock<MemorySet>>`. Of a block only what scheduling, signals, futexes and
the process tree read is kept.
-/

namespace MyGOS.Task

/-- The panics of the task subsystem, under the expression that panics. -/
inductive TaskPanic where
  /-- `current_task().unwrap()`, or a step that this phase of the kernel does not take -/
  | notRunning
  /-- a task that was freed -/
  | noTask (pid : Nat)
  /-- "cannot find pid {} in pid2task!" -/
  | noPid (pid : Nat)
  /-- "initproc return!" -/
  | initprocReturn
  /-- `assert!(inner.children.is_empty())` of a child thread -/
  | hasChildren (pid : Nat)
  /-- `parent.unwrap().upgrade().unwrap()`, or the child that is not in the parent's children -/
  | noParent (pid : Nat)
  /-- `assert!(Arc::strong_count(..) == 1)` -/
  | strongCount (pid : Nat)
  /-- `chain.pop_front().unwrap()` -/
  | noWaiter
  /-- "exec task must be main thread(process)" -/
  | execThread
  /-- `CloneFlags::from_bits(..).unwrap()`, "ENOSYS" -/
  | unsupported
deriving DecidableEq, Repr

/-- `SigMask`: bit `signum - 1` for each signal, up to `SIGRT_31`. -/
abbrev SigSet := BitVec 64

namespace SigSet

def from_bits_truncate (bits : BitVec 64) : SigSet := bits &&& ~~~(1#64 <<< 63)

def of_signum (signum : Nat) : SigSet := from_bits_truncate (1#64 <<< (signum - 1))

def difference (s other : SigSet) : SigSet := s &&& ~~~other

def contains (s other : SigSet) : Bool := s &&& other = other

def add (s : SigSet) (signum : Nat) : SigSet := s ||| of_signum signum

def sub (s : SigSet) (signum : Nat) : SigSet := s.difference (of_signum signum)

/-- The first signal of the set. -/
def fetch (s : SigSet) : Option Nat := (List.range' 1 63).find? fun n => s.contains (of_signum n)

end SigSet

def SIG_DFL : Nat := 0
def SIG_IGN : Nat := 1
def SIGKILL : Nat := 9
def SIGSEGV : Nat := 11

structure SigAction where
  sa_handler : Nat
  sa_nodefer : Bool
  sa_mask : SigSet

inductive TaskStatus where
  | Ready
  | Running
  | Blocking
  | Hanging
  | Zombie
deriving DecidableEq, Repr

/-- Where a task goes on when it is switched to. -/
inductive Resume where
  /-- back to user mode -/
  | user
  /-- the loop of `sys_wait4`, whose frame holds a reference to its task -/
  | wait4 (pid : Int)
  /-- the end of `futex_wait` -/
  | futex_wait (timeout_time : Nat)
deriving DecidableEq, Repr

structure TaskControlBlock where
  tgid : Nat
  memory_set : Nat
  task_status : TaskStatus
  parent : Option Nat
  children : List Nat
  pending_signals : SigSet
  sigmask : SigSet
  exit_code : Int
  clear_child_tid : Nat
  resume : Resume
deriving DecidableEq

namespace TaskControlBlock

def is_zombie (t : TaskControlBlock) : Bool := t.task_status = .Zombie

/-- A signal is pending that is not masked. -/
def interrupted (t : TaskControlBlock) : Bool := t.pending_signals.difference t.sigmask ≠ 0

def holds_itself (t : TaskControlBlock) : Bool :=
  match t.resume with
  | .wait4 _ => true
  | .user | .futex_wait _ => false

end TaskControlBlock

/-- The flags of `clone` that are not about memory or files. -/
structure CloneFlags where
  vm : Bool
  thread : Bool
  child_cleartid : Bool

/-- The bits of the declared flags. -/
def CloneFlags.bits : List Nat := [8, 9, 10, 11, 15, 16, 18, 19, 20, 21, 22, 24]

def CloneFlags.from_bits (flags : Nat) : Option CloneFlags :=
  if (List.range 64).all fun i => flags.testBit i → i ∈ bits then
    some ⟨flags.testBit 8, flags.testBit 16, flags.testBit 21⟩
  else none

end MyGOS.Task
