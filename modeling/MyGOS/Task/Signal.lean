import MyGOS.Lib.StepSystem
import MyGOS.Mm.MappedBuffer
import MyGOS.Task.TrapContext

/-!
# Signal delivery and the calls on signal masks

What `exec_signal_handlers`, `sys_sigreturn`, `sys_sigaction` and
`sys_sigprocmask` do to the trap context and the mask of one task and to its
user memory. The trap context has its own frame, apart from the user pages.
-/

namespace MyGOS.Task

open Mm LittleEndian Outcome

def MAX_SIGNUM : Nat := 64
def SIGILL : Nat := 4
def SIGSTOP : Nat := 19

/-- `SigAction` with all its fields. -/
structure SigActionRecord where
  sa_handler : BitVec 64
  sa_flags : BitVec 32
  sa_restorer : BitVec 64
  sa_mask : SigSet

namespace SigActionRecord

/-- `SigAction::new`. -/
def new : SigActionRecord := ⟨.ofNat 64 SIG_DFL, 0, 0, 0⟩

/-- The four bytes behind `sa_flags` are padding. -/
def bytes (sa : SigActionRecord) : List UInt8 :=
  row [sa.sa_handler, sa.sa_flags.setWidth 64, sa.sa_restorer, sa.sa_mask]

def of_bytes (l : List UInt8) : SigActionRecord where
  sa_handler := word l 0
  sa_flags := (word l 8).setWidth 32
  sa_restorer := word l 16
  sa_mask := word l 24

/-- `SA_NODEFER` is bit 30 of `sa_flags`. -/
def nodefer (sa : SigActionRecord) : Bool := sa.sa_flags.getLsbD 30

end SigActionRecord

/-- The actions of a task, or of the tasks that share them. -/
abbrev SigActions := Fin 64 → SigActionRecord

/-- What the signal code reads and writes of a `TaskControlBlockInner`. -/
structure Signals where
  trap_cx : TrapContext
  sigmask : SigSet
  pending_signals : SigSet

/-- The action the loop over the pending signals ends at. -/
inductive Taken where
  | nothing
  | default (signum : Nat)
  | handler (signum : Nat) (sa : SigActionRecord)

/-- A user address space with the physical memory behind it. -/
structure UserMemory where
  ms : MemorySet
  ph : Phys

namespace UserMemory

def view (mem : UserMemory) (va : Nat) : Option UInt8 := mem.ms.view mem.ph va

/-- `copyout(token, dst, &src)`. -/
def copyout (mem : UserMemory) (dst : BitVec 64) (src : List UInt8) : Except Panic UserMemory := do
  let (ms, ph) ← Mm.copyout mem.ms mem.ph dst.toNat src
  return ⟨ms, ph⟩

def copyin (mem : UserMemory) (dst : List UInt8) (src : BitVec 64) :
    Except Panic (List UInt8 × UserMemory) := do
  let (bytes, ms, ph) ← Mm.copyin mem.ms mem.ph dst src.toNat
  return (bytes, ⟨ms, ph⟩)

/-- The object behind `translated_ref(token, ptr)`. -/
def object (mem : UserMemory) (ptr : BitVec 64) (size : Nat) : Except Panic (List UInt8) := do
  return mem.ph.object (← translated_ref mem.ms ptr.toNat size) size

/-- `*translated_mut(token, ptr) = data`. -/
def store (mem : UserMemory) (ptr : BitVec 64) (data : List UInt8) : Except Panic UserMemory := do
  let place ← translated_ref mem.ms ptr.toNat data.length
  return { mem with ph := mem.ph.write place.1 place.2 data }

/-- `if ptr as usize != 0` around a write to user memory. -/
def unless_null (mem : UserMemory) (ptr : BitVec 64) (write : Except Panic UserMemory) :
    Except Panic UserMemory :=
  if ptr = 0 then .ok mem else write

end UserMemory

namespace Signals

/-- The loop of `exec_signal_handlers`. Each round takes a signal out of the pending ones. -/
def take_loop (sigactions : SigActions) : (fuel : Nat) → Signals → Except Panic (Taken × Signals)
  | 0, _ => .error .outOfBounds
  | fuel + 1, s =>
    match (s.pending_signals.difference s.sigmask).fetch with
    | none => .ok (.nothing, s)
    | some signum =>
      let s := { s with pending_signals := s.pending_signals.sub signum }
      if h : signum < 64 then
        let sa := sigactions ⟨signum, h⟩
        if sa.sa_handler.toNat = SIG_IGN then take_loop sigactions fuel s
        else if sa.sa_handler.toNat = SIG_DFL then .ok (.default signum, s)
        else .ok (.handler signum sa, s)
      else .error .outOfBounds

def take_signal (sigactions : SigActions) (s : Signals) : Except Panic (Taken × Signals) :=
  if s.pending_signals = 0 then .ok (.nothing, s) else take_loop sigactions 64 s

/-- The frame of a handler and its entry, as the loop makes them. -/
def deliver (s : Signals) (mem : UserMemory) (signum : Nat) (sa : SigActionRecord) :
    Except Panic (Signals × UserMemory) := do
  let sigmask := if sa.nodefer then sa.sa_mask else sa.sa_mask.add signum
  let old_sigmask := s.sigmask
  let sig_context : SignalContext := ⟨s.trap_cx, old_sigmask⟩
  let cx := s.trap_cx.set_x 10 (.ofNat 64 signum)
  let cx := cx.set_x 2 (cx.x 2 - .ofNat 64 UContext.SIZE)
  let ucontext_ptr := cx.x 2
  let cx := cx.set_x 2 (cx.x 2 - .ofNat 64 SigInfo.SIZE)
  let siginfo_ptr := cx.x 2
  let cx := (cx.set_x 11 siginfo_ptr).set_x 12 ucontext_ptr
  let ucontext := UContext.empty.set_greps 1 cx.sepc
  let mem ← mem.copyout ucontext_ptr ucontext.bytes
  let cx := cx.set_x 2 (cx.x 2 - .ofNat 64 SignalContext.SIZE)
  let mem ← mem.copyout (cx.x 2) sig_context.bytes
  let cx := cx.set_x 1 (.ofNat 64 SIGNAL_TRAMPOLINE)
  return ({ s with trap_cx := { cx with sepc := sa.sa_handler }, sigmask := sigmask ||| old_sigmask },
    mem)

/-- `none` when the task has exited. -/
def exec_signal_handlers (sigactions : SigActions) (s : Signals) (mem : UserMemory) :
    Except Panic (Option Signals × UserMemory) := do
  match ← s.take_signal sigactions with
  | (.nothing, s) => return (some s, mem)
  | (.default signum, s) =>
    if signum = SIGKILL ∨ signum = SIGSEGV then return (none, mem) else return (some s, mem)
  | (.handler signum sa, s) =>
    let (s, mem) ← s.deliver mem signum sa
    return (some s, mem)

def sys_sigreturn (s : Signals) (mem : UserMemory) : Except Panic Signals := do
  let sig_context_ptr := s.trap_cx.x 2
  let ucontext_ptr := sig_context_ptr + .ofNat 64 SignalContext.SIZE + .ofNat 64 SigInfo.SIZE
  let ucontext ← mem.object ucontext_ptr UContext.SIZE
  let sig_context := SignalContext.of_bytes (← mem.object sig_context_ptr SignalContext.SIZE)
  return { s with
    trap_cx := { sig_context.context with sepc := UContext.greps_of ucontext 1 }
    sigmask := sig_context.mask }

/-- The signals that `sys_sigaction` and `sys_sigprocmask` take out of a mask. -/
def unblockable (mask : SigSet) : SigSet :=
  (((mask.sub SIGKILL).sub SIGSTOP).sub SIGILL).sub SIGSEGV

/-- `MaskFlags::from_how` and the update of the mask. -/
def change_mask (how : Nat) (old_mask new_set : SigSet) : Except Panic SigSet :=
  match how with
  | 0 => .ok (old_mask ||| new_set)
  | 1 => .ok (old_mask &&& SigSet.from_bits_truncate (~~~new_set))
  | 2 => .ok new_set
  | how => .error (.unsupportedBits how)

def sys_sigprocmask (s : Signals) (mem : UserMemory) (how : Nat) (set old_set : BitVec 64) :
    Except Panic (Signals × UserMemory) := do
  let mem ← mem.unless_null old_set (mem.store old_set (bytes 8 s.sigmask.toNat))
  if set = 0 then return (s, mem)
  else
    let new_set := word (← mem.object set 8) 0
    let sigmask ← change_mask how s.sigmask (unblockable new_set)
    return ({ s with sigmask := sigmask }, mem)

end Signals

/-- `signum` is an `isize` that is cut to 32 bits. -/
def sys_sigaction (sigactions : SigActions) (mem : UserMemory) (signum : BitVec 64)
    (act oldact : BitVec 64) : Except Panic (Except Errno Unit × SigActions × UserMemory) := do
  let signum := (signum.setWidth 32).toNat
  if MAX_SIGNUM < signum ∨ signum = SIGKILL ∨ signum = SIGSTOP then
    return (.error .EINVAL, sigactions, mem)
  else if act = 0 then return (.ok (), sigactions, mem)
  else if h : signum < 64 then
    let mem ← mem.unless_null oldact (mem.copyout oldact (sigactions ⟨signum, h⟩).bytes)
    let (bytes, mem) ← mem.copyin SigActionRecord.new.bytes act
    let sa := SigActionRecord.of_bytes bytes
    let sa := { sa with sa_mask := Signals.unblockable sa.sa_mask }
    return (.ok (), Function.update sigactions ⟨signum, h⟩ sa, mem)
  else .error .outOfBounds

end MyGOS.Task
