import MyGOS.Task.SignalReturn

/-!
# Signals during a system call

A call that suspends the task may deliver signals there, one frame upon the
other, while the trap handler has still to store its result. The frames are
popped one by one when the handlers return.
-/

namespace MyGOS.Task

open Mm Outcome StepSystem

namespace Signals

/-- The argument register and the program counter that user mode goes on with. -/
def entry (cx : TrapContext) : BitVec 64 × BitVec 64 := (cx.x 10, cx.sepc)

/-- User mode is entered as the entries say, innermost handler first, and at last as `user`. Each
handler returns with the stack pointer it got and leaves the stack below `hi` alone. -/
def Unwinds (hi : Nat) (user : BitVec 64 × BitVec 64) :
    List (BitVec 64 × BitVec 64) → Signals → UserMemory → Prop
  | [], s, _ => entry s.trap_cx = user
  | e :: es, s, mem => entry s.trap_cx = e ∧
      ∀ u umem, Untouched s u mem umem (s.trap_cx.x 2).toNat hi →
        ∃ t, u.sys_sigreturn umem = .ok t ∧ Unwinds hi user es t umem

/-- The frames on the stack from the stack pointer of a context up to `hi`. -/
def Stacked (mem : UserMemory) (hi : Nat) : TrapContext → List SignalContext → Prop
  | cx, [] => (cx.x 2).toNat = hi
  | cx, sc :: frames => (cx.x 2).toNat + FRAME = (sc.context.x 2).toNat ∧
      Frame mem (cx.x 2).toNat sc sc.context.sepc ∧ Stacked mem hi sc.context frames

variable {s t : Signals} {mem mem' : UserMemory} {hi : Nat} {cx : TrapContext}
  {frames : List SignalContext} {user : BitVec 64 × BitVec 64}
  {es : List (BitVec 64 × BitVec 64)}

theorem Stacked.hi_eq (h : Stacked mem hi cx frames) :
    (cx.x 2).toNat + FRAME * frames.length = hi := by
  induction frames generalizing cx with
  | nil => exact h
  | cons sc frames ih =>
    obtain ⟨hsp, -, hrest⟩ := h
    have hsum := ih hrest
    rw [List.length_cons, Nat.mul_add]
    omega

theorem Stacked.of_view (h : Stacked mem hi cx frames)
    (hview : ∀ va, (cx.x 2).toNat ≤ va → va < hi → mem'.view va = mem.view va) :
    Stacked mem' hi cx frames := by
  induction frames generalizing cx with
  | nil => exact h
  | cons sc frames ih =>
    obtain ⟨hsp, hframe, hrest⟩ := h
    have hsum := hrest.hi_eq
    refine ⟨hsp, hframe.of_view fun va hle hlt => hview va hle (by omega), ih hrest ?_⟩
    exact fun va hle hlt => hview va (by omega) hlt

theorem entry_entered (s : Signals) (signum : Nat) (sa : SigActionRecord) :
    entry (s.entered signum sa).trap_cx = (.ofNat 64 signum, sa.sa_handler) := by
  simp [entry, entered, TrapContext.set_x_x_of_ne]

/-- What the returns from the frames do is read off the saved contexts. -/
theorem unwinds_iff (h : Stacked mem hi s.trap_cx frames) (hlen : frames.length = es.length)
    (huser : hi ≤ 2 ^ 38) : Unwinds hi user es s mem ↔
      (s.trap_cx :: frames.map (·.context)).map entry = es ++ [user] ∧
        ∀ j, j < es.length → Fits ((s.trap_cx.x 2).toNat + j * FRAME) := by
  induction es generalizing s mem frames with
  | nil =>
    obtain rfl := List.length_eq_zero_iff.mp hlen
    simp [Unwinds]
  | cons e es ih =>
    obtain ⟨sc, frames, rfl⟩ := List.exists_cons_of_length_eq_add_one hlen
    obtain ⟨hsp, hframe, hrest⟩ := h
    have hsum := hrest.hi_eq
    have hlen' : frames.length = es.length := by
      rw [List.length_cons, List.length_cons] at hlen
      omega
    have hshift : ∀ j, (s.trap_cx.x 2).toNat + (j + 1) * FRAME =
        (sc.context.x 2).toNat + j * FRAME := by
      intro j
      rw [← hsp, Nat.add_mul, Nat.one_mul]
      omega
    have hreturn : ∀ u umem, Untouched s u mem umem (s.trap_cx.x 2).toNat hi →
        Fits (s.trap_cx.x 2).toNat →
        u.sys_sigreturn umem = .ok { u with trap_cx := sc.context, sigmask := sc.mask } := by
      intro u umem hu hfits
      have hframe' : Frame umem (u.trap_cx.x 2).toNat sc sc.context.sepc := by
        rw [hu.sp]
        exact hframe.of_view fun va hle hlt => hu.view va hle (by omega)
      rw [← hu.sp] at hfits hsp
      exact sys_sigreturn_frame hframe' hfits (by omega)
    rw [Unwinds, List.map_cons, List.map_cons, List.cons_append, List.cons.injEq]
    constructor
    · rintro ⟨hentry, hunwinds⟩
      obtain ⟨t, ht, hes⟩ := hunwinds s mem ⟨rfl, fun _ _ _ => rfl⟩
      have hfits : Fits (s.trap_cx.x 2).toNat := by
        by_contra hfits
        exact sys_sigreturn_crosses hfits (by omega) t ht
      rw [hreturn s mem ⟨rfl, fun _ _ _ => rfl⟩ hfits] at ht
      cases ht
      obtain ⟨hentries, hall⟩ := (ih hrest hlen').mp hes
      refine ⟨⟨hentry, hentries⟩, fun j hj => ?_⟩
      cases j with
      | zero =>
        rw [Nat.zero_mul, Nat.add_zero]
        exact hfits
      | succ j =>
        rw [hshift]
        exact hall j (Nat.lt_of_succ_lt_succ hj)
    · rintro ⟨⟨hentry, hentries⟩, hall⟩
      have hfits : Fits (s.trap_cx.x 2).toNat := by
        have hzero := hall 0 (Nat.succ_pos _)
        rwa [Nat.zero_mul, Nat.add_zero] at hzero
      refine ⟨hentry, fun u umem hu => ⟨_, hreturn u umem hu hfits, ?_⟩⟩
      have hstacked : Stacked umem hi sc.context frames :=
        hrest.of_view fun va hle hlt => hu.view va (by omega) hlt
      refine (ih hstacked hlen').mpr ⟨hentries, fun j hj => ?_⟩
      have hj' := hall (j + 1) (Nat.succ_lt_succ hj)
      rwa [hshift] at hj'

end Signals

/-- What happens in a call, between its trap and its result. -/
inductive CallEvent where
  /-- the call, or another task, writes to user memory -/
  | work (mem : UserMemory)
  | signal (signal : SigSet)
  /-- `suspend_current_and_run_next`, with the actions the task has then -/
  | suspend (sigactions : SigActions)
  /-- `hanging_current_and_run_next` or `block_current_and_run_next` -/
  | block

inductive CallEnd where
  | panic (panic : Panic)
  | exited

/-- The task in the call, and where it has been made to enter handlers: the number of the
signal and the handler, the last one first. -/
structure Call where
  signals : Signals
  mem : UserMemory
  entered : List (BitVec 64 × BitVec 64)

namespace Call

open Signals

/-- The handler that `exec_signal_handlers` enters. -/
def handler_entry : Taken → List (BitVec 64 × BitVec 64)
  | .handler signum sa => [(.ofNat 64 signum, sa.sa_handler)]
  | .nothing | .default _ => []

def exec_signal_handlers (sigactions : SigActions) (c : Call) : Except CallEnd Call :=
  match c.signals.take_signal sigactions, c.signals.exec_signal_handlers sigactions c.mem with
  | .ok (taken, _), .ok (some signals, mem) =>
    .ok ⟨signals, mem, handler_entry taken ++ c.entered⟩
  | _, .ok (none, _) => .error .exited
  | .error e, _ | _, .error e => .error (.panic e)

def step (c : Call) : CallEvent → Except CallEnd Call
  | .work mem => .ok { c with mem := mem }
  | .signal signal =>
    .ok { c with signals.pending_signals := c.signals.pending_signals ||| signal }
  | .suspend sigactions => c.exec_signal_handlers sigactions
  | .block => .ok c

/-- The `UserEnvCall` arm of `user_trap_handler` before the call. -/
def trap (s : Signals) (mem : UserMemory) : Call :=
  ⟨{ s with trap_cx := { s.trap_cx with sepc := s.trap_cx.sepc + 4 } }, mem, []⟩

/-- The rest of `user_trap_handler`. `timer` is what `check_interval_timer` adds. -/
def finish (c : Call) (result : BitVec 64) (timer : SigSet) (sigactions : SigActions) :
    Except CallEnd Call :=
  let c := { c with signals.trap_cx := c.signals.trap_cx.set_x 10 result }
  let c := { c with signals.pending_signals := c.signals.pending_signals ||| timer }
  c.exec_signal_handlers sigactions

/-- The stack stays mapped from `lo` to `hi`, the call and the other tasks leave what is pushed
on it alone, and each suspension has room for a frame. -/
def Roomy (lo hi : Nat) (c : Call) : CallEvent → Prop
  | .work mem => mem.ms.Stack lo hi ∧
      ∀ va, (c.signals.trap_cx.x 2).toNat ≤ va → va < hi → mem.view va = c.mem.view va
  | .suspend _ => lo + FRAME ≤ (c.signals.trap_cx.x 2).toNat
  | .signal _ | .block => True

variable {c d : Call} {lo hi : Nat} {user : BitVec 64 × BitVec 64} {sigactions : SigActions}
  {es : List (BitVec 64 × BitVec 64)} {result : BitVec 64} {timer : SigSet}
  {frames : List SignalContext}

/-- The frames of the call, and what their contexts enter. -/
structure Holds (c : Call) (lo hi : Nat) (es : List (BitVec 64 × BitVec 64))
    (frames : List SignalContext) : Prop where
  stack : c.mem.ms.Stack lo hi
  stacked : Stacked c.mem hi c.signals.trap_cx frames
  entries : (c.signals.trap_cx :: frames.map (·.context)).map entry = es

/-- A delivery pushes one frame; without one nothing changes that shows. -/
theorem Holds.exec (h : c.Holds lo hi es frames)
    (hroom : lo + FRAME ≤ (c.signals.trap_cx.x 2).toNat)
    (hd : c.exec_signal_handlers sigactions = .ok d) : ∃ pushed new,
      d.Holds lo hi (new ++ es) (pushed ++ frames) ∧ d.entered = new ++ c.entered := by
  have hle : (c.signals.trap_cx.x 2).toNat ≤ hi := by
    have hsum := h.stacked.hi_eq
    omega
  rw [exec_signal_handlers] at hd
  split at hd
  · next taken s₁ signals mem htake hexec =>
    cases hd
    obtain ⟨hcx, hmask⟩ := take_signal_keeps htake
    cases taken with
    | nothing =>
      rw [Signals.exec_signal_handlers, htake] at hexec
      cases hexec
      refine ⟨[], [], ⟨h.stack, ?_, ?_⟩, rfl⟩
      · rw [hcx]
        exact h.stacked
      · rw [hcx]
        exact h.entries
    | default signum =>
      rw [Signals.exec_signal_handlers, htake] at hexec
      simp only [bind, Except.bind] at hexec
      split at hexec
      · cases hexec
      · cases hexec
        refine ⟨[], [], ⟨h.stack, ?_, ?_⟩, rfl⟩
        · rw [hcx]
          exact h.stacked
        · rw [hcx]
          exact h.entries
    | handler signum sa =>
      rw [exec_signal_handlers_handler htake] at hexec
      obtain ⟨ph', hdeliver, hframe, hview⟩ := @deliver_stack s₁ c.mem lo hi h.stack
        (by rw [hcx]; exact hroom) (by rw [hcx]; exact hle) signum sa
      rw [hdeliver] at hexec
      cases hexec
      rw [hcx, hmask] at hframe
      rw [hcx] at hview
      have hsp : ((s₁.entered signum sa).trap_cx.x 2).toNat =
          (c.signals.trap_cx.x 2).toNat - FRAME := by
        rw [entered_sp, hcx]
        exact (frame_pointers (by omega)).2
      refine ⟨[⟨c.signals.trap_cx, c.signals.sigmask⟩], handler_entry (.handler signum sa),
        ⟨h.stack, ⟨?_, ?_, ?_⟩, ?_⟩, rfl⟩
      · dsimp only
        rw [hsp]
        omega
      · dsimp only
        rw [hsp]
        exact hframe
      · exact h.stacked.of_view hview
      · have hentry := entry_entered s₁ signum sa
        rw [List.singleton_append, List.map_cons, List.map_cons, hentry, h.entries]
        rfl
  · cases hd
  · cases hd
  · cases hd

/-- One event of a call. -/
theorem Holds.event (h : c.Holds lo hi (c.entered ++ [user]) frames) {event : CallEvent}
    (hroom : Roomy lo hi c event) (hd : c.step event = .ok d) :
    ∃ frames', d.Holds lo hi (d.entered ++ [user]) frames' := by
  cases event with
  | work mem =>
    cases hd
    exact ⟨frames, hroom.1, h.stacked.of_view hroom.2, h.entries⟩
  | signal signal =>
    cases hd
    exact ⟨frames, h.stack, h.stacked, h.entries⟩
  | suspend sigactions =>
    obtain ⟨pushed, new, hholds, hentered⟩ := h.exec hroom hd
    rw [hentered, List.append_assoc]
    exact ⟨_, hholds⟩
  | block =>
    cases hd
    exact ⟨frames, h⟩

theorem Holds.events {events : List CallEvent} (h : c.Holds lo hi (c.entered ++ [user]) frames)
    (hroom : Guarded step (Roomy lo hi) c events) (hd : run step c events = .ok d) :
    ∃ frames', d.Holds lo hi (d.entered ++ [user]) frames' := by
  have hall : ∀ c' : Call, c' ∈ states step c events →
      ∃ frames', c'.Holds lo hi (c'.entered ++ [user]) frames' := by
    refine invariant (fun c' : Call => ∃ frames', c'.Holds lo hi (c'.entered ++ [user]) frames') ?_
      ⟨frames, h⟩ hroom
    rintro c' event d' ⟨frames', hholds⟩ hevent hstep
    exact hholds.event hevent hstep
  exact hall d (mem_states_of_run hd)

theorem Holds.trap {s : Signals} {mem : UserMemory} (h : mem.ms.Stack lo (s.trap_cx.x 2).toNat) :
    (trap s mem).Holds lo (s.trap_cx.x 2).toNat [(s.trap_cx.x 10, s.trap_cx.sepc + 4)] [] :=
  ⟨h, rfl, rfl⟩

/-- The result goes to the entry that is next, whichever it is. -/
theorem Holds.set_result {e : BitVec 64 × BitVec 64} (h : c.Holds lo hi (e :: es) frames)
    (result : BitVec 64) (timer : SigSet) :
    Holds { c with signals := { c.signals with
      trap_cx := c.signals.trap_cx.set_x 10 result
      pending_signals := c.signals.pending_signals ||| timer } } lo hi ((result, e.2) :: es) frames := by
  have hsp : (c.signals.trap_cx.set_x 10 result).x 2 = c.signals.trap_cx.x 2 :=
    TrapContext.set_x_x_of_ne _ _ _ (by decide)
  obtain ⟨hstack, hstacked, hentries⟩ := h
  rw [List.map_cons, List.cons.injEq] at hentries
  obtain ⟨hhead, htail⟩ := hentries
  refine ⟨hstack, ?_, ?_⟩
  · cases frames with
    | nil =>
      rw [Stacked, hsp]
      exact hstacked
    | cons sc frames =>
      rw [Stacked, hsp]
      exact hstacked
  · rw [List.map_cons, htail, ← hhead]
    simp [entry]

/-- With handlers entered in a call, both are preserved only where the argument register, the
result and the number of the last signal are the same. -/
theorem entries_iff {e : BitVec 64 × BitVec 64} {entered new : List (BitVec 64 × BitVec 64)}
    {a0 pc : BitVec 64} (h : e :: es = entered ++ [(a0, pc)]) :
    new ++ (result, e.2) :: es = (new ++ entered) ++ [(result, pc)] ↔
      entered = [] ∨ a0 = result ∧ entered.head?.map Prod.fst = some result := by
  rw [List.append_assoc, List.append_cancel_left_eq]
  cases entered with
  | nil =>
    cases h
    simp
  | cons x xs =>
    rw [List.cons_append, List.cons.injEq] at h
    obtain ⟨rfl, rfl⟩ := h
    obtain ⟨signum, handler⟩ := e
    simp only [List.cons_append, List.cons.injEq, Prod.mk.injEq, and_true, List.append_cancel_left_eq,
      List.head?_cons, Option.map_some, Option.some.injEq, reduceCtorEq, false_or]
    constructor
    · rintro ⟨rfl, rfl⟩
      exact ⟨rfl, rfl⟩
    · rintro ⟨rfl, rfl⟩
      exact ⟨rfl, rfl⟩

/-- The handlers of a call get the numbers of their signals and the interrupted code gets the
result if and only if no suspension of the call entered a handler, or the argument register at
the trap, the result and the number of the last signal are equal, and the frames fit. -/
theorem call_preserves_iff {s : Signals} {mem : UserMemory} {events : List CallEvent}
    (hstack : mem.ms.Stack lo (s.trap_cx.x 2).toNat)
    (hroom : Guarded step (Roomy lo (s.trap_cx.x 2).toNat) (Call.trap s mem) events)
    (hrun : run step (Call.trap s mem) events = .ok c)
    (hlast : lo + FRAME ≤ (c.signals.trap_cx.x 2).toNat)
    (hfinish : c.finish result timer sigactions = .ok d) :
    Unwinds (s.trap_cx.x 2).toNat (result, s.trap_cx.sepc + 4) d.entered d.signals d.mem ↔
      (c.entered = [] ∨ s.trap_cx.x 10 = result ∧ c.entered.head?.map Prod.fst = some result) ∧
        ∀ j, j < d.entered.length → Fits ((d.signals.trap_cx.x 2).toNat + j * FRAME) := by
  have huser := hstack.user
  obtain ⟨frames, hc⟩ := (Holds.trap hstack).events hroom hrun
  obtain ⟨e, es, hes⟩ : ∃ e es, c.entered ++ [(s.trap_cx.x 10, s.trap_cx.sepc + 4)] = e :: es :=
    List.exists_cons_of_ne_nil (by simp)
  rw [hes] at hc
  have hsp : (c.signals.trap_cx.set_x 10 result).x 2 = c.signals.trap_cx.x 2 :=
    TrapContext.set_x_x_of_ne _ _ _ (by decide)
  obtain ⟨pushed, new, hd, hentered⟩ := (hc.set_result result timer).exec
    (by dsimp only; rw [hsp]; exact hlast) hfinish
  have hlen : (pushed ++ frames).length = d.entered.length := by
    have hcount := congrArg List.length hd.entries
    have hcount' := congrArg List.length hes
    rw [hentered]
    simp only [List.map_cons, List.length_cons, List.length_map, List.length_append,
      List.length_nil] at hcount hcount' ⊢
    omega
  rw [unwinds_iff hd.stacked hlen huser, hd.entries, hentered, entries_iff hes.symm]

/-- A suspension while `SIGUSR1` is pending, and a result of 1. -/
theorem suspended_entered : Meets (run step (trap (usr1_pending 0xf000_0000) (flat (uniform 0)))
    [.suspend fun _ => usr1_action]) (fun _ => False) fun c =>
      Meets (c.finish 1 0 fun _ => usr1_action) (fun _ => False) fun d =>
        d.entered = [(10, 0x20000)] ∧ d.signals.trap_cx.x 10 = 1 := by
  decide +kernel

/-- A `read` of one byte from a pipe that suspends while `SIGUSR1` is pending. -/
theorem suspended_read : ∃ c,
    run step (trap (usr1_pending 0xf000_0000) (flat (uniform 0))) [.suspend fun _ => usr1_action] =
      .ok c ∧ ∃ d, c.finish 1 0 (fun _ => usr1_action) = .ok d ∧ d.entered = [(10, 0x20000)] ∧
        d.signals.trap_cx.x 10 = 1 ∧
          ¬ Unwinds 0xf000_0000 (1, 0x10004) d.entered d.signals d.mem := by
  obtain ⟨c, hc, hfinish⟩ := suspended_entered.exists_ok
  obtain ⟨d, hd, hentered, ha0⟩ := hfinish.exists_ok
  refine ⟨c, hc, d, hd, hentered, ha0, fun hunwinds => ?_⟩
  rw [hentered] at hunwinds
  have hsignum : (1 : BitVec 64) = 10 := ha0.symm.trans (congrArg Prod.fst hunwinds.1)
  exact absurd hsignum (by decide)

theorem blocked_entered : Meets ((trap (usr1_pending 0xf000_0000) (flat (uniform 0))).finish 5 0
    fun _ => usr1_action) (fun _ => False) fun d =>
      d.entered.length = 1 ∧ (d.signals.trap_cx.x 2).toNat = 0xf000_0000 - FRAME := by
  decide +kernel

/-- A call that blocks without a delivery, with the result 5. -/
theorem blocked_call_preserves : ∃ d,
    (trap (usr1_pending 0xf000_0000) (flat (uniform 0))).finish 5 0 (fun _ => usr1_action) = .ok d ∧
      Unwinds 0xf000_0000 (5, 0x10004) d.entered d.signals d.mem := by
  obtain ⟨d, hd, hlen, hsp⟩ := blocked_entered.exists_ok
  have hstack : (flat (uniform 0)).ms.Stack (0xf000_0000 - FRAME) 0xf000_0000 :=
    flat_stack (uniform 0) (by decide)
  have hroom : Guarded step (Roomy (0xf000_0000 - FRAME) 0xf000_0000)
      (trap (usr1_pending 0xf000_0000) (flat (uniform 0))) [.block] := ⟨trivial, trivial⟩
  have hlast : 0xf000_0000 - FRAME + FRAME ≤ 0xf000_0000 := by decide
  have hrun : run step (trap (usr1_pending 0xf000_0000) (flat (uniform 0))) [.block] =
      .ok (trap (usr1_pending 0xf000_0000) (flat (uniform 0))) := rfl
  have hiff := @call_preserves_iff _ _ _ _ _ _ (usr1_pending 0xf000_0000) _ _ hstack hroom hrun
    hlast hd
  refine ⟨d, hd, hiff.mpr ⟨.inl rfl, ?_⟩⟩
  rw [hlen, hsp]
  decide

end Call

end MyGOS.Task
