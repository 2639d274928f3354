import MyGOS.Task.SignalReturn

/-!
# Signal masks over runs

The tasks of a system with their masks, and the tables of actions they share.
What user memory holds comes with each step. Every path to a mask but one takes
`SIGKILL` and `SIGSTOP` out of it.
-/

namespace MyGOS.Task

open Mm LittleEndian Outcome StepSystem

namespace SigSet

variable {s m : SigSet} {signum i : Nat}

theorem of_signum_eq (hpos : 0 < signum) (hlt : signum < 64) :
    of_signum signum = BitVec.twoPow 64 (signum - 1) := by
  have htop : (1#64 <<< 63) = BitVec.twoPow 64 63 := by decide
  rw [of_signum, from_bits_truncate, ← BitVec.twoPow_eq, htop]
  apply BitVec.eq_of_getLsbD_eq
  intro i hi
  rw [BitVec.getLsbD_and, BitVec.getLsbD_not, BitVec.getLsbD_twoPow, BitVec.getLsbD_twoPow]
  by_cases heq : signum - 1 = i
  · have hne : 63 ≠ i := by omega
    simp [heq, hne, hi]
  · simp [heq]

theorem contains_of_signum (hpos : 0 < signum) (hlt : signum < 64) :
    s.contains (of_signum signum) = s.getLsbD (signum - 1) := by
  have hiff : s.contains (of_signum signum) = true ↔ s.getLsbD (signum - 1) = true := by
    rw [contains, decide_eq_true_iff, of_signum_eq hpos hlt, BitVec.and_twoPow]
    cases hbit : s.getLsbD (signum - 1) with
    | true => simp
    | false =>
      simp only [Bool.false_eq_true, if_false, iff_false]
      intro hzero
      have hone := congrArg (fun b : BitVec 64 => b.getLsbD (signum - 1)) hzero
      rw [BitVec.getLsbD_twoPow] at hone
      simp at hone
      omega
  exact Bool.eq_iff_iff.mpr hiff

/-- Neither `SIGKILL` nor `SIGSTOP` is in the set. -/
def Free (s : SigSet) : Prop :=
  s.contains (of_signum SIGKILL) = false ∧ s.contains (of_signum SIGSTOP) = false

instance (s : SigSet) : Decidable s.Free := inferInstanceAs (Decidable (_ ∧ _))

theorem free_iff : s.Free ↔ s.getLsbD 8 = false ∧ s.getLsbD 18 = false := by
  have hkill : s.contains (of_signum SIGKILL) = s.getLsbD 8 :=
    contains_of_signum (by decide) (by decide)
  have hstop : s.contains (of_signum SIGSTOP) = s.getLsbD 18 :=
    contains_of_signum (by decide) (by decide)
  rw [Free, hkill, hstop]

theorem Free.or (hs : s.Free) (hm : m.Free) : (s ||| m).Free := by
  rw [free_iff] at *
  rw [BitVec.getLsbD_or, BitVec.getLsbD_or, hs.1, hs.2, hm.1, hm.2]
  exact ⟨rfl, rfl⟩

theorem Free.and (hs : s.Free) (m : SigSet) : (s &&& m).Free := by
  rw [free_iff] at *
  rw [BitVec.getLsbD_and, BitVec.getLsbD_and, hs.1, hs.2]
  exact ⟨rfl, rfl⟩

theorem Free.add (hs : s.Free) (hpos : 0 < signum) (hlt : signum < 64) (hkill : signum ≠ SIGKILL)
    (hstop : signum ≠ SIGSTOP) : (s.add signum).Free := by
  rw [free_iff] at *
  simp only [SIGKILL, SIGSTOP] at hkill hstop
  have hkill' : signum - 1 ≠ 8 := by omega
  have hstop' : signum - 1 ≠ 18 := by omega
  rw [SigSet.add, of_signum_eq hpos hlt, BitVec.getLsbD_or, BitVec.getLsbD_or,
    BitVec.getLsbD_twoPow, BitVec.getLsbD_twoPow, hs.1, hs.2, decide_eq_false hkill',
    decide_eq_false hstop', Bool.and_false]
  exact ⟨rfl, rfl⟩

theorem fetch_range (h : s.fetch = some signum) : 0 < signum ∧ signum < 64 := by
  have hmem := List.mem_of_find?_eq_some h
  rw [List.mem_range'_1] at hmem
  omega

end SigSet

namespace Signals

variable {s t : Signals} {mem mem' : UserMemory} {sigactions : SigActions} {signum : Nat}
  {sa : SigActionRecord}

theorem free_unblockable (mask : SigSet) : (unblockable mask).Free := by
  have hkill : SigSet.of_signum SIGKILL = BitVec.twoPow 64 8 := by decide
  have hstop : SigSet.of_signum SIGSTOP = BitVec.twoPow 64 18 := by decide
  rw [SigSet.free_iff, unblockable]
  simp [SigSet.sub, SigSet.difference, hkill, hstop]

theorem free_change_mask {how : Nat} {old new mask : SigSet} (hold : old.Free) (hnew : new.Free)
    (h : change_mask how old new = .ok mask) : mask.Free := by
  match how with
  | 0 =>
    cases h
    exact hold.or hnew
  | 1 =>
    cases h
    exact hold.and _
  | 2 =>
    cases h
    exact hnew
  | _ + 3 => cases h

theorem sys_sigprocmask_free {how : Nat} {set old_set : BitVec 64} (hs : s.sigmask.Free)
    (h : s.sys_sigprocmask mem how set old_set = .ok (t, mem')) : t.sigmask.Free := by
  rw [sys_sigprocmask] at h
  obtain ⟨m, -, h⟩ := bind_eq_ok.mp h
  split at h
  · cases h
    exact hs
  · obtain ⟨l, -, h⟩ := bind_eq_ok.mp h
    obtain ⟨mask, hmask, h⟩ := bind_eq_ok.mp h
    cases h
    exact free_change_mask hs (free_unblockable _) hmask

/-- A handler that is taken is one that was registered. -/
theorem take_loop_handler (fuel : Nat)
    (h : s.take_loop sigactions fuel = .ok (.handler signum sa, t)) :
    ∃ hlt : signum < 64, 0 < signum ∧ sa = sigactions ⟨signum, hlt⟩ ∧
      sa.sa_handler.toNat ≠ SIG_DFL := by
  induction fuel generalizing s with
  | zero => cases h
  | succ fuel ih =>
    rw [take_loop] at h
    split at h
    · cases h
    · next n hfetch =>
      split at h
      · next hlt =>
        dsimp only at h
        split at h
        · exact ih h
        · next hign =>
          split at h
          · cases h
          · next hdfl =>
            cases h
            exact ⟨hlt, (SigSet.fetch_range hfetch).1, rfl, hdfl⟩
      · cases h

theorem take_signal_handler (h : s.take_signal sigactions = .ok (.handler signum sa, t)) :
    ∃ hlt : signum < 64, 0 < signum ∧ sa = sigactions ⟨signum, hlt⟩ ∧
      sa.sa_handler.toNat ≠ SIG_DFL := by
  rw [take_signal] at h
  split at h
  · cases h
  · exact take_loop_handler 64 h

theorem deliver_sigmask (h : s.deliver mem signum sa = .ok (t, mem')) :
    t.sigmask = (if sa.nodefer then sa.sa_mask else sa.sa_mask.add signum) ||| s.sigmask := by
  rw [deliver] at h
  obtain ⟨m, -, h⟩ := bind_eq_ok.mp h
  obtain ⟨m', -, h⟩ := bind_eq_ok.mp h
  cases h
  rfl

end Signals

/-- The actions as `sys_sigaction` leaves them: the masks are free, and there is no handler for
the two signals. -/
structure ActionsFree (sigactions : SigActions) : Prop where
  mask : ∀ i, (sigactions i).sa_mask.Free
  default : ∀ i, i.val = SIGKILL ∨ i.val = SIGSTOP → (sigactions i).sa_handler.toNat = SIG_DFL

namespace Signals

variable {s t : Signals} {mem mem' : UserMemory} {sigactions : SigActions}

theorem exec_signal_handlers_free (ha : ActionsFree sigactions) (hs : s.sigmask.Free)
    (h : s.exec_signal_handlers sigactions mem = .ok (some t, mem')) : t.sigmask.Free := by
  rw [exec_signal_handlers] at h
  obtain ⟨⟨taken, s₁⟩, htake, h⟩ := bind_eq_ok.mp h
  have hkeep := (take_signal_keeps htake).2
  cases taken with
  | nothing =>
    cases h
    rw [hkeep]
    exact hs
  | default signum =>
    dsimp only at h
    split at h
    · cases h
    · cases h
      rw [hkeep]
      exact hs
  | handler signum sa =>
    obtain ⟨⟨t', m⟩, hdeliver, h⟩ := bind_eq_ok.mp h
    cases h
    obtain ⟨hlt, hpos, hsa, hdfl⟩ := take_signal_handler htake
    have hmask : sa.sa_mask.Free := hsa ▸ ha.mask _
    have hkill : signum ≠ SIGKILL :=
      fun heq => hdfl (hsa ▸ ha.default ⟨signum, hlt⟩ (.inl heq))
    have hstop : signum ≠ SIGSTOP :=
      fun heq => hdfl (hsa ▸ ha.default ⟨signum, hlt⟩ (.inr heq))
    rw [deliver_sigmask hdeliver, hkeep]
    split
    · exact hmask.or hs
    · exact (hmask.add hpos hlt hkill hstop).or hs

end Signals

theorem sys_sigaction_free {sigactions sigactions' : SigActions} {mem mem' : UserMemory}
    {signum act oldact : BitVec 64} {r : Except Errno Unit} (ha : ActionsFree sigactions)
    (h : sys_sigaction sigactions mem signum act oldact = .ok (r, sigactions', mem')) :
    ActionsFree sigactions' := by
  rw [sys_sigaction] at h
  dsimp only at h
  split at h
  · cases h
    exact ha
  · next hvalid =>
    split at h
    · cases h
      exact ha
    · split at h
      · next hlt =>
        obtain ⟨m, -, h⟩ := bind_eq_ok.mp h
        obtain ⟨⟨l, m'⟩, -, h⟩ := bind_eq_ok.mp h
        cases h
        constructor
        · intro i
          by_cases hi : i = ⟨(signum.setWidth 32).toNat, hlt⟩
          · subst hi
            rw [Function.update_self]
            exact Signals.free_unblockable _
          · rw [Function.update_of_ne hi]
            exact ha.mask i
        · intro i hi
          rw [Function.update_of_ne]
          · exact ha.default i hi
          · rintro rfl
            exact hvalid (.inr hi)
      · cases h

/-- A task, with the number of its `Arc<RwLock<[SigAction]>>`. -/
structure SignalTask where
  signals : Signals
  sigactions : Nat

structure SignalWorld where
  tasks : Nat → Option SignalTask
  tables : Nat → SigActions
  next_task : Nat
  next_table : Nat

inductive SignalOp where
  /-- user code, which changes the user part of the context -/
  | user (id : Nat) (x : Fin 32 → BitVec 64) (sepc : BitVec 64) (freg : Fin 32 → BitVec 64)
  | add_signal (id : Nat) (signal : SigSet)
  | exec_signal_handlers (id : Nat) (mem : UserMemory)
  | sys_sigreturn (id : Nat) (mem : UserMemory)
  | sys_sigaction (id : Nat) (mem : UserMemory) (signum act oldact : BitVec 64)
  | sys_sigprocmask (id : Nat) (mem : UserMemory) (how : Nat) (set old_set : BitVec 64)
  /-- `trap_cx` is the context that the copy of the address space and `clone` give the child -/
  | fork (id : Nat) (sighand : Bool) (trap_cx : TrapContext)

namespace SignalWorld

/-- The first task, as `TaskControlBlock::new` makes it. -/
def boot (trap_cx : TrapContext) : SignalWorld where
  tasks := Function.update (fun _ => none) 0 (some ⟨⟨trap_cx, 0, 0⟩, 0⟩)
  tables := fun _ _ => .new
  next_task := 1
  next_table := 1

def task (w : SignalWorld) (id : Nat) : Except Panic SignalTask :=
  match w.tasks id with
  | some t => .ok t
  | none => .error .outOfBounds

/-- `none` for a task that has exited. -/
def put (w : SignalWorld) (id : Nat) (t : SignalTask) (signals : Option Signals) : SignalWorld :=
  { w with tasks := Function.update w.tasks id (signals.map fun s => { t with signals := s }) }

/-- The new table has the actions from 1 on. -/
def fork (w : SignalWorld) (t : SignalTask) (sighand : Bool) (trap_cx : TrapContext) :
    SignalWorld :=
  let child : SignalTask :=
    { signals := ⟨trap_cx, t.signals.sigmask, 0⟩
      sigactions := if sighand then t.sigactions else w.next_table }
  { tasks := Function.update w.tasks w.next_task (some child)
    tables := Function.update w.tables w.next_table fun i =>
      if i = 0 then .new else w.tables t.sigactions i
    next_task := w.next_task + 1
    next_table := w.next_table + 1 }

def step (w : SignalWorld) : SignalOp → Except Panic SignalWorld
  | .user id x sepc freg => do
    let t ← w.task id
    let cx := t.signals.trap_cx
    return w.put id t (some { t.signals with trap_cx := { cx with x, sepc, freg } })
  | .add_signal id signal => do
    let t ← w.task id
    let pending_signals := t.signals.pending_signals ||| signal
    return w.put id t (some { t.signals with pending_signals })
  | .exec_signal_handlers id mem => do
    let t ← w.task id
    let (signals, _) ← t.signals.exec_signal_handlers (w.tables t.sigactions) mem
    return w.put id t signals
  | .sys_sigreturn id mem => do
    let t ← w.task id
    return w.put id t (some (← t.signals.sys_sigreturn mem))
  | .sys_sigaction id mem signum act oldact => do
    let t ← w.task id
    let (_, sigactions, _) ← sys_sigaction (w.tables t.sigactions) mem signum act oldact
    return { w with tables := Function.update w.tables t.sigactions sigactions }
  | .sys_sigprocmask id mem how set old_set => do
    let t ← w.task id
    let (signals, _) ← t.signals.sys_sigprocmask mem how set old_set
    return w.put id t (some signals)
  | .fork id sighand trap_cx => do
    let t ← w.task id
    return w.fork t sighand trap_cx

/-- A `sys_sigreturn` through a frame whose mask has neither `SIGKILL` nor `SIGSTOP`. -/
def ReturnsFree (w : SignalWorld) : SignalOp → Prop
  | .sys_sigreturn id mem => ∀ t ∈ w.tasks id,
      Meets (mem.object (t.signals.trap_cx.x 2) SignalContext.SIZE) (fun _ => True)
        fun l => (SignalContext.of_bytes l).mask.Free
  | _ => True

instance (w : SignalWorld) : ∀ op, Decidable (w.ReturnsFree op)
  | .sys_sigreturn id _ => inferInstanceAs (Decidable (∀ t ∈ w.tasks id, _))
  | .user .. | .add_signal .. | .exec_signal_handlers .. | .sys_sigaction ..
  | .sys_sigprocmask .. | .fork .. => inferInstanceAs (Decidable True)

structure MasksFree (w : SignalWorld) : Prop where
  masks : ∀ id, ∀ t ∈ w.tasks id, t.signals.sigmask.Free
  actions : ∀ n, ActionsFree (w.tables n)

variable {w w' : SignalWorld} {id : Nat} {t : SignalTask}

theorem task_eq_ok (h : w.task id = .ok t) : w.tasks id = some t := by
  rw [task] at h
  split at h
  · next heq =>
    cases h
    exact heq
  · cases h

theorem actionsFree_new : ActionsFree fun _ => .new := by
  constructor
  · intro _
    exact (by decide : SigSet.Free 0)
  · intro _ _
    rfl

theorem MasksFree.boot (trap_cx : TrapContext) : MasksFree (SignalWorld.boot trap_cx) := by
  constructor
  · intro id t ht
    simp only [SignalWorld.boot, Function.update_apply] at ht
    split at ht
    · cases ht
      exact (by decide : SigSet.Free 0)
    · cases ht
  · intro _
    exact actionsFree_new

theorem MasksFree.put (h : MasksFree w) (t : SignalTask) {signals : Option Signals}
    (hs : ∀ s ∈ signals, s.sigmask.Free) : MasksFree (w.put id t signals) where
  masks i u hu := by
    simp only [SignalWorld.put, Function.update_apply] at hu
    split at hu
    · obtain ⟨s, hmem, rfl⟩ := Option.map_eq_some_iff.mp hu
      exact hs s hmem
    · exact h.masks i u hu
  actions := h.actions

theorem MasksFree.fork (h : MasksFree w) (ht : w.tasks id = some t) (sighand : Bool)
    (trap_cx : TrapContext) : MasksFree (w.fork t sighand trap_cx) where
  masks i u hu := by
    simp only [SignalWorld.fork, Function.update_apply] at hu
    split at hu
    · cases hu
      exact h.masks id t ht
    · exact h.masks i u hu
  actions n := by
    simp only [SignalWorld.fork, Function.update_apply]
    split
    · constructor
      · intro i
        split
        · exact actionsFree_new.mask i
        · exact (h.actions t.sigactions).mask i
      · intro i hi
        split
        · exact actionsFree_new.default i hi
        · exact (h.actions t.sigactions).default i hi
    · exact h.actions n

theorem MasksFree.step (h : MasksFree w) {op : SignalOp} (hop : w.ReturnsFree op)
    (hs : w.step op = .ok w') : MasksFree w' := by
  cases op with
  | user id x sepc freg =>
    obtain ⟨t, ht, hs⟩ := bind_eq_ok.mp hs
    cases hs
    apply h.put
    rintro _ ⟨⟩
    exact h.masks id t (task_eq_ok ht)
  | add_signal id signal =>
    obtain ⟨t, ht, hs⟩ := bind_eq_ok.mp hs
    cases hs
    apply h.put
    rintro _ ⟨⟩
    exact h.masks id t (task_eq_ok ht)
  | exec_signal_handlers id mem =>
    obtain ⟨t, ht, hs⟩ := bind_eq_ok.mp hs
    obtain ⟨⟨signals, mem'⟩, hexec, hs⟩ := bind_eq_ok.mp hs
    cases hs
    apply h.put
    rintro s rfl
    exact Signals.exec_signal_handlers_free (h.actions _) (h.masks id t (task_eq_ok ht)) hexec
  | sys_sigreturn id mem =>
    obtain ⟨t, ht, hs⟩ := bind_eq_ok.mp hs
    obtain ⟨signals, hreturn, hs⟩ := bind_eq_ok.mp hs
    cases hs
    apply h.put
    rintro _ ⟨⟩
    rw [Signals.sys_sigreturn] at hreturn
    obtain ⟨uc, -, hreturn⟩ := bind_eq_ok.mp hreturn
    obtain ⟨l, hl, hreturn⟩ := bind_eq_ok.mp hreturn
    cases hreturn
    exact (hop t (task_eq_ok ht)).of_ok hl
  | sys_sigaction id mem signum act oldact =>
    obtain ⟨t, ht, hs⟩ := bind_eq_ok.mp hs
    obtain ⟨⟨r, sigactions, mem'⟩, haction, hs⟩ := bind_eq_ok.mp hs
    cases hs
    constructor
    · exact h.masks
    · intro n
      simp only [Function.update_apply]
      split
      · exact sys_sigaction_free (h.actions t.sigactions) haction
      · exact h.actions n
  | sys_sigprocmask id mem how set old_set =>
    obtain ⟨t, ht, hs⟩ := bind_eq_ok.mp hs
    obtain ⟨⟨signals, mem'⟩, hmask, hs⟩ := bind_eq_ok.mp hs
    cases hs
    apply h.put
    rintro _ ⟨⟩
    exact Signals.sys_sigprocmask_free (h.masks id t (task_eq_ok ht)) hmask
  | fork id sighand trap_cx =>
    obtain ⟨t, ht, hs⟩ := bind_eq_ok.mp hs
    cases hs
    exact h.fork (task_eq_ok ht) sighand trap_cx

/-- In every run in which each `sys_sigreturn` reads a mask without them, no task ever blocks
`SIGKILL` or `SIGSTOP`. -/
theorem never_blocked (trap_cx : TrapContext) {ops : List SignalOp}
    (h : Guarded step ReturnsFree (boot trap_cx) ops) :
    ∀ w ∈ states step (boot trap_cx) ops, ∀ id, ∀ t ∈ w.tasks id, t.signals.sigmask.Free := by
  have hfree : ∀ w ∈ states step (boot trap_cx) ops, MasksFree w := by
    refine invariant MasksFree ?_ (MasksFree.boot trap_cx) h
    intro w op w' hw hop hs
    exact hw.step hop hs
  exact fun w hw => (hfree w hw).masks

def first_context : TrapContext := (Signals.usr1_pending 0xefff_e000).trap_cx

/-- A stack of ones. -/
theorem sigreturn_blocks : ∃ w,
    run step (boot first_context) [.sys_sigreturn 0 (Signals.flat (Signals.uniform 0xff))] = .ok w ∧
      ∃ t ∈ w.tasks 0, ¬ t.signals.sigmask.Free :=
  Meets.exists_ok (by decide +kernel)

def mask_and_return : List SignalOp :=
  [.sys_sigprocmask 0 (Signals.flat (Signals.uniform 0xff)) 2 0xefff_e000 0,
    .fork 0 false first_context, .sys_sigreturn 1 (Signals.flat (Signals.uniform 0))]

theorem mask_and_return_free : Guarded step ReturnsFree (boot first_context) mask_and_return ∧
    ∀ w ∈ states step (boot first_context) mask_and_return, ∀ id, ∀ t ∈ w.tasks id,
      t.signals.sigmask.Free := by
  have h : Guarded step ReturnsFree (boot first_context) mask_and_return := by decide +kernel
  exact ⟨h, never_blocked first_context h⟩

end SignalWorld

end MyGOS.Task
