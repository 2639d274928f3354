import MyGOS.Mm.BufferViews
import MyGOS.Task.SignalSelection

/-!
# The table of actions

`sys_sigaction` takes a signed number for an unsigned one of 32 bits, and the
greatest number it accepts is one beyond the table. It writes the old action
before it reads the new one, and only if there is a new one. A fork copies the
table without its first entry, which no signal has.
-/

namespace MyGOS.Task

open Mm LittleEndian Outcome StepSystem

namespace SigActionRecord

def SIZE : Nat := 32

/-- As `sys_sigaction` registers it. -/
def registered (sa : SigActionRecord) : SigActionRecord :=
  { sa with sa_mask := Signals.unblockable sa.sa_mask }

@[simp] theorem length_bytes (sa : SigActionRecord) : sa.bytes.length = SIZE := length_row _

theorem of_bytes_bytes (sa : SigActionRecord) : of_bytes sa.bytes = sa := by
  have hword {i : Nat} {w : BitVec 64} (h : [sa.sa_handler, sa.sa_flags.setWidth 64, sa.sa_restorer,
      sa.sa_mask][i]? = some w) : word sa.bytes (8 * i) = w := by
    have hrow := word_row _ [] h
    rwa [List.append_nil] at hrow
  have hflags : (sa.sa_flags.setWidth 64).setWidth 32 = sa.sa_flags := by
    rw [BitVec.setWidth_setWidth_of_le _ (by decide), BitVec.setWidth_eq]
  rw [of_bytes, @hword 0 _ rfl, @hword 1 _ rfl, @hword 2 _ rfl, @hword 3 _ rfl, hflags]

end SigActionRecord

namespace UserMemory

/-- The pointer is to an action in mapped memory. -/
def Points (mem : UserMemory) (ptr : BitVec 64) : Prop :=
  mem.ms.Backed ptr.toNat SigActionRecord.SIZE

/-- The action that the process sees. -/
def action_at (mem : UserMemory) (ptr : BitVec 64) : SigActionRecord :=
  .of_bytes (mem.ms.seen mem.ph ptr.toNat SigActionRecord.SIZE)

/-- The action that the process sees at `ptr` when `sa` has been written to `dst`. -/
def action_over (mem : UserMemory) (dst : BitVec 64) (sa : SigActionRecord) (ptr : BitVec 64) :
    SigActionRecord :=
  .of_bytes (mem.ms.seen_over mem.ph dst.toNat sa.bytes ptr.toNat SigActionRecord.SIZE)

variable {mem : UserMemory} {ptr : BitVec 64} {sa : SigActionRecord}

theorem Points.copyin (h : mem.Points ptr) : ∃ bytes,
    mem.copyin SigActionRecord.new.bytes ptr = .ok (bytes, mem) ∧
      SigActionRecord.of_bytes bytes = mem.action_at ptr := by
  have hlen := SigActionRecord.new.length_bytes
  refine ⟨mem.ms.seen mem.ph ptr.toNat SigActionRecord.SIZE, ?_, rfl⟩
  have hbacked : mem.ms.Backed ptr.toNat SigActionRecord.new.bytes.length := hlen ▸ h
  rw [UserMemory.copyin, copyin_backed hbacked mem.ph (by rw [hlen]; decide), hlen]
  rfl

theorem Points.copyout (h : mem.Points ptr) (sa : SigActionRecord) : ∃ ph',
    mem.copyout ptr sa.bytes = .ok ⟨mem.ms, ph'⟩ ∧ action_at ⟨mem.ms, ph'⟩ ptr = sa ∧
      ∀ q, action_at ⟨mem.ms, ph'⟩ q = mem.action_over ptr sa q := by
  have hlen := sa.length_bytes
  have hbacked : mem.ms.Backed ptr.toNat sa.bytes.length := hlen ▸ h
  obtain ⟨ph', hcopy, hseen, hover⟩ := copyout_backed hbacked mem.ph (by rw [hlen]; decide)
    (by rw [hlen]; decide)
  refine ⟨ph', ?_, ?_, fun q =>
    congrArg SigActionRecord.of_bytes (hover q.toNat SigActionRecord.SIZE)⟩
  · rw [UserMemory.copyout, hcopy]
    rfl
  · rw [action_at, ← hlen, hseen, SigActionRecord.of_bytes_bytes]

end UserMemory

/-- A signal whose action may be set. -/
def Settable (signum : BitVec 64) : Prop :=
  1 ≤ signum.toInt ∧ signum.toInt ≤ 63 ∧ signum.toInt ≠ SIGKILL ∧ signum.toInt ≠ SIGSTOP

instance (signum : BitVec 64) : Decidable (Settable signum) :=
  inferInstanceAs (Decidable (_ ∧ _))

section Sigaction

variable (sigactions : SigActions) (mem : UserMemory) (signum act oldact : BitVec 64)

/-- What `sys_sigaction` is to do. -/
def Answers : Prop :=
  if Settable signum then
    ∃ sigactions' mem',
      sys_sigaction sigactions mem signum act oldact = .ok (.ok (), sigactions', mem') ∧
      sigactions' = (if act = 0 then sigactions
        else Function.update sigactions (Fin.ofNat 64 signum.toNat) (mem.action_at act).registered) ∧
      (oldact ≠ 0 → mem'.action_at oldact = sigactions.action signum.toNat)
  else sys_sigaction sigactions mem signum act oldact = .ok (.error .EINVAL, sigactions, mem)

/-- A signal's number comes without a pointer for the old action, or that action is there
already, or its copy leaves the new one as it is. Another number is refused. -/
def Answerable : Prop :=
  if Settable signum then
    oldact ≠ 0 →
      if act = 0 then mem.action_at oldact = sigactions.action signum.toNat
      else (mem.action_over oldact (sigactions.action signum.toNat) act).registered =
        (mem.action_at act).registered
  else MAX_SIGNUM < signum.toNat % 2 ^ 32 ∨ signum.toNat % 2 ^ 32 = SIGKILL ∨
    signum.toNat % 2 ^ 32 = SIGSTOP

variable {sigactions mem signum act oldact}

theorem Settable.toNat (h : Settable signum) : (signum.toNat : Int) = signum.toInt := by
  obtain ⟨hpos, _⟩ := h
  have hlt := signum.isLt
  rw [BitVec.toInt_eq_toNat_cond] at *
  split at hpos
  · rw [if_pos ‹_›]
  · omega

theorem toNat_eq_of_lt {n : Nat} (h : signum.toNat = n) (hn : n ≤ 63) : signum.toInt = n := by
  rw [BitVec.toInt_eq_toNat_cond, if_pos (by omega), h]

/-- The call with a number that it accepts. -/
theorem sys_sigaction_accepted {n : Nat} (hn : signum.toNat % 2 ^ 32 = n)
    (hvalid : ¬ (MAX_SIGNUM < n ∨ n = SIGKILL ∨ n = SIGSTOP)) :
    sys_sigaction sigactions mem signum act oldact =
      if act = 0 then .ok (.ok (), sigactions, mem)
      else if h : n < 64 then do
        let mem ← mem.unless_null oldact (mem.copyout oldact (sigactions ⟨n, h⟩).bytes)
        let (bytes, mem) ← mem.copyin SigActionRecord.new.bytes act
        return (.ok (), Function.update sigactions ⟨n, h⟩ (SigActionRecord.of_bytes bytes).registered,
          mem)
      else .error .outOfBounds := by
  have hcut : (signum.setWidth 32).toNat = n := (BitVec.toNat_setWidth _ _).trans hn
  subst hcut
  rw [sys_sigaction]
  dsimp only
  rw [if_neg hvalid]
  rfl

theorem sys_sigaction_refused (h : MAX_SIGNUM < signum.toNat % 2 ^ 32 ∨
    signum.toNat % 2 ^ 32 = SIGKILL ∨ signum.toNat % 2 ^ 32 = SIGSTOP) :
    sys_sigaction sigactions mem signum act oldact = .ok (.error .EINVAL, sigactions, mem) := by
  rw [← BitVec.toNat_setWidth] at h
  rw [sys_sigaction]
  dsimp only
  rw [if_pos h]
  rfl

/-- The old action is written first, and the new one is then read. -/
theorem sys_sigaction_sets {n : Nat} (hn : signum.toNat % 2 ^ 32 = n) (hlt : n < 64)
    (hvalid : ¬ (MAX_SIGNUM < n ∨ n = SIGKILL ∨ n = SIGSTOP)) (hact : act ≠ 0)
    (hread : mem.Points act) (hwrite : oldact ≠ 0 → mem.Points oldact) :
    ∃ mem', sys_sigaction sigactions mem signum act oldact = .ok (.ok (),
        Function.update sigactions (Fin.ofNat 64 n) (if oldact = 0 then mem.action_at act
          else mem.action_over oldact (sigactions.action n) act).registered, mem') ∧
      (oldact ≠ 0 → mem'.action_at oldact = sigactions.action n) := by
  have hfin : (⟨n, hlt⟩ : Fin 64) = Fin.ofNat 64 n := Fin.ext (Nat.mod_eq_of_lt hlt).symm
  have haction : sigactions ⟨n, hlt⟩ = sigactions.action n := congrArg sigactions hfin
  rw [sys_sigaction_accepted hn hvalid, if_neg hact, dif_pos hlt, haction, hfin]
  rcases eq_or_ne oldact 0 with rfl | hold
  · obtain ⟨bytes, hbytes, hnew⟩ := hread.copyin
    refine ⟨mem, ?_, fun hne => absurd rfl hne⟩
    rw [UserMemory.unless_null, if_pos rfl, ok_bind, hbytes, ok_bind, if_pos rfl, ← hnew]
    rfl
  · obtain ⟨ph', hcopy, hshown, hover⟩ := (hwrite hold).copyout (sigactions.action n)
    have hread' : UserMemory.Points ⟨mem.ms, ph'⟩ act := hread
    obtain ⟨bytes, hbytes, hnew⟩ := hread'.copyin
    refine ⟨⟨mem.ms, ph'⟩, ?_, fun _ => hshown⟩
    rw [UserMemory.unless_null, if_neg hold, hcopy, ok_bind, hbytes, ok_bind, if_neg hold,
      ← hover, ← hnew]
    rfl

/-- A number that is no signal's and passes the check is not refused. -/
theorem not_refused {n : Nat} (hn : signum.toNat % 2 ^ 32 = n)
    (hvalid : ¬ (MAX_SIGNUM < n ∨ n = SIGKILL ∨ n = SIGSTOP)) :
    sys_sigaction sigactions mem signum act oldact ≠ .ok (.error .EINVAL, sigactions, mem) := by
  intro h
  rw [sys_sigaction_accepted hn hvalid] at h
  split at h
  · cases h
  · split at h
    · obtain ⟨_, _, h⟩ := bind_eq_ok.mp h
      obtain ⟨_, _, h⟩ := bind_eq_ok.mp h
      cases h
    · cases h

theorem answers_iff (hread : act ≠ 0 → mem.Points act) (hwrite : oldact ≠ 0 → mem.Points oldact) :
    Answers sigactions mem signum act oldact ↔ Answerable sigactions mem signum act oldact := by
  unfold Answers Answerable
  split
  · next hset =>
    have hint := hset.toNat
    obtain ⟨hpos, hle, hkill, hstop⟩ := hset
    rw [← hint] at hpos hle hkill hstop
    norm_cast at hpos hle hkill hstop
    have hmod : signum.toNat % 2 ^ 32 = signum.toNat := Nat.mod_eq_of_lt (by omega)
    have hvalid : ¬ (MAX_SIGNUM < signum.toNat ∨ signum.toNat = SIGKILL ∨
        signum.toNat = SIGSTOP) := by
      rw [MAX_SIGNUM]
      omega
    rcases eq_or_ne act 0 with rfl | hact
    · simp only [if_true]
      constructor
      · rintro ⟨_, _, hcall, _, hold⟩
        rw [sys_sigaction_accepted hmod hvalid, if_pos rfl] at hcall
        cases hcall
        exact hold
      · intro hold
        exact ⟨sigactions, mem, by rw [sys_sigaction_accepted hmod hvalid, if_pos rfl], rfl, hold⟩
    · simp only [if_neg hact]
      obtain ⟨mem', hcall, hshown⟩ := @sys_sigaction_sets sigactions mem signum act oldact _ hmod
        (by omega) hvalid hact (hread hact) hwrite
      constructor
      · rintro ⟨_, _, hcall', htable, _⟩ hold
        rw [hcall] at hcall'
        cases hcall'
        have hentry := congrFun htable (Fin.ofNat 64 signum.toNat)
        rwa [Function.update_self, Function.update_self, if_neg hold] at hentry
      · intro hover
        refine ⟨_, mem', hcall, ?_, hshown⟩
        rcases eq_or_ne oldact 0 with rfl | hold
        · rw [if_pos rfl]
        · rw [if_neg hold, hover hold]
  · next hset =>
    constructor
    · intro hcall
      by_contra hvalid
      exact not_refused rfl hvalid hcall
    · exact sys_sigaction_refused

end Sigaction

namespace SignalWorld

/-- The pointers that are not null are to actions in mapped memory. -/
def Pointers : SignalOp → Prop
  | .sys_sigaction _ mem _ act oldact =>
    (act ≠ 0 → mem.Points act) ∧ (oldact ≠ 0 → mem.Points oldact)
  | _ => True

/-- A call on the actions does what it is to do, and a fork with a table of its own copies the
whole one. -/
def KeepsTable (w : SignalWorld) : SignalOp → Prop
  | .sys_sigaction id mem signum act oldact => ∀ t ∈ w.tasks id,
      Answers (w.tables t.sigactions) mem signum act oldact
  | .fork id sighand trap_cx => ∀ t ∈ w.tasks id, sighand = false →
      let w' := w.fork t sighand trap_cx
      ∃ child ∈ w'.tasks w.next_task, child.sigactions ≠ t.sigactions ∧
        w'.tables t.sigactions = w.tables t.sigactions ∧
        w'.tables child.sigactions = w.tables t.sigactions
  | _ => True

def TableKept (w : SignalWorld) : SignalOp → Prop
  | .sys_sigaction id mem signum act oldact => ∀ t ∈ w.tasks id,
      Answerable (w.tables t.sigactions) mem signum act oldact
  | .fork id sighand _ => ∀ t ∈ w.tasks id, sighand = false → w.tables t.sigactions 0 = .new
  | _ => True

/-- The next table is no task's. -/
def TablesUsed (w : SignalWorld) : Prop := ∀ id, ∀ t ∈ w.tasks id, t.sigactions < w.next_table

variable {w w' : SignalWorld} {id : Nat} {t : SignalTask} {op : SignalOp}

theorem TablesUsed.put (h : TablesUsed w) (ht : w.tasks id = some t) (signals : Option Signals) :
    TablesUsed (w.put id t signals) := by
  intro i u hu
  simp only [SignalWorld.put, Function.update_apply] at hu
  split at hu
  · obtain ⟨s, _, rfl⟩ := Option.map_eq_some_iff.mp hu
    exact h id t ht
  · exact h i u hu

theorem TablesUsed.fork (h : TablesUsed w) (ht : w.tasks id = some t) (sighand : Bool)
    (trap_cx : TrapContext) : TablesUsed (w.fork t sighand trap_cx) := by
  intro i u hu
  simp only [SignalWorld.fork, Function.update_apply] at hu ⊢
  split at hu
  · cases hu
    have hlt := h id t ht
    dsimp only
    split <;> omega
  · have hlt := h i u hu
    omega

theorem TablesUsed.step (h : TablesUsed w) (hs : w.step op = .ok w') : TablesUsed w' := by
  cases op with
  | user id x sepc freg =>
    obtain ⟨t, ht, hs⟩ := bind_eq_ok.mp hs
    cases hs
    exact h.put (task_eq_ok ht) _
  | add_signal id signal =>
    obtain ⟨t, ht, hs⟩ := bind_eq_ok.mp hs
    cases hs
    exact h.put (task_eq_ok ht) _
  | exec_signal_handlers id mem =>
    obtain ⟨t, ht, hs⟩ := bind_eq_ok.mp hs
    obtain ⟨_, _, hs⟩ := bind_eq_ok.mp hs
    cases hs
    exact h.put (task_eq_ok ht) _
  | sys_sigreturn id mem =>
    obtain ⟨t, ht, hs⟩ := bind_eq_ok.mp hs
    obtain ⟨_, _, hs⟩ := bind_eq_ok.mp hs
    cases hs
    exact h.put (task_eq_ok ht) _
  | sys_sigaction id mem signum act oldact =>
    obtain ⟨t, ht, hs⟩ := bind_eq_ok.mp hs
    obtain ⟨_, _, hs⟩ := bind_eq_ok.mp hs
    cases hs
    exact h
  | sys_sigprocmask id mem how set old_set =>
    obtain ⟨t, ht, hs⟩ := bind_eq_ok.mp hs
    obtain ⟨_, _, hs⟩ := bind_eq_ok.mp hs
    cases hs
    exact h.put (task_eq_ok ht) _
  | fork id sighand trap_cx =>
    obtain ⟨t, ht, hs⟩ := bind_eq_ok.mp hs
    cases hs
    exact h.fork (task_eq_ok ht) sighand trap_cx

theorem tablesUsed_boot (trap_cx : TrapContext) : TablesUsed (boot trap_cx) := by
  intro id t ht
  simp only [boot, Function.update_apply] at ht
  split at ht
  · cases ht
    exact Nat.one_pos
  · cases ht

theorem fork_copies_iff (h : TablesUsed w) (ht : w.tasks id = some t) (trap_cx : TrapContext) :
    (∃ child ∈ (w.fork t false trap_cx).tasks w.next_task, child.sigactions ≠ t.sigactions ∧
      (w.fork t false trap_cx).tables t.sigactions = w.tables t.sigactions ∧
      (w.fork t false trap_cx).tables child.sigactions = w.tables t.sigactions) ↔
      w.tables t.sigactions 0 = .new := by
  have hne : t.sigactions ≠ w.next_table := (h id t ht).ne
  have hparent : (w.fork t false trap_cx).tables t.sigactions = w.tables t.sigactions :=
    Function.update_of_ne hne _ _
  have htable : (w.fork t false trap_cx).tables w.next_table =
      fun i => if i = 0 then .new else w.tables t.sigactions i := Function.update_self ..
  have hchild : (w.fork t false trap_cx).tasks w.next_task =
      some ⟨⟨trap_cx, t.signals.sigmask, 0⟩, w.next_table⟩ := Function.update_self ..
  constructor
  · rintro ⟨child, hmem, _, _, hcopy⟩
    cases hchild.symm.trans hmem
    rw [htable] at hcopy
    exact (congrFun hcopy 0).symm
  · intro hzero
    refine ⟨_, hchild, hne.symm, hparent, htable.trans (funext fun i => ?_)⟩
    rcases eq_or_ne i 0 with rfl | hi
    · exact hzero.symm
    · exact if_neg hi

/-- In every state of every run the calls and the forks keep the table if and only if they come
with what they take right. -/
theorem actions_kept_iff (trap_cx : TrapContext) (ops : List SignalOp) :
    ∀ w ∈ states step (boot trap_cx) ops, ∀ op, Pointers op → (w.KeepsTable op ↔ w.TableKept op) := by
  intro w hw op hop
  have hused : TablesUsed w := by
    refine invariant TablesUsed ?_ (tablesUsed_boot trap_cx)
      (Guarded.of_forall (C := fun _ _ => True) (fun _ _ => trivial) ops _) w hw
    intro w op w' h _ hs
    exact h.step hs
  cases op with
  | sys_sigaction id mem signum act oldact =>
    exact forall₂_congr fun t _ => answers_iff hop.1 hop.2
  | fork id sighand trap_cx =>
    refine forall₂_congr fun t ht => forall_congr' fun hflag => ?_
    subst hflag
    exact fork_copies_iff hused ht trap_cx
  | _ => exact Iff.rfl

/-- A call of the first task with a new action on a stack of zeros. -/
def set_action (signum : BitVec 64) : SignalOp :=
  .sys_sigaction 0 (Signals.flat (Signals.uniform 0)) signum 0xefff_e000 0

theorem pointers_set_action (signum : BitVec 64) : Pointers (set_action signum) := by
  have hstack : (Signals.flat (Signals.uniform 0)).ms.Stack 0 (2 ^ 38) :=
    Signals.flat_stack _ (Nat.le_refl _)
  have haddr : (0xefff_e000 : BitVec 64).toNat + SigActionRecord.SIZE ≤ 2 ^ 38 := by decide
  refine ⟨fun _ => ⟨haddr, fun va _ hlt => ?_⟩, fun hne => absurd rfl hne⟩
  exact hstack.mapped va (Nat.zero_le _) (hlt.trans_le haddr)

theorem actions_kept_usr1 : (boot first_context).KeepsTable (set_action 10) := by
  refine (actions_kept_iff first_context [] _ (mem_states_self _ _) _
    (pointers_set_action 10)).mpr fun t _ => ?_
  exact (if_pos (by decide : Settable 10)).mpr fun hne => absurd rfl hne

/-- The number 64 passes the check, and has no place in the table. -/
theorem action_out_of_bounds : Pointers (set_action 64) ∧
    (boot first_context).step (set_action 64) = .error .outOfBounds ∧
    ¬ (boot first_context).KeepsTable (set_action 64) := by
  refine ⟨pointers_set_action 64, rfl, fun hkept => ?_⟩
  have hanswers := hkept ⟨⟨first_context, 0, 0⟩, 0⟩ rfl
  rw [Answers, if_neg (by decide : ¬ Settable 64)] at hanswers
  cases hanswers

end SignalWorld

end MyGOS.Task
