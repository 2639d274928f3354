import MyGOS.Basic
import MyGOS.Task.FutexChains
import Mathlib.Data.List.InsertIdx

/-!
# What a wait returns

`futex_wait` does not know why it goes on: it looks at the clock, then at the
pending signals. The history of a run says for each wait whether its waiter was
woken or has expired, and whether a signal has unblocked its task.
-/

namespace MyGOS.Task

open Outcome StepSystem

namespace ChainEvent

variable {α β : Type*} {x y : α} {c : Nat → List α} {e : ChainEvent} {a b : Nat} {l : List α}

theorem map_update (f : α → β) (c : Nat → List α) (a : Nat) (l : List α) :
    (fun b => (Function.update c a l b).map f) =
      Function.update (fun b => (c b).map f) a (l.map f) := by
  funext b
  rw [Function.update_apply, Function.update_apply, apply_ite (List.map f)]

def is_push : ChainEvent → Bool
  | push _ => true
  | wake _ _ | requeue _ _ _ _ | expire _ _ => false

/-- An event does not look at what it moves. -/
theorem apply_map (f : α → β) (x : α) (c : Nat → List α) (e : ChainEvent) :
    (fun a => (e.apply x c a).map f) = e.apply (f x) fun a => (c a).map f := by
  cases e with
  | push uaddr =>
    rw [apply, map_update, List.map_append]
    rfl
  | wake uaddr n => rw [apply, map_update, List.map_drop, apply]
  | requeue uaddr n uaddr2 m =>
    have hrest := congrFun (map_update f c uaddr ((c uaddr).drop (n + m))) uaddr2
    simp only [apply, map_update, List.map_append, List.map_take, List.map_drop] at hrest ⊢
    rw [hrest]
  | expire uaddr index => rw [apply, map_update, apply, List.eraseIdx_map]

theorem mem_of_mem_update (h : y ∈ Function.update c a l b) : y ∈ l ∨ ∃ b, y ∈ c b := by
  rw [Function.update_apply] at h
  split at h
  · exact Or.inl h
  · exact Or.inr ⟨b, h⟩

/-- What is in a chain was in one before, or is new. -/
theorem mem_apply (h : y ∈ e.apply x c a) : (∃ uaddr, e = .push uaddr) ∧ y = x ∨ ∃ b, y ∈ c b := by
  cases e with
  | push uaddr =>
    rcases mem_of_mem_update h with hl | hc
    · rcases List.mem_append.mp hl with hold | hnew
      · exact Or.inr ⟨uaddr, hold⟩
      · exact Or.inl ⟨⟨uaddr, rfl⟩, List.mem_singleton.mp hnew⟩
    · exact Or.inr hc
  | wake uaddr n =>
    rcases mem_of_mem_update h with hl | hc
    · exact Or.inr ⟨uaddr, List.mem_of_mem_drop hl⟩
    · exact Or.inr hc
  | requeue uaddr n uaddr2 m =>
    have hrest {b : Nat} (hb : y ∈ Function.update c uaddr ((c uaddr).drop (n + m)) b) :
        ∃ b, y ∈ c b := by
      rcases mem_of_mem_update hb with hl | hc
      · exact ⟨uaddr, List.mem_of_mem_drop hl⟩
      · exact hc
    rcases mem_of_mem_update h with hl | ⟨b, hb⟩
    · rcases List.mem_append.mp hl with hold | hmoved
      · exact Or.inr (hrest hold)
      · exact Or.inr ⟨uaddr, List.mem_of_mem_drop (List.mem_of_mem_take hmoved)⟩
    · exact Or.inr (hrest hb)
  | expire uaddr index =>
    rcases mem_of_mem_update h with hl | hc
    · exact Or.inr ⟨uaddr, List.mem_of_mem_eraseIdx hl⟩
    · exact Or.inr hc

theorem mem_expired (h : y ∈ e.expired c) : ∃ uaddr i, e = .expire uaddr i ∧
    (c uaddr)[i]? = some y := by
  cases e with
  | expire uaddr index => exact ⟨uaddr, index, rfl, Option.mem_toList.mp h⟩
  | push uaddr => cases h
  | wake uaddr n => cases h
  | requeue uaddr n uaddr2 m => cases h

end ChainEvent

/-- The end of `futex_wait`. -/
def futex_wait_result (timeout_time now : Nat) (t : TaskControlBlock) : Except Errno Int :=
  if timeout_time ≤ now then .error .ETIMEDOUT
  else if t.interrupted then .error .EINTR
  else .ok 0

/-- The operation at the time `now`. -/
def KernelOp.timed (now : Nat) : KernelOp → KernelOp
  | .sys_futex uaddr futex_op val val2 uaddr2 timeout word _ =>
    .sys_futex uaddr futex_op val val2 uaddr2 timeout word now
  | .dispatch _ pick => .dispatch now pick
  | op => op

/-- The task that `dispatch` unblocks for a signal. -/
def Kernel.interrupted (k : Kernel) : KernelOp → Option Nat
  | .dispatch now pick =>
    if (k.manager.check_hanging now pick).isNone then
      k.manager.waiting_queue.find? fun p => (k.tasks p).any (·.interrupted)
    else none
  | _ => none

/-- The kernel with the time and the history of the waits. Each wait has a number, which its waiter
carries through the chains. -/
structure Waits where
  kernel : Kernel
  now : Nat
  chains : Nat → List (FutexWaiter × Nat)
  next : Nat
  /-- the last wait of each task -/
  wait : Nat → Nat
  expire_time : Nat → Nat
  woken : List Nat
  expired : List Nat
  interrupted : List Nat

namespace Waits

def boot : Waits := ⟨.boot, 0, fun _ => [], 0, fun _ => 0, fun _ => 0, [], [], []⟩

/-- The history after a step `op` of the kernel at the time `now`. -/
def record (w : Waits) (op : KernelOp) (now : Nat) (kernel : Kernel) : Waits :=
  let e := w.kernel.event op kernel
  let waiter := w.kernel.pushed op
  { kernel := kernel
    now := now
    chains := e.apply (waiter, w.next) w.chains
    next := if e.is_push then w.next + 1 else w.next
    wait := fun p => if e.is_push ∧ w.kernel.current = some p then w.next else w.wait p
    expire_time := if e.is_push then Function.update w.expire_time w.next waiter.expire_time
      else w.expire_time
    woken := (e.woken w.chains).map Prod.snd ++ w.woken
    expired := (e.expired w.chains).map Prod.snd ++ w.expired
    interrupted := (w.kernel.interrupted op).toList.map w.wait ++ w.interrupted }

/-- A step of the kernel some time after the last one. -/
def step (w : Waits) (op : KernelOp × Nat) : Except TaskPanic Waits := do
  let now := w.now + op.2
  let kernel ← w.kernel.step (op.1.timed now)
  return w.record (op.1.timed now) now kernel

/-- The result of the wait of a task says why it has ended. -/
structure Reports (w : Waits) (p : Nat) (result : Except Errno Int) : Prop where
  woken : w.wait p ∈ w.woken → result = .ok 0
  expired : result = .error .ETIMEDOUT → w.wait p ∈ w.expired
  interrupted : result = .error .EINTR → w.wait p ∈ w.interrupted

/-- The waiter has expired without being woken, or the task goes on before its timeout, and no
signal is pending but to a task that was unblocked for one and not woken. -/
def Prompt (w : Waits) (p : Nat) (t : TaskControlBlock) (timeout_time now : Nat) : Prop :=
  w.wait p ∈ w.expired ∧ w.wait p ∉ w.woken ∨
    now < timeout_time ∧
      (t.interrupted = true → w.wait p ∈ w.interrupted ∧ w.wait p ∉ w.woken)

/-- What the history knows of the waits. -/
structure Tracked (w : Waits) : Prop where
  counted : w.kernel.futexes.Counted
  chains : (fun a => (w.chains a).map Prod.fst) = w.kernel.chains
  known : ∀ a, ∀ e ∈ w.chains a, e.2 < w.next ∧ e.1.expire_time = w.expire_time e.2
  due : ∀ n ∈ w.expired, n < w.next ∧ w.expire_time n ≤ w.now
  waits : ∀ p t, w.kernel.tasks p = some t → ∀ timeout_time, t.resume = .futex_wait timeout_time →
    w.wait p < w.next ∧ timeout_time ≤ w.expire_time (w.wait p)

variable {w w' : Waits} {op : KernelOp × Nat} {p timeout_time now : Nat} {t : TaskControlBlock}

theorem tracked_boot : boot.Tracked where
  counted := (@boot_waiting True).counted
  chains := rfl
  known _ _ he := nomatch he
  due _ hn := nomatch hn
  waits p t ht timeout_time hresume := by
    simp only [boot, Kernel.boot, Function.update_apply] at ht
    split at ht
    · cases ht
      cases hresume
    · cases ht

theorem timed_dispatch {now' pick : Nat} {op : KernelOp} (h : op.timed now = .dispatch now' pick) :
    now' = now := by
  cases op <;> cases h
  rfl

/-- The history of a step knows what happens in it. -/
theorem Tracked.record {o : KernelOp} {kernel : Kernel} (h : w.Tracked)
    (hf : w.kernel.Follows o kernel) (hle : w.now ≤ now)
    (ho : ∀ now' pick, o = .dispatch now' pick → now' = now) : (w.record o now kernel).Tracked := by
  have hchains := hf.chains
  have hwaits := hf.waits
  have hexpired := hf.expired
  unfold Waits.record
  dsimp only
  generalize w.kernel.pushed o = waiter at *
  generalize w.kernel.event o kernel = e at *
  have hlabels : (fun a => (e.apply (waiter, w.next) w.chains a).map Prod.fst) = kernel.chains := by
    rw [ChainEvent.apply_map, h.chains, hchains]
  have hout : ∀ n ∈ (e.expired w.chains).map Prod.snd, n < w.next ∧ w.expire_time n ≤ now := by
    intro n hn
    obtain ⟨entry, hentry, rfl⟩ := List.mem_map.mp hn
    obtain ⟨a, i, heq, hget⟩ := ChainEvent.mem_expired hentry
    obtain ⟨now', pick, hop, waiter', hwaiter, hdue⟩ := hexpired a i heq
    obtain ⟨hlt, htime⟩ := h.known a entry (List.mem_of_getElem? hget)
    have hsame : w.kernel.chains a = (w.chains a).map Prod.fst := (congrFun h.chains a).symm
    rw [hsame, List.getElem?_map, hget] at hwaiter
    cases hwaiter
    rw [ho now' pick hop] at hdue
    exact ⟨hlt, htime ▸ hdue⟩
  have hdue : ∀ n ∈ (e.expired w.chains).map Prod.snd ++ w.expired,
      n < w.next ∧ w.expire_time n ≤ now := by
    intro n hn
    rcases List.mem_append.mp hn with hnew | hold
    · exact hout n hnew
    · exact ⟨(h.due n hold).1, (h.due n hold).2.trans hle⟩
  cases hpush : e.is_push with
  | false =>
    have hnot : ¬ ∃ uaddr, e = .push uaddr := by
      rintro ⟨uaddr, rfl⟩
      cases hpush
    refine ⟨hf.counted, hlabels, fun a entry hentry => ?_, hdue, fun p t ht time hresume => ?_⟩
    · rcases ChainEvent.mem_apply hentry with ⟨hnew, _⟩ | ⟨b, hold⟩
      · exact absurd hnew hnot
      · exact h.known b entry hold
    · rcases hwaits p t ht time hresume with ⟨_, u, hu, hresume'⟩ | ⟨hnew, _⟩
      · exact h.waits p u hu time hresume'
      · exact absurd hnew hnot
  | true =>
    have hkeep {n : Nat} (hn : n < w.next) :
        Function.update w.expire_time w.next waiter.expire_time n = w.expire_time n :=
      Function.update_of_ne hn.ne _ _
    obtain ⟨uaddr, rfl⟩ : ∃ uaddr, e = .push uaddr := by
      cases e with
      | push uaddr => exact ⟨uaddr, rfl⟩
      | wake uaddr n => cases hpush
      | requeue uaddr n uaddr2 m => cases hpush
      | expire uaddr i => cases hpush
    refine ⟨hf.counted, hlabels, fun a entry hentry => ?_, fun n hn => ?_,
      fun p t ht time hresume => ?_⟩
    · have hentry' : entry ∈ (ChainEvent.push uaddr).apply (waiter, w.next) w.chains a := hentry
      rcases ChainEvent.mem_apply hentry' with ⟨_, rfl⟩ | ⟨b, hold⟩
      · refine ⟨Nat.lt_succ_self _, ?_⟩
        dsimp only
        rw [if_pos rfl, Function.update_self]
      · obtain ⟨hlt, htime⟩ := h.known b entry hold
        exact ⟨Nat.lt_succ_of_lt hlt, htime.trans (hkeep hlt).symm⟩
    · obtain ⟨hlt, htime⟩ := hdue n hn
      exact ⟨Nat.lt_succ_of_lt hlt, (hkeep hlt).trans_le htime⟩
    · dsimp only
      rcases hwaits p t ht time hresume with ⟨hne, u, hu, hresume'⟩ | ⟨_, hcurrent, htime⟩
      · obtain ⟨hlt, htime⟩ := h.waits p u hu time hresume'
        rw [if_neg fun hp => hne ⟨uaddr, rfl⟩ hp.2, if_pos rfl, if_pos rfl]
        exact ⟨Nat.lt_succ_of_lt hlt, htime.trans_eq (hkeep hlt).symm⟩
      · rw [if_pos ⟨rfl, hcurrent⟩, if_pos rfl, if_pos rfl, Function.update_self]
        exact ⟨Nat.lt_succ_self _, htime⟩

theorem Tracked.step (h : w.Tracked) (hs : w.step op = .ok w') : w'.Tracked := by
  obtain ⟨kernel, hkernel, hs⟩ := bind_eq_ok.mp hs
  cases hs
  refine h.record ((Kernel.step_follows h.counted _).of_ok hkernel) (Nat.le_add_right _ _) ?_
  exact fun now' pick hop => timed_dispatch hop

theorem tracked_states (ops : List (KernelOp × Nat)) : ∀ w ∈ states step boot ops, w.Tracked := by
  refine invariant Tracked ?_ tracked_boot
    (Guarded.of_forall (C := fun _ _ => True) (fun _ _ => trivial) ops _)
  intro w op w' hw _ hs
  exact hw.step hs

theorem Tracked.reports_iff (h : w.Tracked) (ht : w.kernel.tasks p = some t)
    (hresume : t.resume = .futex_wait timeout_time) (hnow : w.now ≤ now) :
    w.Reports p (futex_wait_result timeout_time now t) ↔ w.Prompt p t timeout_time now := by
  have hdue (hexpired : w.wait p ∈ w.expired) : timeout_time ≤ now :=
    ((h.waits p t ht _ hresume).2.trans (h.due _ hexpired).2).trans hnow
  unfold futex_wait_result
  rcases Nat.lt_or_ge now timeout_time with hlt | hge
  · have hnot : w.wait p ∉ w.expired := fun hexpired => by
      have hle := hdue hexpired
      omega
    rw [if_neg (Nat.not_le.mpr hlt)]
    cases hpending : t.interrupted with
    | false =>
      refine iff_of_true ⟨fun _ => rfl, nofun, nofun⟩ (Or.inr ⟨hlt, fun hi => ?_⟩)
      cases hpending.symm.trans hi
    | true =>
      rw [if_pos rfl]
      constructor
      · rintro ⟨hwoken, _, hinterrupted⟩
        exact Or.inr ⟨hlt, fun _ => ⟨hinterrupted rfl, fun hw => nomatch hwoken hw⟩⟩
      · rintro (⟨hexpired, _⟩ | ⟨_, hall⟩)
        · exact absurd hexpired hnot
        · obtain ⟨hinterrupted, hwoken⟩ := hall hpending
          exact ⟨fun hw => absurd hw hwoken, nofun, fun _ => hinterrupted⟩
  · rw [if_pos hge]
    constructor
    · rintro ⟨hwoken, hexpired, _⟩
      exact Or.inl ⟨hexpired rfl, fun hw => nomatch hwoken hw⟩
    · rintro (⟨hexpired, hwoken⟩ | ⟨hlt, _⟩)
      · exact ⟨fun hw => absurd hw hwoken, fun _ => hexpired, nofun⟩
      · omega

/-- In every state of every run, whenever the task that executes goes on with a wait. -/
theorem waits_report_iff (ops : List (KernelOp × Nat)) : ∀ w ∈ states step boot ops,
    ∀ p t, w.kernel.current = some p → w.kernel.tasks p = some t →
      ∀ timeout_time, t.resume = .futex_wait timeout_time → ∀ delay,
        w.Reports p (futex_wait_result timeout_time (w.now + delay) t) ↔
          w.Prompt p t timeout_time (w.now + delay) := by
  intro w hw p t _ ht timeout_time hresume delay
  exact (tracked_states ops w hw).reports_iff ht hresume (Nat.le_add_right _ _)

/-- Initproc waits for at most ten nanoseconds. -/
def short_wait_run : List KernelOp :=
  reschedule ++ [.sys_do_fork 0 0, .sys_futex 4096 0 0 1 0 10 0 0] ++ reschedule

/-- Its child wakes it after three. -/
def woken_run : List (KernelOp × Nat) :=
  short_wait_run.map (·, 0) ++ [(.sys_futex 4096 1 1 0 0 0 0 0, 3), (.suspend no_handlers, 0)] ++
    reschedule.map (·, 0)

theorem woken_run_states : ∃ w, run step boot woken_run = .ok w ∧ w.kernel.current = some 0 ∧
    (w.kernel.tasks 0).map (fun t => (t.resume, t.interrupted)) = some (.futex_wait 10, false) ∧
    w.now = 3 ∧ w.wait 0 ∈ w.woken := Meets.exists_ok (by decide +kernel)

theorem waits_report_at_once : ∃ w, run step boot woken_run = .ok w ∧ ∃ t,
    w.kernel.tasks 0 = some t ∧ w.Reports 0 (futex_wait_result 10 (w.now + 6) t) := by
  obtain ⟨w, hw, hcurrent, htask, hnow, _⟩ := woken_run_states
  obtain ⟨t, ht, hfields⟩ := Option.map_eq_some_iff.mp htask
  obtain ⟨hresume, hinterrupted⟩ := Prod.mk.inj hfields
  refine ⟨w, hw, t, ht, (waits_report_iff woken_run w (mem_states_of_run hw) 0 t hcurrent ht 10
    hresume 6).mpr (Or.inr ⟨by omega, fun hi => ?_⟩)⟩
  cases hinterrupted.symm.trans hi

/-- After ten more nanoseconds in the ready queue the wait is a timeout. -/
theorem woken_waiter_times_out : ∃ w, run step boot woken_run = .ok w ∧ ∃ t,
    w.kernel.current = some 0 ∧ w.kernel.tasks 0 = some t ∧ t.resume = .futex_wait 10 ∧
    w.wait 0 ∈ w.woken ∧ futex_wait_result 10 (w.now + 10) t = .error .ETIMEDOUT ∧
    ¬ w.Reports 0 (futex_wait_result 10 (w.now + 10) t) := by
  obtain ⟨w, hw, hcurrent, htask, hnow, hwoken⟩ := woken_run_states
  obtain ⟨t, ht, hfields⟩ := Option.map_eq_some_iff.mp htask
  have hresult : futex_wait_result 10 (w.now + 10) t = .error .ETIMEDOUT := if_pos (by omega)
  refine ⟨w, hw, t, hcurrent, ht, (Prod.mk.inj hfields).1, hwoken, hresult, fun h => ?_⟩
  cases hresult.symm.trans (h.woken hwoken)

end Waits

end MyGOS.Task
