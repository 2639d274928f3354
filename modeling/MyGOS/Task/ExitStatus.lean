import MyGOS.Lib.ServiceOrder
import MyGOS.Task.ProcessTree

/-!
# The life of a task

A task is created once, exits at most once and is freed at most once; nothing
that the kernel does brings it back, and its pid is not given away again. What
`sys_wait4` reports of a child is the code that the child exited with, and it
reports each child once.
-/

namespace MyGOS.Task

open Outcome StepSystem

namespace Kernel

/-- The task was there, and is freed. -/
def Gone (k : Kernel) (p : Nat) : Prop := p < k.next_pid ∧ k.tasks p = none

/-- The task has exited with this code. -/
def Settled (k : Kernel) (p : Nat) (code : Int) : Prop :=
  p < k.next_pid ∧ ∀ t, k.tasks p = some t → t.is_zombie = true ∧ t.exit_code = code

/-- The child that a wait for `pid` finds. -/
def zombie_child (k : Kernel) (t : TaskControlBlock) (pid : Int) : Option Nat :=
  t.children.find? fun c => (k.tasks c).any (·.is_zombie) && asks_for pid c

/-- `exit_code << 8`, in 32 bits. -/
def wait_status (exit_code : Int) : BitVec 32 := BitVec.ofInt 32 exit_code <<< 8

/-- What is written and returned for the child. -/
def report (k : Kernel) (t : TaskControlBlock) (pid : Int) : List (Nat × BitVec 32) :=
  ((k.zombie_child t pid).bind fun c =>
    (k.tasks c).map fun tc => (c, wait_status tc.exit_code)).toList

/-- The report of a call that returns in this step. -/
def reported (k : Kernel) : KernelOp → List (Nat × BitVec 32)
  | .sys_wait4 pid _ =>
    match k.user with
    | .ok (_, t) => k.report t pid
    | .error _ => []
  | .resume _ =>
    match k.current.bind k.tasks with
    | some t =>
      match t.resume with
      | .wait4 pid => k.report t pid
      | .user | .futex_wait _ => []
    | none => []
  | _ => []

/-- The reports of the waits along a run. -/
def reports : Kernel → List KernelOp → List (Nat × BitVec 32) := gather step reported

end Kernel

open Kernel

/-- Nothing comes back. -/
structure Onward (k k' : Kernel) : Prop where
  gone : ∀ p, k.Gone p → k'.Gone p
  settled : ∀ p code, k.Settled p code → k'.Settled p code

section Relation

variable {k k' k'' : Kernel} {p : Nat} {f : TaskControlBlock → TaskControlBlock}

theorem Onward.refl (k : Kernel) : Onward k k := ⟨fun _ h => h, fun _ _ h => h⟩

theorem Onward.trans (h : Onward k k') (h' : Onward k' k'') : Onward k k'' :=
  ⟨fun p hp => h'.gone p (h.gone p hp), fun p code hp => h'.settled p code (h.settled p code hp)⟩

theorem Onward.of_tasks (htasks : k'.tasks = k.tasks) (hpid : k'.next_pid = k.next_pid) :
    Onward k k' := by
  constructor
  · intro p hp
    rw [Gone, htasks, hpid]
    exact hp
  · intro p code hp
    rw [Settled, htasks, hpid]
    exact hp

/-- A block changes, of a zombie only what is not its exit code. -/
theorem Onward.modify (k : Kernel) (p : Nat) (hf : ∀ t, k.tasks p = some t → t.is_zombie = true →
    (f t).is_zombie = true ∧ (f t).exit_code = t.exit_code) : Onward k (k.modify p f) := by
  constructor
  · rintro q ⟨hlt, hnone⟩
    refine ⟨hlt, ?_⟩
    rw [tasks_modify]
    split
    · next heq =>
      rw [← heq, hnone]
      rfl
    · exact hnone
  · rintro q code ⟨hlt, hzombie⟩
    refine ⟨hlt, fun t' ht' => ?_⟩
    rw [tasks_modify] at ht'
    split at ht'
    · next heq =>
      obtain ⟨t, ht, rfl⟩ := Option.map_eq_some_iff.mp ht'
      obtain ⟨hz, hcode⟩ := hzombie t (heq ▸ ht)
      obtain ⟨hz', hcode'⟩ := hf t ht hz
      exact ⟨hz', hcode'.trans hcode⟩
    · exact hzombie t' ht'

theorem Onward.freed (h : Freed k k') : Onward k k' := by
  have hpid := h.next_pid
  constructor
  · rintro p ⟨hlt, hnone⟩
    refine ⟨hpid ▸ hlt, ?_⟩
    obtain heq | heq := h.tasks p
    · rw [heq, hnone]
    · exact heq.1
  · rintro p code ⟨hlt, hzombie⟩
    refine ⟨hpid ▸ hlt, fun t ht => ?_⟩
    obtain heq | heq := h.tasks p
    · exact hzombie t (heq ▸ ht)
    · cases heq.1.symm.trans ht

/-- A new task takes a pid that no task had. -/
theorem Onward.spawn (k : Kernel) (child : TaskControlBlock)
    (hpid : k'.next_pid = k.next_pid + 1)
    (htasks : k'.tasks = Function.update k.tasks k.next_pid (some child)) : Onward k k' := by
  have hold : ∀ p < k.next_pid, k'.tasks p = k.tasks p := fun p hp => by
    rw [htasks, Function.update_of_ne hp.ne]
  constructor
  · rintro p ⟨hlt, hnone⟩
    exact ⟨by omega, (hold p hlt).trans hnone⟩
  · rintro p code ⟨hlt, hzombie⟩
    exact ⟨by omega, fun t ht => hzombie t ((hold p hlt).symm.trans ht)⟩

end Relation

namespace Kernel

variable {k k' : Kernel} {p : Nat} {t : TaskControlBlock}

section Steps

/-- The current task is no zombie. -/
theorem modify_current (hk : Scheduled k) (hrunning : k.phase = .running)
    (hcurrent : k.current = some p) (f : TaskControlBlock → TaskControlBlock) :
    Onward k (k.modify p f) := by
  refine Onward.modify k p fun t ht hz => ?_
  rw [hk.executing_alive hrunning hcurrent ht] at hz
  cases hz

theorem futex_wake_tasks (k : Kernel) (uaddr nr_wake : Nat) :
    Meets (k.futex_wake uaddr nr_wake) (fun _ => True) fun r =>
      r.2.tasks = k.tasks ∧ r.2.next_pid = k.next_pid := by
  unfold futex_wake
  split
  · exact ⟨rfl, rfl⟩
  · split
    · exact ⟨rfl, rfl⟩
    · refine Meets.bind (Q := fun _ => True) ?_ fun r _ => ⟨rfl, rfl⟩
      cases FutexQueue.pop_waiters _ _ <;> trivial

theorem futex_requeue_tasks (k : Kernel) (uaddr nr_wake uaddr2 nr_limit : Nat) :
    Meets (k.futex_requeue uaddr nr_wake uaddr2 nr_limit) (fun _ => True) fun r =>
      r.2.tasks = k.tasks ∧ r.2.next_pid = k.next_pid := by
  unfold futex_requeue
  split
  · exact ⟨rfl, rfl⟩
  · split
    · exact ⟨rfl, rfl⟩
    · refine Meets.bind (Q := fun _ => True) ?_ fun r _ => ?_
      · cases FutexQueue.pop_waiters _ _ <;> trivial
      · refine Meets.bind (Q := fun _ => True) ?_ fun r' _ => ?_
        · cases FutexQueue.pop_waiters _ _ <;> trivial
        · dsimp only
          split
          · exact ⟨rfl, rfl⟩
          · exact ⟨rfl, rfl⟩

theorem sys_futex_onward (hk : Scheduled k) (hrunning : k.phase = .running)
    (hcurrent : k.current = some p) (uaddr futex_op val val2 uaddr2 timeout word now : Nat) :
    Meets (k.sys_futex p uaddr futex_op val val2 uaddr2 timeout word now) (fun _ => True)
      (Onward k) := by
  have hsnd {x : Except TaskPanic (Nat × Kernel)} (hx : Meets x (fun _ => True) fun r =>
      r.2.tasks = k.tasks ∧ r.2.next_pid = k.next_pid) :
      Meets (Prod.snd <$> x) (fun _ => True) (Onward k) := by
    cases x with
    | error e => trivial
    | ok r => exact .of_tasks hx.1 hx.2
  unfold sys_futex
  dsimp only
  split
  · exact .refl k
  · split
    · unfold futex_wait
      dsimp only
      split
      · exact .of_tasks rfl rfl
      · exact (modify_current hk hrunning hcurrent _).trans (.of_tasks rfl rfl)
    · split
      · exact hsnd (futex_wake_tasks k _ _)
      · split
        · exact hsnd (futex_requeue_tasks k _ _ _ _)
        · trivial

theorem wake_clear_child_tid_tasks (k : Kernel) (t : TaskControlBlock) :
    Meets (k.wake_clear_child_tid t) (fun _ => True) fun k' =>
      k'.tasks = k.tasks ∧ k'.next_pid = k.next_pid := by
  unfold wake_clear_child_tid
  split
  · exact ⟨rfl, rfl⟩
  · have h := futex_wake_tasks k t.clear_child_tid 1
    cases hwake : k.futex_wake t.clear_child_tid 1 with
    | error e => trivial
    | ok r => exact h.of_ok hwake

theorem reparent_onward (cs : List Nat) (k : Kernel) : Onward k (cs.foldl reparent k) := by
  induction cs generalizing k with
  | nil => exact .refl k
  | cons c cs ih =>
    refine Onward.trans ?_ (ih (k.reparent c))
    unfold reparent
    refine Onward.trans ?_ (Onward.modify _ INITPROC fun t _ hz => ⟨hz, rfl⟩)
    exact Onward.modify k c fun t _ hz => ⟨hz, rfl⟩

theorem cancel_thread_onward (k : Kernel) (p : Nat) (t : TaskControlBlock) :
    Meets (k.cancel_thread p t) (fun _ => True) (Onward k) := by
  unfold cancel_thread
  split
  · trivial
  · next q _ =>
    split
    · trivial
    · split
      · dsimp only
        have hchild := Onward.modify k q
          (f := fun t => { t with children := t.children.erase p }) fun t _ hz => ⟨hz, rfl⟩
        split
        · exact hchild.trans (.of_tasks rfl rfl)
        · trivial
      · trivial

/-- A task without references is freed. -/
theorem drop_self {fuel : Nat} (hcount : k.strong_count p = 0) (hpos : 0 < fuel) :
    (k.drop fuel p).tasks p = none := by
  obtain ⟨n, rfl⟩ := Nat.exists_eq_succ_of_ne_zero hpos.ne'
  rw [drop]
  cases ht : k.tasks p with
  | none => exact ht
  | some t =>
    dsimp only
    rw [if_pos hcount]
    have hfreed := Freed.foldl_drop n t.children
      { k with tasks := Function.update k.tasks p none }
    obtain heq | heq := hfreed.tasks p
    · rw [heq]
      exact Function.update_self ..
    · exact heq.1

/-- A task that exits is a zombie with its code, or freed at once. -/
theorem exit_onward (hk : Scheduled k) (hrunning : k.phase = .running) (exit_code : Int) :
    Meets (k.exit_current_and_run_next exit_code) (fun _ => True) fun k' =>
      Onward k k' ∧ ∀ p, k.current = some p → k'.Settled p exit_code := by
  unfold exit_current_and_run_next
  split
  · trivial
  · next p hcurrent =>
    refine (k.task_meets p).bind fun t ht => ?_
    split
    · trivial
    refine (wake_clear_child_tid_tasks _ t).bind fun k₁ h₁ => ?_
    obtain ⟨htasks, hpid⟩ := h₁
    have hlt := hk.lt_next_pid ht
    have hwoken : Onward k k₁ := .of_tasks htasks hpid
    -- no zombie exits
    have hdead : Onward k₁ (k₁.modify p fun t =>
        { t with task_status := .Zombie, exit_code := exit_code }) := by
      refine .modify k₁ p fun t₁ ht₁ hz => ?_
      rw [hk.executing_alive hrunning hcurrent ((congrFun htasks p).symm.trans ht₁)] at hz
      cases hz
    have hsettled : Settled (k₁.modify p fun t =>
        { t with task_status := .Zombie, exit_code := exit_code }) p exit_code := by
      refine ⟨hlt.trans_eq hpid.symm, fun t' ht' => ?_⟩
      rw [tasks_modify, if_pos rfl] at ht'
      obtain ⟨t₁, _, rfl⟩ := Option.map_eq_some_iff.mp ht'
      exact ⟨rfl, rfl⟩
    have hreparent := reparent_onward t.children (k₁.modify p fun t =>
      { t with task_status := .Zombie, exit_code := exit_code })
    have hend {k₂ : Kernel} (h : Onward (t.children.foldl reparent (k₁.modify p fun t =>
        { t with task_status := .Zombie, exit_code := exit_code })) k₂) :
        Onward k { k₂ with phase := .switched } ∧ ∀ q, some p = some q →
          Settled { k₂ with phase := .switched } q exit_code := by
      refine ⟨((hwoken.trans (hdead.trans hreparent)).trans h).trans (.of_tasks rfl rfl), ?_⟩
      rintro q heq
      cases heq
      exact h.settled p _ (hreparent.settled p _ hsettled)
    rw [hcurrent]
    split
    · trivial
    · split
      · trivial
      · dsimp only
        split
        · exact (cancel_thread_onward _ p t).bind fun k₂ h₂ => hend h₂
        · exact hend (.freed (Freed.drop _ _ _))

/-- The signals are handled, and the task has not exited, or it has. -/
theorem handle_signals_onward (sigactions : Nat → SigAction) (p : Nat) (fuel : Nat) :
    ∀ {k : Kernel}, Scheduled k → k.phase = .running →
      Meets (handle_signals sigactions p fuel k) (fun _ => True) fun r => Onward k r.2 := by
  induction fuel with
  | zero => exact fun _ _ => .refl _
  | succ fuel ih =>
    intro k hk hrunning
    unfold handle_signals
    refine (k.task_meets p).bind fun t _ => ?_
    split
    · exact .refl k
    · next signum _ =>
      have hsteady := Steady.modify k p
        (f := fun t => { t with pending_signals := t.pending_signals.sub signum }) fun _ => rfl
      have hsub := Onward.modify k p
        (f := fun t => { t with pending_signals := t.pending_signals.sub signum })
        fun t _ hz => ⟨hz, rfl⟩
      have hrunning' := hsteady.phase.trans hrunning
      dsimp only
      split
      · exact (ih (hk.steady hsteady) hrunning').mono fun r hr => hsub.trans hr
      · split
        · split
          · exact (exit_onward (hk.steady hsteady) hrunning' _).bind fun k' h => hsub.trans h.1
          · exact hsub
        · exact hsub.trans (Onward.modify _ p fun t _ hz => ⟨hz, rfl⟩)

theorem exec_signal_handlers_onward (hk : Scheduled k) (hrunning : k.phase = .running)
    (sigactions : Nat → SigAction) :
    Meets (k.exec_signal_handlers sigactions) (fun _ => True) fun r => Onward k r.2 := by
  unfold exec_signal_handlers
  split
  · trivial
  · exact handle_signals_onward sigactions _ _ hk hrunning

theorem suspend_onward (hk : Scheduled k) (hrunning : k.phase = .running)
    (sigactions : Nat → SigAction) :
    Meets (k.suspend_current_and_run_next sigactions) (fun _ => True) (Onward k) := by
  have hscheduled := hk.exec_signal_handlers hrunning sigactions
  have honward := exec_signal_handlers_onward hk hrunning sigactions
  unfold suspend_current_and_run_next
  cases hexec : k.exec_signal_handlers sigactions with
  | error e => trivial
  | ok r =>
    obtain ⟨exited, k'⟩ := r
    have hk' := hscheduled.of_ok hexec
    have h := honward.of_ok hexec
    show Meets (if exited then _ else _) _ _
    cases exited with
    | true => exact h
    | false =>
      have hsteady : Steady k k' := hk'
      dsimp only
      rw [if_neg Bool.false_ne_true]
      cases hcurrent : k'.current with
      | none => trivial
      | some p =>
        exact (h.trans (modify_current (hk.steady hsteady) (hsteady.phase.trans hrunning)
          hcurrent _)).trans (.of_tasks rfl rfl)

theorem zombie_child_eq_some {pid : Int} {c : Nat} (h : k.zombie_child t pid = some c) :
    ∃ tc, k.tasks c = some tc ∧ tc.is_zombie = true := by
  have hz := List.find?_some h
  rw [Bool.and_eq_true] at hz
  cases htc : k.tasks c with
  | none =>
    rw [htc] at hz
    cases hz.1
  | some tc =>
    rw [htc] at hz
    exact ⟨tc, rfl, hz.1⟩

/-- The child that is reported is freed. -/
theorem wait4_loop_onward (hk : Scheduled k) (hrunning : k.phase = .running)
    (p : Nat) (t : TaskControlBlock) (pid : Int) (sigactions : Nat → SigAction) :
    Meets (k.wait4_loop p t pid sigactions) (fun _ => True) fun k' =>
      Onward k k' ∧ ∀ r ∈ k.report t pid, k'.Gone r.1 := by
  unfold wait4_loop
  split
  · next c hc =>
    have hfound : k.zombie_child t pid = some c := hc
    obtain ⟨tc, htc, -⟩ := zombie_child_eq_some hfound
    have hlt := hk.lt_next_pid htc
    have hmodify := Onward.modify k p
      (f := fun t => { t with children := t.children.erase c, resume := .user })
      fun t _ hz => ⟨hz, rfl⟩
    dsimp only
    split
    · next hcount =>
      generalize hk₁ : k.modify p _ = k₁ at hmodify hcount
      have hpid : k₁.next_pid = k.next_pid := by
        rw [← hk₁]
        rfl
      have hdropped : (k₁.drop k₁.next_pid c).Gone c := by
        have hfreed := Freed.drop k₁.next_pid k₁ c
        refine ⟨by rw [hfreed.next_pid, hpid]; exact hlt, ?_⟩
        exact drop_self hcount (by omega)
      refine ⟨hmodify.trans (.freed (Freed.drop _ _ _)), fun r hr => ?_⟩
      rw [report, hfound] at hr
      obtain ⟨tc', -, rfl⟩ := Option.map_eq_some_iff.mp (Option.mem_toList.mp hr)
      exact hdropped
    · trivial
  · next hnone =>
    have hfound : k.zombie_child t pid = none := hnone
    have hresume := Steady.modify k p (f := fun t => { t with resume := .wait4 pid }) fun _ => rfl
    have hmodify := Onward.modify k p (f := fun t => { t with resume := .wait4 pid })
      fun t _ hz => ⟨hz, rfl⟩
    refine (suspend_onward (hk.steady hresume) (hresume.phase.trans hrunning) sigactions).mono
      fun k' h => ⟨hmodify.trans h, fun r hr => ?_⟩
    rw [report, hfound] at hr
    cases hr

theorem report_nodup (k : Kernel) (t : TaskControlBlock) (pid : Int) :
    ((k.report t pid).map Prod.fst).Nodup := by
  unfold report
  cases (k.zombie_child t pid).bind _ with
  | none => exact List.nodup_nil
  | some r => exact List.nodup_singleton _

/-- A report is of a zombie, and has its code. -/
theorem report_zombie {r : Nat × BitVec 32} {pid : Int} (hr : r ∈ k.report t pid) :
    ∃ tc, k.tasks r.1 = some tc ∧ tc.is_zombie = true ∧ r.2 = wait_status tc.exit_code := by
  obtain ⟨c, hc, hr⟩ := Option.bind_eq_some_iff.mp (Option.mem_toList.mp hr)
  obtain ⟨tc, htc, rfl⟩ := Option.map_eq_some_iff.mp hr
  obtain ⟨tc', htc', hz⟩ := zombie_child_eq_some hc
  cases htc.symm.trans htc'
  exact ⟨tc, htc, hz, rfl⟩

theorem reported_zombie {r : Nat × BitVec 32} {op : KernelOp} (hr : r ∈ k.reported op) :
    ∃ tc, k.tasks r.1 = some tc ∧ tc.is_zombie = true ∧ r.2 = wait_status tc.exit_code := by
  unfold reported at hr
  split at hr
  · split at hr
    · exact report_zombie hr
    · cases hr
  · split at hr
    · split at hr
      · exact report_zombie hr
      · cases hr
      · cases hr
    · cases hr
  · cases hr

theorem reported_nodup (k : Kernel) (op : KernelOp) : ((k.reported op).map Prod.fst).Nodup := by
  unfold reported
  split
  · split
    · exact report_nodup ..
    · exact List.nodup_nil
  · split
    · split
      · exact report_nodup ..
      · exact List.nodup_nil
      · exact List.nodup_nil
    · exact List.nodup_nil
  · exact List.nodup_nil

theorem sys_do_fork_onward (k : Kernel) (p : Nat) (t : TaskControlBlock) (flags ctid : Nat) :
    Meets (k.sys_do_fork p t flags ctid) (fun _ => True) (Onward k) := by
  unfold sys_do_fork
  split
  · trivial
  · have hchild := Onward.modify k p
      (f := fun t => { t with children := t.children ++ [k.next_pid] }) fun t _ hz => ⟨hz, rfl⟩
    exact hchild.trans (.spawn _ _ rfl rfl)

theorem put_away_onward (k : Kernel) : Meets k.put_away (fun _ => True) (Onward k) := by
  unfold put_away
  split
  · have hlast : Onward k k.take_last := by
      unfold take_last
      split
      · exact .refl k
      · split
        · exact .of_tasks rfl rfl
        · exact .of_tasks rfl rfl
    have hcleaner : Onward k.take_last { k.take_last with cleaner := [] } := .of_tasks rfl rfl
    have hfreed := Onward.freed (Freed.foldl_drop k.take_last.next_pid k.take_last.cleaner
      { k.take_last with cleaner := [] })
    exact ((hlast.trans hcleaner).trans hfreed).trans (.of_tasks rfl rfl)
  · trivial
  · trivial

/-- A task that was queued is no zombie. -/
theorem run_task_onward (hk : Scheduled k) {manager : TaskManager}
    (hcount : k.manager.count p ≠ 0) : Onward k ({ k with manager := manager }.run_task p) := by
  have hmanager : Onward k { k with manager := manager } := .of_tasks rfl rfl
  have hrun : Onward { k with manager := manager } (modify { k with manager := manager } p fun t =>
      { t with task_status := .Running }) := by
    refine .modify _ p fun t ht hz => ?_
    exact absurd (hk.zombie_unqueued (p := p) ht hz).1 hcount
  exact (hmanager.trans hrun).trans (.of_tasks rfl rfl)

theorem dispatch_onward (hk : Scheduled k) (now pick : Nat) :
    Meets (k.dispatch now pick) (fun _ => True) (Onward k) := by
  unfold dispatch
  split
  · split
    · next p manager hcheck =>
      refine run_task_onward hk ?_
      rw [TaskManager.count_check_hanging hcheck p, if_pos rfl]
      exact Nat.succ_ne_zero _
    · split
      · next p k' hcheck =>
        have hsame : k'.tasks = k.tasks ∧ k'.next_pid = k.next_pid := by
          unfold check_futex_interupt_or_expire at hcheck
          split at hcheck
          · cases hcheck
            exact ⟨rfl, rfl⟩
          · obtain ⟨r, _, heq⟩ := Option.map_eq_some_iff.mp hcheck
            cases heq
            exact ⟨rfl, rfl⟩
        exact .of_tasks hsame.1 hsame.2
      · split
        · next p manager hfetch =>
          refine run_task_onward hk ?_
          rw [TaskManager.count_fetch hfetch p, if_pos rfl]
          exact Nat.succ_ne_zero _
        · exact .of_tasks rfl rfl
  · trivial
  · trivial

theorem resume_onward (hk : Scheduled k) (sigactions : Nat → SigAction) :
    Meets (k.resume sigactions) (fun _ => True) fun k' =>
      Onward k k' ∧ ∀ r ∈ k.reported (.resume sigactions), k'.Gone r.1 := by
  unfold resume
  split
  · next p hrunning hcurrent =>
    refine (k.task_meets p).bind fun t ht => ?_
    rw [reported, hcurrent, Option.bind_some, ht]
    dsimp only
    split
    · trivial
    · next pid hwait =>
      rw [hwait]
      exact wait4_loop_onward hk hrunning p t pid sigactions
    · next timeout hwait =>
      rw [hwait]
      exact ⟨.modify k p fun t _ hz => ⟨hz, rfl⟩, fun r hr => by cases hr⟩
  · trivial

/-- One step brings nothing back, and frees the task that it reports. -/
theorem step_onward (hk : Scheduled k) (op : KernelOp) : Meets (k.step op) (fun _ => True) fun k' =>
    Onward k k' ∧ ∀ r ∈ k.reported op, k'.Gone r.1 := by
  have hnothing {x : Except TaskPanic Kernel} (hx : Meets x (fun _ => True) (Onward k)) :
      Meets x (fun _ => True) fun k' =>
        Onward k k' ∧ ∀ r ∈ ([] : List (Nat × BitVec 32)), k'.Gone r.1 :=
    hx.mono fun k' h => ⟨h, fun r hr => by cases hr⟩
  have huser {f : Nat × TaskControlBlock → Except TaskPanic Kernel}
      (hf : ∀ r, k.phase = .running → k.current = some r.1 →
        Meets (f r) (fun _ => True) (Onward k)) :
      Meets (k.user >>= f) (fun _ => True) (Onward k) :=
    k.user_meets.bind fun r hr => hf r hr.1 hr.2.1
  cases op with
  | suspend sigactions => exact hnothing (huser fun _ h _ => suspend_onward hk h sigactions)
  | exec_signal_handlers sigactions =>
    refine hnothing (huser fun _ h _ => ?_)
    have honward := exec_signal_handlers_onward hk h sigactions
    cases hx : k.exec_signal_handlers sigactions with
    | error e => trivial
    | ok r => exact honward.of_ok hx
  | sys_exit exit_code =>
    exact hnothing (huser fun _ h _ => (exit_onward hk h exit_code).mono fun _ h => h.1)
  | sys_do_fork flags ctid =>
    exact hnothing (huser fun r _ _ => sys_do_fork_onward k r.1 r.2 flags ctid)
  | sys_exec =>
    refine hnothing (huser fun r _ _ => ?_)
    show Meets (k.sys_exec r.1 r.2) _ _
    unfold sys_exec
    split
    · exact .refl k
    · trivial
  | sys_wait4 pid sigactions =>
    have hstep : k.step (.sys_wait4 pid sigactions) =
        k.user >>= fun r => k.sys_wait4 r.1 r.2 pid sigactions := rfl
    rw [hstep]
    cases huser' : k.user with
    | error e => trivial
    | ok r =>
      obtain ⟨p, t⟩ := r
      have hrunning := (k.user_meets.of_ok huser').1
      have hreported : k.reported (.sys_wait4 pid sigactions) = k.report t pid := by
        rw [reported, huser']
      rw [hreported]
      show Meets (k.sys_wait4 p t pid sigactions) _ _
      unfold sys_wait4
      have hnone (h : k.zombie_child t pid = none) : ∀ r ∈ k.report t pid, k.Gone r.1 := by
        rw [report, h]
        exact fun r hr => by cases hr
      split
      · next hempty =>
        refine ⟨.refl k, hnone ?_⟩
        rw [zombie_child, hempty.2]
        rfl
      · split
        · next hany =>
          refine ⟨.refl k, hnone (List.find?_eq_none.mpr fun c hc => ?_)⟩
          rw [Bool.and_eq_true]
          exact fun h => hany (List.any_eq_true.mpr ⟨c, hc, h.2⟩)
        · exact wait4_loop_onward hk hrunning p t pid sigactions
  | resume sigactions => exact resume_onward hk sigactions
  | sys_kill pid signal =>
    refine hnothing (huser fun _ _ _ => ?_)
    show Onward k (k.sys_kill pid signal)
    unfold sys_kill
    dsimp only
    split
    · exact .refl k
    · exact .modify k pid fun t _ hz => ⟨hz, rfl⟩
  | add_signal signal =>
    exact hnothing (huser fun r _ _ => .modify k r.1 fun t _ hz => ⟨hz, rfl⟩)
  | set_sigmask sigmask =>
    exact hnothing (huser fun r _ _ => .modify k r.1 fun t _ hz => ⟨hz, rfl⟩)
  | sys_set_tid_address tidptr =>
    exact hnothing (huser fun r _ _ => .modify k r.1 fun t _ hz => ⟨hz, rfl⟩)
  | hang sleep_time duration =>
    exact hnothing (huser fun r h hcurrent =>
      (modify_current hk h hcurrent _).trans (.of_tasks rfl rfl))
  | sys_futex uaddr futex_op val val2 uaddr2 timeout word now =>
    exact hnothing (huser fun r h hcurrent => sys_futex_onward hk h hcurrent _ _ _ _ _ _ _ _)
  | put_away => exact hnothing (put_away_onward k)
  | dispatch now pick => exact hnothing (dispatch_onward hk now pick)

end Steps

/-- A zombie that has settled with a code is reported with it. -/
theorem Settled.reported {code : Int} {op : KernelOp} {r : Nat × BitVec 32}
    (h : k.Settled p code) (hr : r ∈ k.reported op) (hp : r.1 = p) : r.2 = wait_status code := by
  obtain ⟨tc, htc, -, hstatus⟩ := reported_zombie hr
  rw [hstatus, (h.2 tc (hp ▸ htc)).2]

theorem Gone.not_reported {op : KernelOp} (h : k.Gone p) : p ∉ (k.reported op).map Prod.fst := by
  intro hmem
  obtain ⟨r, hr, rfl⟩ := List.mem_map.mp hmem
  obtain ⟨tc, htc, -⟩ := reported_zombie hr
  cases h.2.symm.trans htc

end Kernel

/-- Initproc forks and waits, and its child runs. -/
def fork_and_wait : List KernelOp :=
  [.put_away, .dispatch 0 0, .sys_do_fork 0 0, .sys_wait4 (-1) no_handlers, .put_away,
    .dispatch 0 0]

/-- Initproc goes on. -/
def wait_returns : List KernelOp := [.put_away, .dispatch 0 0, .resume no_handlers]

end MyGOS.Task
