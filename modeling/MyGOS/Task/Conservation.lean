import MyGOS.Task.Kernel

/-!
# Every task is in one place

A task that has not exited is in one of the three queues or in the current
slot, and nowhere twice; a zombie is in none of them. Between a switch to the
idle control flow and the return of the last task to its queue, the slot
counts for a task that is only on its way (`slot`).
-/

namespace MyGOS.Task

open Outcome StepSystem

namespace Kernel

def alive (k : Kernel) (p : Nat) : Bool := (k.status p).any fun s => s ≠ .Zombie

/-- The queues and the slot, when no switch is under way. -/
def Conserved (k : Kernel) : Prop :=
  ∀ p, k.manager.ready_queue.count p + (k.manager.hanging_queue.map HangingTask.inner).count p +
    k.manager.waiting_queue.count p + (if k.current = some p then 1 else 0) =
      if k.alive p then 1 else 0

/-- During a switch, a last task that is not ready is already somewhere else. -/
def slot (k : Kernel) (p : Nat) : Nat :=
  if k.current = some p ∧ (k.phase = .switched → k.status p = some .Ready) then 1 else 0

end Kernel

structure Scheduled (k : Kernel) : Prop where
  once : ∀ p, k.manager.count p + k.slot p = if k.alive p then 1 else 0
  fresh : ∀ p, k.next_pid ≤ p → k.status p = none
  idle : k.phase = .idle → k.current = none

/-- What does not concern the scheduler. -/
structure Steady (k k' : Kernel) : Prop where
  count : ∀ p, k'.manager.count p = k.manager.count p
  status : ∀ p, k'.status p = k.status p
  current : k'.current = k.current
  phase : k'.phase = k.phase
  next_pid : k'.next_pid = k.next_pid

/-- Blocks without a reference are freed. -/
structure Freed (k k' : Kernel) : Prop where
  same : k' = { k with tasks := k'.tasks }
  tasks : ∀ p, k'.tasks p = k.tasks p ∨
    k'.tasks p = none ∧ k.manager.count p = 0 ∧ k.current ≠ some p

namespace Kernel

section Lemmas

variable {k k' : Kernel} {p q : Nat} {t : TaskControlBlock}
  {f : TaskControlBlock → TaskControlBlock}

theorem status_of_task (h : k.tasks p = some t) : k.status p = some t.task_status := by
  rw [status, h]
  rfl

theorem tasks_modify : (k.modify p f).tasks q =
    if q = p then (k.tasks p).map f else k.tasks q :=
  Function.update_apply _ _ _ _

theorem status_modify (k : Kernel) (p q : Nat) (f : TaskControlBlock → TaskControlBlock) :
    (k.modify p f).status q =
      if q = p then (k.tasks p).map fun t => (f t).task_status else k.status q := by
  rw [status, tasks_modify]
  split
  · rw [Option.map_map]
    rfl
  · rfl

/-- A block whose status is set. -/
theorem status_modify_of (h : k.tasks p = some t) (q : Nat) :
    (k.modify p f).status q = if q = p then some (f t).task_status else k.status q := by
  rw [status_modify, h]
  rfl

theorem exists_task_of_alive (h : k.alive p = true) : ∃ t, k.tasks p = some t := by
  cases ht : k.tasks p with
  | none => simp [alive, status, ht] at h
  | some t => exact ⟨t, rfl⟩

theorem alive_modify (ht : k.tasks p = some t) (hf : (f t).task_status ≠ .Zombie) (q : Nat) :
    (k.modify p f).alive q = if q = p then true else k.alive q := by
  rw [alive, status_modify_of ht]
  split
  · simpa using hf
  · rfl

theorem task_meets (k : Kernel) (p : Nat) :
    Meets (k.task p) (fun _ => True) fun t => k.tasks p = some t := by
  unfold task
  split
  · assumption
  · trivial

theorem user_meets (k : Kernel) : Meets k.user (fun _ => True) fun r =>
    k.phase = .running ∧ k.current = some r.1 ∧ k.tasks r.1 = some r.2 := by
  unfold user
  split
  · rename_i p hphase hcurrent
    refine (k.task_meets p).bind fun t ht => ?_
    split
    · exact ⟨hphase, hcurrent, ht⟩
    · trivial
  · trivial

end Lemmas

end Kernel

open Kernel

section Relations

variable {k k' k'' : Kernel} {p : Nat} {f : TaskControlBlock → TaskControlBlock}

theorem Steady.refl (k : Kernel) : Steady k k := ⟨fun _ => rfl, fun _ => rfl, rfl, rfl, rfl⟩

theorem Steady.trans (h : Steady k k') (h' : Steady k' k'') : Steady k k'' where
  count p := (h'.count p).trans (h.count p)
  status p := (h'.status p).trans (h.status p)
  current := h'.current.trans h.current
  phase := h'.phase.trans h.phase
  next_pid := h'.next_pid.trans h.next_pid

theorem Steady.modify (k : Kernel) (p : Nat) (hf : ∀ t, (f t).task_status = t.task_status) :
    Steady k (k.modify p f) := by
  refine ⟨fun _ => rfl, fun q => ?_, rfl, rfl, rfl⟩
  rw [status_modify]
  split
  · rename_i heq
    rw [heq, Kernel.status]
    simp only [hf]
  · rfl

theorem Steady.alive (h : Steady k k') (p : Nat) : k'.alive p = k.alive p := by
  rw [Kernel.alive, h.status p]
  rfl

theorem Scheduled.steady (hk : Scheduled k) (h : Steady k k') : Scheduled k' where
  once p := by
    rw [h.count p, slot, h.current, h.phase, h.status p, h.alive p]
    exact hk.once p
  fresh p hp := by
    rw [h.next_pid] at hp
    rw [h.status p]
    exact hk.fresh p hp
  idle hidle := by
    rw [h.phase] at hidle
    rw [h.current]
    exact hk.idle hidle

theorem Freed.refl (k : Kernel) : Freed k k := ⟨rfl, fun _ => Or.inl rfl⟩

theorem Freed.manager (h : Freed k k') : k'.manager = k.manager := by rw [h.same]

theorem Freed.current (h : Freed k k') : k'.current = k.current := by rw [h.same]

theorem Freed.phase (h : Freed k k') : k'.phase = k.phase := by rw [h.same]

theorem Freed.next_pid (h : Freed k k') : k'.next_pid = k.next_pid := by rw [h.same]

theorem Freed.trans (h : Freed k k') (h' : Freed k' k'') : Freed k k'' where
  same := by
    rw [h'.same, h.same]
  tasks p := by
    rcases h'.tasks p with heq | ⟨hnone, hcount, hcurrent⟩
    · rw [heq]
      exact h.tasks p
    · rw [h.same] at hcount hcurrent
      exact Or.inr ⟨hnone, hcount, hcurrent⟩

/-- Freeing along the children lists, in the order of the calls. -/
theorem Freed.drop (fuel : Nat) : ∀ (k : Kernel) (p : Nat), Freed k (k.drop fuel p) := by
  induction fuel with
  | zero => exact fun k _ => Freed.refl k
  | succ fuel ih =>
    intro k p
    unfold Kernel.drop
    split
    · exact Freed.refl k
    · rename_i t ht
      split
      · rename_i hcount
        have hfree : Freed k { k with tasks := Function.update k.tasks p none } := by
          refine ⟨rfl, fun q => ?_⟩
          rcases eq_or_ne q p with rfl | hne
          · refine Or.inr ⟨Function.update_self _ _ _, ?_, fun hcurrent => ?_⟩
            · unfold strong_count at hcount
              omega
            · unfold strong_count at hcount
              rw [if_pos hcurrent] at hcount
              omega
          · exact Or.inl (Function.update_of_ne hne _ _)
        generalize { k with tasks := Function.update k.tasks p none } = k₁ at hfree
        generalize t.children = cs
        induction cs generalizing k₁ with
        | nil => exact hfree
        | cons c cs ihcs => exact ihcs _ (hfree.trans (ih k₁ c))
      · exact Freed.refl k

theorem Freed.foldl_drop (fuel : Nat) (cs : List Nat) (k : Kernel) :
    Freed k (cs.foldl (Kernel.drop fuel) k) := by
  induction cs generalizing k with
  | nil => exact Freed.refl k
  | cons c cs ih => exact (Freed.drop fuel k c).trans (ih _)

theorem Scheduled.freed (hk : Scheduled k) (h : Freed k k') : Scheduled k' := by
  have hstatus (p : Nat) : k'.status p = k.status p ∨
      k'.status p = none ∧ k.manager.count p = 0 ∧ k.current ≠ some p := by
    rcases h.tasks p with heq | ⟨hnone, hrest⟩
    · exact Or.inl (by rw [status, heq]; rfl)
    · exact Or.inr ⟨by rw [status, hnone]; rfl, hrest⟩
  constructor
  · intro p
    rw [h.manager, slot, h.current, h.phase, Kernel.alive]
    rcases hstatus p with heq | ⟨hnone, hcount, hne⟩
    · rw [heq]
      exact hk.once p
    · rw [hnone, hcount, if_neg fun hand => hne hand.1]
      rfl
  · intro p hp
    rw [h.next_pid] at hp
    rcases hstatus p with heq | ⟨hnone, _⟩
    · rw [heq]
      exact hk.fresh p hp
    · exact hnone
  · intro hidle
    rw [h.phase] at hidle
    rw [h.current]
    exact hk.idle hidle

theorem slot_of_none (hcurrent : k.current = none) (q : Nat) : k.slot q = 0 := by
  rw [slot, if_neg]
  rintro ⟨hq, _⟩
  cases hcurrent.symm.trans hq

/-- Nothing is in the slot, so the phase does not matter. -/
theorem Scheduled.set_phase (hk : Scheduled k) (hcurrent : k.current = none) (phase : Phase) :
    Scheduled { k with phase := phase } where
  once p := by
    have honce := hk.once p
    rw [slot_of_none hcurrent] at honce
    rw [slot_of_none (k := { k with phase := phase }) hcurrent]
    exact honce
  fresh := hk.fresh
  idle _ := hcurrent

end Relations

section Futexes

variable {k k' : Kernel} {p : Nat}

theorem Steady.wake_up (k : Kernel) (futexes : FutexMap) (ws : List FutexWaiter) :
    Steady k ({ k with futexes := futexes }.wake_up ws) := by
  refine ⟨fun p => ?_, fun _ => rfl, rfl, rfl, rfl⟩
  show TaskManager.count (ws.foldl _ k.manager) p = _
  induction ws generalizing k with
  | nil => rfl
  | cons w ws ih =>
    rw [List.foldl_cons]
    have h := ih { k with manager := k.manager.unblock_task w.task }
    dsimp only at h
    rw [h, TaskManager.count_unblock_task]

theorem futex_wake_steady (k : Kernel) (uaddr nr_wake : Nat) :
    Meets (k.futex_wake uaddr nr_wake) (fun _ => True) fun r => Steady k r.2 := by
  unfold futex_wake
  split
  · exact Steady.refl k
  · split
    · exact Steady.refl k
    · refine Meets.bind (Q := fun _ => True) ?_ fun r _ => Steady.wake_up k _ _
      cases FutexQueue.pop_waiters _ _ <;> trivial

theorem futex_requeue_steady (k : Kernel) (uaddr nr_wake uaddr2 nr_limit : Nat) :
    Meets (k.futex_requeue uaddr nr_wake uaddr2 nr_limit) (fun _ => True) fun r =>
      Steady k r.2 := by
  unfold futex_requeue
  split
  · exact Steady.refl k
  · split
    · exact Steady.refl k
    · refine Meets.bind (Q := fun _ => True) ?_ fun r _ => ?_
      · cases FutexQueue.pop_waiters _ _ <;> trivial
      · refine Meets.bind (Q := fun _ => True) ?_ fun r' _ => ?_
        · cases FutexQueue.pop_waiters _ _ <;> trivial
        · dsimp only
          have hwake := Steady.wake_up k (k.futexes.put uaddr r'.2) r.1
          split
          · exact hwake
          · exact hwake.trans ⟨fun _ => rfl, fun _ => rfl, rfl, rfl, rfl⟩

end Futexes

section Switches

variable {k k' : Kernel} {p : Nat} {t : TaskControlBlock}

theorem slot_of_current (hcurrent : k.current = some p) (hphase : k.phase ≠ .switched) :
    k.slot p = 1 := by
  rw [slot, if_pos ⟨hcurrent, fun h => absurd h hphase⟩]

theorem slot_of_ne {q : Nat} (hcurrent : k.current = some p) (hne : q ≠ p) : k.slot q = 0 := by
  rw [slot, if_neg fun h => hne (Option.some.inj (hcurrent.symm.trans h.1)).symm]

/-- The task that executes is in no queue. -/
theorem Scheduled.executing (hk : Scheduled k) (hrunning : k.phase = .running)
    (hcurrent : k.current = some p) :
    k.manager.count p = 0 ∧ k.alive p = true ∧ p < k.next_pid := by
  have honce := hk.once p
  rw [slot_of_current hcurrent (by rw [hrunning]; decide)] at honce
  have halive : k.alive p = true := by
    by_contra hnot
    rw [if_neg hnot] at honce
    omega
  rw [if_pos halive] at honce
  refine ⟨by omega, halive, ?_⟩
  by_contra hle
  rw [Kernel.alive, hk.fresh p (Nat.not_lt.mp hle)] at halive
  cases halive

/-- The current task leaves the slot: it has entered a queue, or it is no longer alive. -/
theorem Scheduled.leave (hk : Scheduled k) (hrunning : k.phase = .running)
    (hcurrent : k.current = some p) {s : Option TaskStatus}
    (hcount : ∀ q, k'.manager.count q = k.manager.count q +
      if q = p ∧ s.any (· ≠ .Zombie) then 1 else 0)
    (hstatus : ∀ q, k'.status q = if q = p then s else k.status q)
    (hnone : ∀ q, k'.slot q = 0) (hpid : k'.next_pid = k.next_pid)
    (hphase : k'.phase ≠ .idle) : Scheduled k' where
  once q := by
    rw [hnone q, hcount q, Kernel.alive, hstatus q]
    rcases eq_or_ne q p with rfl | hne
    · rw [if_pos rfl, (hk.executing hrunning hcurrent).1]
      simp only [true_and, Nat.zero_add, Nat.add_zero]
    · have honce := hk.once q
      rw [slot_of_ne hcurrent hne] at honce
      rw [if_neg hne, if_neg fun h => hne h.1]
      exact honce
  fresh q hq := by
    rw [hpid] at hq
    have hlt := (hk.executing hrunning hcurrent).2.2
    rw [hstatus q, if_neg (by omega)]
    exact hk.fresh q hq
  idle h := absurd h hphase

theorem cancel_thread_steady (k : Kernel) (p : Nat) (t : TaskControlBlock) :
    Meets (k.cancel_thread p t) (fun _ => True) (Steady k) := by
  unfold cancel_thread
  split
  · trivial
  · rename_i q hq
    split
    · trivial
    · split
      · dsimp only
        have hmodify := Steady.modify k q
          (f := fun t => { t with children := t.children.erase p }) fun _ => rfl
        split
        · exact hmodify.trans ⟨fun _ => rfl, fun _ => rfl, rfl, rfl, rfl⟩
        · trivial
      · trivial

theorem reparent_steady (cs : List Nat) (k : Kernel) : Steady k (cs.foldl reparent k) := by
  induction cs generalizing k with
  | nil => exact Steady.refl k
  | cons c cs ih =>
    refine Steady.trans ?_ (ih (k.reparent c))
    unfold reparent
    refine Steady.trans ?_ (Steady.modify _ INITPROC fun _ => rfl)
    exact Steady.modify k c fun _ => rfl

theorem wake_clear_child_tid_steady (k : Kernel) (t : TaskControlBlock) :
    Meets (k.wake_clear_child_tid t) (fun _ => True) (Steady k) := by
  unfold wake_clear_child_tid
  split
  · exact Steady.refl k
  · have h := futex_wake_steady k t.clear_child_tid 1
    cases hwake : k.futex_wake t.clear_child_tid 1 with
    | error e => trivial
    | ok r => exact h.of_ok hwake

theorem Scheduled.exit (hk : Scheduled k) (hrunning : k.phase = .running) (exit_code : Int) :
    Meets (k.exit_current_and_run_next exit_code) (fun _ => True) Scheduled := by
  unfold exit_current_and_run_next
  split
  · trivial
  · rename_i p hcurrent
    refine (k.task_meets p).bind fun t ht => ?_
    split
    · trivial
    · refine (wake_clear_child_tid_steady _ t).bind fun k₁ h₁ => ?_
      -- the zombie, with its children at initproc
      have hzombie (k₂ : Kernel) (h₂ : Steady (k₁.modify p fun t =>
          { t with task_status := .Zombie, exit_code := exit_code }) k₂) :
          Scheduled { k₂ with phase := .switched } := by
        have ht₁ : (k₁.tasks p).isSome := by
          have hp := h₁.status p
          rw [Kernel.status, Kernel.status, ht] at hp
          cases h : k₁.tasks p with
          | none =>
            rw [h] at hp
            cases hp
          | some t₁ => rfl
        obtain ⟨t₁, ht₁⟩ := Option.isSome_iff_exists.mp ht₁
        have hnone : k₂.current = none := by
          rw [h₂.current]
          exact h₁.current
        refine hk.leave hrunning hcurrent (s := some .Zombie) (fun q => ?_) (fun q => ?_)
          (fun q => ?_) ?_ ?_
        · rw [if_neg (by simp)]
          exact (h₂.count q).trans (h₁.count q)
        · refine (h₂.status q).trans ?_
          rw [status_modify_of ht₁]
          split
          · rfl
          · exact h₁.status q
        · rw [slot, if_neg]
          rintro ⟨hq, _⟩
          cases hnone.symm.trans hq
        · exact h₂.next_pid.trans h₁.next_pid
        · exact fun h => by cases h
      split
      · trivial
      · split
        · trivial
        · have hreparent := reparent_steady t.children (k₁.modify p fun t =>
            { t with task_status := .Zombie, exit_code := exit_code })
          dsimp only
          split
          · refine (cancel_thread_steady _ p t).bind fun k₂ h₂ => ?_
            exact hzombie k₂ (hreparent.trans h₂)
          · generalize hk₂ : t.children.foldl reparent _ = k₂ at hreparent
            have hfreed := Freed.drop k₂.next_pid k₂ p
            have hsame := hfreed.same
            refine (hzombie k₂ hreparent).freed ⟨?_, hfreed.tasks⟩
            rw [hsame]

/-- What handling the signals leaves; an exit switches away. -/
theorem Scheduled.handle_signals (sigactions : Nat → SigAction) (p : Nat) (fuel : Nat) :
    ∀ {k : Kernel}, Scheduled k → k.phase = .running →
      Meets (Kernel.handle_signals sigactions p fuel k) (fun _ => True) fun r =>
        if r.1 then Scheduled r.2 else Steady k r.2 := by
  induction fuel with
  | zero => exact fun _ _ => Steady.refl _
  | succ fuel ih =>
    intro k hk hrunning
    unfold Kernel.handle_signals
    refine (k.task_meets p).bind fun t _ => ?_
    split
    · exact Steady.refl k
    · rename_i signum _
      have hsub := Steady.modify k p
        (f := fun t => { t with pending_signals := t.pending_signals.sub signum }) fun _ => rfl
      have hrunning' := hsub.phase.trans hrunning
      dsimp only
      split
      · refine (ih (hk.steady hsub) hrunning').mono fun r hr => ?_
        split
        · rename_i hexit
          rwa [if_pos hexit] at hr
        · rename_i hexit
          rw [if_neg hexit] at hr
          exact hsub.trans hr
      · split
        · split
          · exact ((hk.steady hsub).exit hrunning' _).bind fun k' hk' => hk'
          · exact hsub
        · exact hsub.trans (Steady.modify _ p fun _ => rfl)

theorem Scheduled.exec_signal_handlers (hk : Scheduled k) (hrunning : k.phase = .running)
    (sigactions : Nat → SigAction) :
    Meets (k.exec_signal_handlers sigactions) (fun _ => True) fun r =>
      if r.1 then Scheduled r.2 else Steady k r.2 := by
  unfold Kernel.exec_signal_handlers
  split
  · trivial
  · exact hk.handle_signals sigactions _ _ hrunning

/-- The current task becomes ready, and keeps the slot until it is put away. -/
theorem Scheduled.yield (hk : Scheduled k) (hrunning : k.phase = .running)
    (hcurrent : k.current = some p) :
    Scheduled { k.modify p fun t => { t with task_status := .Ready } with phase := .switched } := by
  obtain ⟨hcount, halive, hlt⟩ := hk.executing hrunning hcurrent
  obtain ⟨t, ht⟩ := exists_task_of_alive halive
  have hstatus (q : Nat) := status_modify_of (f := fun t => { t with task_status := .Ready }) ht q
  have halive' (q : Nat) := alive_modify
    (f := fun t => { t with task_status := .Ready }) ht (fun h => by cases h) q
  generalize hk' : (k.modify p fun t => { t with task_status := .Ready }) = k' at hstatus halive'
  have hsame : k' = { k with tasks := k'.tasks } := by
    rw [← hk']
    rfl
  have hcurrent' : k'.current = some p := by
    rw [hsame]
    exact hcurrent
  refine ⟨fun q => ?_, fun q hq => ?_, fun h => by cases h⟩
  · have honce := hk.once q
    have hmanager : k'.manager.count q = k.manager.count q := by rw [hsame]
    show k'.manager.count q + _ = if k'.alive q then 1 else 0
    rw [hmanager, halive' q]
    rcases eq_or_ne q p with rfl | hne
    · have hready : k'.status q = some .Ready := by
        rw [hstatus q, if_pos rfl]
      rw [slot, if_pos ⟨hcurrent', fun _ => hready⟩, hcount, if_pos rfl]
      rfl
    · have hslot : slot { k' with phase := .switched } q = 0 :=
        slot_of_ne (k := { k' with phase := .switched }) hcurrent' hne
      rw [slot_of_ne hcurrent hne] at honce
      rw [hslot, if_neg hne]
      exact honce
  · have hpid : k'.next_pid = k.next_pid := by rw [hsame]
    have hle : k'.next_pid ≤ q := hq
    refine (hstatus q).trans ?_
    rw [if_neg (by omega)]
    exact hk.fresh q (by omega)

theorem Scheduled.suspend (hk : Scheduled k) (hrunning : k.phase = .running)
    (sigactions : Nat → SigAction) :
    Meets (k.suspend_current_and_run_next sigactions) (fun _ => True) Scheduled := by
  unfold suspend_current_and_run_next
  refine (hk.exec_signal_handlers hrunning sigactions).bind ?_
  rintro ⟨exited, k'⟩ hr
  cases exited with
  | true => exact hr
  | false =>
    have hr : Steady k k' := hr
    dsimp only
    rw [if_neg Bool.false_ne_true]
    cases hcurrent : k'.current with
    | none => trivial
    | some p =>
      exact (hk.steady hr).yield (hr.phase.trans hrunning) hcurrent

theorem Scheduled.hang (hk : Scheduled k) (hrunning : k.phase = .running)
    (hcurrent : k.current = some p) (ht : k.tasks p = some t) (sleep_time duration : Nat) :
    Scheduled (k.hang p sleep_time duration) := by
  refine hk.leave hrunning hcurrent (s := some .Hanging) (fun q => ?_) (fun q => ?_) (fun q => ?_)
    rfl (fun h => by cases h)
  · refine (TaskManager.count_hang _ _ _ _ _).trans ?_
    simp only [and_true, Option.any_some, decide_not, reduceCtorEq, decide_false, Bool.not_false]
  · exact status_modify_of ht q
  · rw [slot, if_neg]
    rintro ⟨h, _⟩
    cases h

theorem Scheduled.futex_wait (hk : Scheduled k) (hrunning : k.phase = .running)
    (hcurrent : k.current = some p) (ht : k.tasks p = some t)
    (uaddr val timeout word now : Nat) :
    Scheduled (k.futex_wait p uaddr val timeout word now) := by
  unfold Kernel.futex_wait
  dsimp only
  split
  · exact hk.steady ⟨fun _ => rfl, fun _ => rfl, rfl, rfl, rfl⟩
  · have hstatus (q : Nat) := status_modify_of (f := fun t => { t with
      task_status := .Blocking, resume := .futex_wait (min (now + timeout) (2 ^ 64 - 1)) }) ht q
    refine hk.leave hrunning hcurrent (s := some .Blocking) (fun q => ?_) hstatus (fun q => ?_)
      rfl (fun h => by cases h)
    · refine (TaskManager.count_block _ _ _).trans ?_
      simp only [and_true, Option.any_some, decide_not, reduceCtorEq, decide_false, Bool.not_false]
      rfl
    · rw [slot, if_neg]
      rintro ⟨h, hready⟩
      have hp : q = p := (Option.some.inj (hcurrent.symm.trans h)).symm
      have hblocking := (hstatus q).symm.trans (hready rfl)
      rw [if_pos hp] at hblocking
      cases hblocking

theorem Scheduled.sys_futex (hk : Scheduled k) (hrunning : k.phase = .running)
    (hcurrent : k.current = some p) (ht : k.tasks p = some t)
    (uaddr futex_op val val2 uaddr2 timeout word now : Nat) :
    Meets (k.sys_futex p uaddr futex_op val val2 uaddr2 timeout word now) (fun _ => True)
      Scheduled := by
  have hsnd {x : Except TaskPanic (Nat × Kernel)} (hx : Meets x (fun _ => True) fun r =>
      Steady k r.2) : Meets (Prod.snd <$> x) (fun _ => True) Scheduled := by
    cases x with
    | error e => trivial
    | ok r => exact hk.steady hx
  unfold Kernel.sys_futex
  dsimp only
  split
  · exact hk
  · split
    · exact hk.futex_wait hrunning hcurrent ht _ _ _ _ _
    · split
      · exact hsnd (futex_wake_steady k _ _)
      · split
        · exact hsnd (futex_requeue_steady k _ _ _ _)
        · trivial

theorem Scheduled.wait4_loop (hk : Scheduled k) (hrunning : k.phase = .running)
    (p : Nat) (t : TaskControlBlock) (pid : Int) (sigactions : Nat → SigAction) :
    Meets (k.wait4_loop p t pid sigactions) (fun _ => True) Scheduled := by
  unfold Kernel.wait4_loop
  split
  · rename_i c _
    dsimp only
    split
    · refine (hk.steady ?_).freed (Freed.drop _ _ _)
      exact Steady.modify k p fun _ => rfl
    · trivial
  · have hresume := Steady.modify k p (f := fun t => { t with resume := .wait4 pid }) fun _ => rfl
    exact (hk.steady hresume).suspend (hresume.phase.trans hrunning) sigactions

theorem Scheduled.resume (hk : Scheduled k) (sigactions : Nat → SigAction) :
    Meets (k.resume sigactions) (fun _ => True) Scheduled := by
  unfold Kernel.resume
  split
  · rename_i p hrunning hcurrent
    refine (k.task_meets p).bind fun t _ => ?_
    split
    · trivial
    · exact hk.wait4_loop hrunning p t _ sigactions
    · exact hk.steady (Steady.modify k p fun _ => rfl)
  · trivial

/-- A new task, ready to run. -/
theorem Scheduled.spawn (hk : Scheduled k) (hrunning : k.phase = .running)
    {child : TaskControlBlock} (hready : child.task_status = .Ready) (hp : k.next_pid = p)
    (next_memory_set : Nat) : Scheduled ({ k with
      tasks := Function.update k.tasks p (some child)
      next_pid := p + 1
      next_memory_set := next_memory_set }.add_task p) := by
  have hstatus (q : Nat) : Kernel.status ({ k with
      tasks := Function.update k.tasks p (some child)
      next_pid := p + 1
      next_memory_set := next_memory_set }.add_task p) q =
        if q = p then some .Ready else k.status q := by
    show ((Function.update k.tasks p (some child)) q).map _ = _
    rcases eq_or_ne q p with rfl | hne
    · rw [Function.update_self, if_pos rfl, Option.map_some, hready]
    · rw [Function.update_of_ne hne, if_neg hne]
      rfl
  have hfresh := hk.fresh p (le_of_eq hp)
  refine ⟨fun q => ?_, fun q hq => ?_, fun h => ?_⟩
  · have honce := hk.once q
    rw [Kernel.alive, hstatus q]
    show (k.manager.add p).count q + slot _ q = _
    rw [TaskManager.count_add]
    have hslot : slot ({ k with
        tasks := Function.update k.tasks p (some child)
        next_pid := p + 1
        next_memory_set := next_memory_set }.add_task p) q = k.slot q := by
      simp only [slot, hrunning, add_task, reduceCtorEq, false_implies]
    rw [hslot]
    rcases eq_or_ne q p with rfl | hne
    · rw [Kernel.alive, hfresh] at honce
      simp only [Option.any_none, Bool.false_eq_true, if_false] at honce
      simp
      omega
    · rw [if_neg hne, if_neg hne]
      exact honce
  · have hle : p + 1 ≤ q := hq
    rw [hstatus q, if_neg (by omega)]
    exact hk.fresh q (by omega)
  · have hphase : k.phase = .idle := h
    rw [hrunning] at hphase
    cases hphase

theorem Scheduled.sys_do_fork (hk : Scheduled k) (hrunning : k.phase = .running)
    (hcurrent : k.current = some p) (t : TaskControlBlock) (flags ctid : Nat) :
    Meets (k.sys_do_fork p t flags ctid) (fun _ => True) Scheduled := by
  unfold Kernel.sys_do_fork
  split
  · trivial
  · dsimp only
    obtain ⟨hcount, halive, hlt⟩ := hk.executing hrunning hcurrent
    have hchild := Steady.modify k p
      (f := fun t => { t with children := t.children ++ [k.next_pid] }) fun _ => rfl
    exact (hk.steady hchild).spawn (hchild.phase.trans hrunning) rfl (hchild.next_pid) _

theorem Scheduled.take_last (hk : Scheduled k) (hswitched : k.phase = .switched) :
    Scheduled k.take_last ∧ k.take_last.current = none := by
  unfold Kernel.take_last
  split
  · exact ⟨hk, ‹_›⟩
  · rename_i p hcurrent
    split
    · rename_i hready
      refine ⟨⟨fun q => ?_, hk.fresh, fun _ => rfl⟩, rfl⟩
      have honce := hk.once q
      rw [slot_of_none rfl q]
      show (k.manager.add p).count q + 0 = if k.alive q then 1 else 0
      rw [TaskManager.count_add, ← honce]
      rcases eq_or_ne q p with rfl | hne
      · rw [if_pos rfl, slot, if_pos ⟨hcurrent, fun _ => hready⟩]
      · rw [if_neg hne, slot_of_ne hcurrent hne]
    · rename_i hready
      refine ⟨⟨fun q => ?_, hk.fresh, fun _ => rfl⟩, rfl⟩
      have honce := hk.once q
      rw [slot_of_none rfl q]
      show k.manager.count q + 0 = if k.alive q then 1 else 0
      rw [← honce]
      rcases eq_or_ne q p with rfl | hne
      · rw [slot, if_neg fun h => hready (h.2 hswitched)]
      · rw [slot_of_ne hcurrent hne]

theorem Scheduled.put_away (hk : Scheduled k) :
    Meets k.put_away (fun _ => True) Scheduled := by
  unfold Kernel.put_away
  split
  · rename_i hswitched
    obtain ⟨hlast, hnone⟩ := hk.take_last hswitched
    have hsteady : Steady k.take_last { k.take_last with cleaner := [] } :=
      ⟨fun _ => rfl, fun _ => rfl, rfl, rfl, rfl⟩
    have hfreed := Freed.foldl_drop k.take_last.next_pid k.take_last.cleaner
      { k.take_last with cleaner := [] }
    exact ((hlast.steady hsteady).freed hfreed).set_phase (hfreed.current.trans hnone) _
  · trivial
  · trivial

theorem Scheduled.run_task {manager : TaskManager} (hk : Scheduled k) (hcurrent : k.current = none)
    (hcount : ∀ q, k.manager.count q = manager.count q + if q = p then 1 else 0) :
    Scheduled ({ k with manager := manager }.run_task p) := by
  have halive : k.alive p = true := by
    by_contra hnot
    have honce := hk.once p
    rw [if_neg hnot, hcount p, if_pos rfl] at honce
    omega
  obtain ⟨t, ht⟩ := exists_task_of_alive halive
  have hstatus (q : Nat) := status_modify_of (f := fun t => { t with task_status := .Running }) ht q
  have halive' (q : Nat) := alive_modify
    (f := fun t => { t with task_status := .Running }) ht (fun h => by cases h) q
  refine ⟨fun q => ?_, fun q hq => ?_, fun h => by cases h⟩
  · have honce := hk.once q
    rw [slot_of_none hcurrent q, hcount q] at honce
    refine Eq.trans ?_ (congrArg (fun b : Bool => if b then 1 else 0) (halive' q)).symm
    show manager.count q + _ = _
    rcases eq_or_ne q p with rfl | hne
    · rw [slot_of_current rfl (fun h => by cases h), if_pos rfl]
      rw [halive, if_pos rfl] at honce
      exact honce
    · rw [slot_of_ne rfl hne, if_neg hne]
      rw [if_neg hne] at honce
      exact honce
  · have hlt : p < k.next_pid := by
      by_contra hle
      have hfresh := hk.fresh p (Nat.not_lt.mp hle)
      rw [Kernel.alive, hfresh] at halive
      cases halive
    have hle : k.next_pid ≤ q := hq
    refine (hstatus q).trans ?_
    rw [if_neg (by omega)]
    exact hk.fresh q hle

theorem Scheduled.dispatch (hk : Scheduled k) (now pick : Nat) :
    Meets (k.dispatch now pick) (fun _ => True) Scheduled := by
  unfold Kernel.dispatch
  split
  · rename_i hidle
    have hcurrent := hk.idle hidle
    split
    · rename_i p manager hcheck
      exact hk.run_task hcurrent (TaskManager.count_check_hanging hcheck)
    · split
      · rename_i p k' hcheck
        have hsteady : Steady k k' := by
          unfold check_futex_interupt_or_expire at hcheck
          split at hcheck
          · cases hcheck
            exact Steady.refl k
          · obtain ⟨r, _, heq⟩ := Option.map_eq_some_iff.mp hcheck
            cases heq
            exact ⟨fun _ => rfl, fun _ => rfl, rfl, rfl, rfl⟩
        have hk' := hk.steady hsteady
        have hunblock : Steady k' { k' with manager := k'.manager.unblock_task p } :=
          ⟨TaskManager.count_unblock_task _ _, fun _ => rfl, rfl, rfl, rfl⟩
        exact (hk'.steady hunblock).set_phase (hsteady.current.trans hcurrent) _
      · split
        · rename_i p manager hfetch
          exact hk.run_task hcurrent (TaskManager.count_fetch hfetch)
        · exact hk.set_phase hcurrent _
  · trivial
  · trivial

theorem Scheduled.step (hk : Scheduled k) (op : KernelOp) :
    Meets (k.step op) (fun _ => True) Scheduled := by
  cases op with
  | suspend sigactions =>
    exact k.user_meets.bind fun r hr => hk.suspend hr.1 sigactions
  | exec_signal_handlers sigactions =>
    refine k.user_meets.bind fun r hr => ?_
    have h := hk.exec_signal_handlers hr.1 sigactions
    cases hx : k.exec_signal_handlers sigactions with
    | error e => trivial
    | ok s =>
      have hs := h.of_ok hx
      split at hs
      · exact hs
      · exact hk.steady hs
  | sys_exit exit_code => exact k.user_meets.bind fun r hr => hk.exit hr.1 exit_code
  | sys_do_fork flags ctid =>
    exact k.user_meets.bind fun r hr => hk.sys_do_fork hr.1 hr.2.1 r.2 flags ctid
  | sys_exec =>
    refine k.user_meets.bind fun r _ => ?_
    show Meets (k.sys_exec r.1 r.2) _ _
    unfold Kernel.sys_exec
    split
    · exact hk
    · trivial
  | sys_wait4 pid sigactions =>
    refine k.user_meets.bind fun r hr => ?_
    show Meets (k.sys_wait4 r.1 r.2 pid sigactions) _ _
    unfold Kernel.sys_wait4
    split
    · exact hk
    · split
      · exact hk
      · exact hk.wait4_loop hr.1 r.1 r.2 pid sigactions
  | resume sigactions => exact hk.resume sigactions
  | sys_kill pid signal =>
    refine k.user_meets.bind fun r _ => ?_
    show Scheduled (k.sys_kill pid signal)
    unfold Kernel.sys_kill
    dsimp only
    split
    · exact hk
    · exact hk.steady (Steady.modify k pid fun _ => rfl)
  | add_signal signal =>
    exact k.user_meets.bind fun r _ => hk.steady (Steady.modify k r.1 fun _ => rfl)
  | set_sigmask sigmask =>
    exact k.user_meets.bind fun r _ => hk.steady (Steady.modify k r.1 fun _ => rfl)
  | sys_set_tid_address tidptr =>
    exact k.user_meets.bind fun r _ => hk.steady (Steady.modify k r.1 fun _ => rfl)
  | hang sleep_time duration =>
    exact k.user_meets.bind fun r hr => hk.hang hr.1 hr.2.1 hr.2.2 sleep_time duration
  | sys_futex uaddr futex_op val val2 uaddr2 timeout word now =>
    exact k.user_meets.bind fun r hr => hk.sys_futex hr.1 hr.2.1 hr.2.2 _ _ _ _ _ _ _ _
  | put_away => exact hk.put_away
  | dispatch now pick => exact hk.dispatch now pick

end Switches

theorem boot_scheduled : Scheduled boot := by
  refine ⟨fun p => ?_, fun p hp => ?_, fun h => by cases h⟩
  · rcases eq_or_ne p INITPROC with rfl | hne
    · decide
    · have hcount : boot.manager.count p = 0 := by
        simp [boot, TaskManager.count, TaskManager.add, TaskManager.new, hne.symm]
      have hstatus : boot.status p = none := by
        simp [boot, status, Function.update_of_ne hne]
      have hslot : boot.slot p = 0 := if_neg fun h => by cases h.1
      rw [hcount, hslot, alive, hstatus]
      rfl
  · have hne : p ≠ INITPROC := by
      rintro rfl
      cases hp
    simp [boot, status, Function.update_of_ne hne]

theorem Scheduled.conserved {k : Kernel} (hk : Scheduled k) (hphase : k.phase ≠ .switched) :
    k.Conserved := by
  intro p
  have honce := hk.once p
  have hslot : k.slot p = if k.current = some p then 1 else 0 := by
    simp only [slot, hphase, false_implies, and_true]
  rw [hslot] at honce
  exact honce

theorem scheduled_states (ops : List KernelOp) : ∀ k ∈ states step boot ops, Scheduled k := by
  refine invariant (C := fun _ _ => True) Scheduled ?_ boot_scheduled ?_
  · exact fun k op k' hk _ hstep => (hk.step op).of_ok hstep
  · exact guarded_of_states (P := fun _ => True) (fun _ _ _ _ => trivial) fun _ _ => trivial

/-- Whenever a task executes, and whenever the last one has been put away. -/
theorem scheduler_conserves (ops : List KernelOp) : ∀ k ∈ states step boot ops,
    k.phase ≠ .switched → k.Conserved :=
  fun k hk hphase => (scheduled_states ops k hk).conserved hphase

/-- Initproc forks and waits for its child, which sleeps. -/
theorem scheduler_conserves_sleep : ∃ k, run step boot [.put_away, .dispatch 0 0,
    .sys_do_fork 17 0, .sys_wait4 (-1) fun _ => ⟨0, false, 0⟩, .put_away, .dispatch 0 0,
    .hang 0 10, .put_away] = .ok k ∧ k.phase = .idle ∧ k.Conserved := by
  obtain ⟨k, hk, hphase⟩ : ∃ k, run step boot [.put_away, .dispatch 0 0,
      .sys_do_fork 17 0, .sys_wait4 (-1) fun _ => ⟨0, false, 0⟩, .put_away, .dispatch 0 0,
      .hang 0 10, .put_away] = .ok k ∧ k.phase = .idle := Meets.exists_ok (by decide +kernel)
  refine ⟨k, hk, hphase, scheduler_conserves _ k (mem_states_of_run hk) ?_⟩
  rw [hphase]
  decide

end MyGOS.Task
