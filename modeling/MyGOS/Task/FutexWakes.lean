import MyGOS.Task.FutexWaiting
import MyGOS.Task.ProcessTree

/-!
# What a futex wake does

A wake makes as many tasks ready as it returns, unless a signal has ended a
wait before. The queues are found by the virtual address alone, so the tasks of
another address space are woken with those of the caller's.
-/

namespace MyGOS.Task

open Outcome StepSystem

namespace TaskManager

variable {m : TaskManager} {ps : List Nat} {p q : Nat}

theorem unblock_of_ne (hne : p ≠ q) : (m.unblock_task q).waiting_queue.count p =
    m.waiting_queue.count p ∧ (m.unblock_task q).ready_queue.count p = m.ready_queue.count p := by
  unfold unblock_task
  split
  · constructor
    · exact List.count_erase_of_ne hne
    · show (m.ready_queue ++ [q]).count p = _
      rw [List.count_append, List.count_singleton, if_neg (by simpa using hne.symm)]
      rfl
  · exact ⟨rfl, rfl⟩

theorem unblock_all_of_not_mem (hp : p ∉ ps) : (m.unblock_all ps).waiting_queue.count p =
    m.waiting_queue.count p ∧ (m.unblock_all ps).ready_queue.count p = m.ready_queue.count p := by
  induction ps generalizing m with
  | nil => exact ⟨rfl, rfl⟩
  | cons q ps ih =>
    obtain ⟨hne, hp⟩ := List.ne_and_not_mem_of_not_mem_cons hp
    obtain ⟨hwaiting, hready⟩ := ih (m := m.unblock_task q) hp
    obtain ⟨hwaiting', hready'⟩ := unblock_of_ne (m := m) hne
    exact ⟨hwaiting.trans hwaiting', hready.trans hready'⟩

end TaskManager

namespace Kernel

/-- So many tasks that were blocked on the address have become ready, and no other. -/
def Readied (k : Kernel) (uaddr n : Nat) (k' : Kernel) : Prop :=
  ∃ ps : List Nat, ps.length = n ∧ ps.Nodup ∧
    (∀ p ∈ ps, k.blocked p ∧ p ∈ (k.futexes.queue uaddr).chain.map FutexWaiter.task) ∧
    k'.manager.ready_queue = k.manager.ready_queue ++ ps ∧
    ∀ p, k'.manager.waiting_queue.count p + ps.count p = k.manager.waiting_queue.count p

/-- A task of another address space. -/
def foreign (k : Kernel) (t : TaskControlBlock) (p : Nat) : Prop :=
  ∃ t', k.tasks p = some t' ∧ t'.memory_set ≠ t.memory_set

/-- The task waits where it has waited, and is as ready as before. -/
structure Undisturbed (k k' : Kernel) (p : Nat) : Prop where
  queues : ∀ a, (k'.futexes.queue a).count p = (k.futexes.queue a).count p
  waiting : k'.manager.waiting_queue.count p = k.manager.waiting_queue.count p
  ready : k'.manager.ready_queue.count p = k.manager.ready_queue.count p

theorem count_queue_le (m : FutexMap) (uaddr p : Nat) : (m.queue uaddr).count p ≤ m.count p := by
  unfold FutexMap.queue
  cases hq : m.lookup uaddr with
  | none => exact Nat.zero_le _
  | some q =>
    show q.count p ≤ MapTotal.total (·.count p) m
    exact MapTotal.le_total (f := (·.count p)) hq

theorem count_to_wake_le (k : Kernel) (uaddr nr_wake p : Nat) :
    (k.to_wake uaddr nr_wake).count p ≤ (k.futexes.queue uaddr).count p :=
  ((List.take_sublist _ _).map FutexWaiter.task).count_le p

end Kernel

open Kernel

section Wakes

variable {exact : Prop} {k k' : Kernel} {t : TaskControlBlock}

theorem Waiting.chain_blocked (h : Waiting True k) (uaddr : Nat) :
    ∀ w ∈ (k.futexes.queue uaddr).chain, k.blocked w.task := by
  intro w hw
  apply h.blocked
  apply List.count_pos_iff.mp
  rw [← h.balanced trivial]
  have hpos : 0 < (k.futexes.queue uaddr).count w.task :=
    List.count_pos_iff.mpr (List.mem_map_of_mem hw)
  exact Nat.lt_of_lt_of_le hpos (count_queue_le _ _ _)

theorem Waiting.count_le_one (hk : Scheduled k) (h : Waiting True k) (p : Nat) :
    k.futexes.count p ≤ 1 := by
  have honce := hk.once p
  unfold TaskManager.count at honce
  rw [h.balanced trivial]
  split at honce <;> omega

theorem Waiting.readied (hk : Scheduled k) (h : Waiting True k) (uaddr nr_wake : Nat) :
    Meets (k.futex_wake uaddr nr_wake) (fun _ => False) fun r => k.Readied uaddr r.1 r.2 := by
  apply (futex_wake_meets h.counted uaddr nr_wake).mono
  rintro ⟨n, k'⟩ ⟨hn, hw⟩
  have hcount (p : Nat) := (count_to_wake_le k uaddr nr_wake p).trans
    (count_queue_le k.futexes uaddr p)
  obtain ⟨hready, hwaiting⟩ := @TaskManager.unblock_all_waiting
    (k.to_wake uaddr nr_wake) k.manager fun p => by
      rw [← h.balanced trivial p]
      exact hcount p
  have hmanager : k'.manager = k.manager.unblock_all (k.to_wake uaddr nr_wake) := by
    have hsame : k' = { k with
        futexes := k'.futexes, manager := k.manager.unblock_all (k.to_wake uaddr nr_wake) } := hw.same
    rw [hsame]
  refine ⟨k.to_wake uaddr nr_wake, hn.symm, ?_, fun p hp => ?_, ?_, ?_⟩
  · exact List.nodup_iff_count_le_one.mpr fun p => (hcount p).trans (h.count_le_one hk p)
  · obtain ⟨w, hw, rfl⟩ := List.mem_map.mp hp
    have hmem := List.mem_of_mem_take hw
    exact ⟨h.chain_blocked uaddr w hmem, List.mem_map_of_mem hmem⟩
  · show k'.manager.ready_queue = _
    rw [hmanager]
    exact hready
  · show ∀ p, k'.manager.waiting_queue.count p + _ = _
    rw [hmanager]
    exact hwaiting

/-- While no wait is ended by a signal. -/
theorem no_lost_wakeup (ops : List KernelOp) (hops : Guarded step Uninterrupted boot ops) :
    ∀ k ∈ states step boot ops,
      (∀ uaddr, ∀ w ∈ (k.futexes.queue uaddr).chain, k.blocked w.task) ∧
      (∀ p, k.futexes.count p ≤ 1) ∧
      ∀ uaddr nr_wake, Meets (k.futex_wake uaddr nr_wake) (fun _ => False) fun r =>
        k.Readied uaddr r.1 r.2 := by
  intro k hk
  obtain ⟨hscheduled, hwaiting⟩ := @waiting_states True ops (fun _ => hops) k hk
  exact ⟨hwaiting.chain_blocked, hwaiting.count_le_one hscheduled, hwaiting.readied hscheduled⟩

/-- Initproc waits on a futex. -/
def wait_run : List KernelOp :=
  reschedule ++ [.sys_do_fork 0 0, .sys_futex 4096 0 0 0 0 0 0 0] ++ reschedule

theorem no_lost_wakeup_once : ∃ k, run step boot wait_run = .ok k ∧
    (k.futexes.queue 4096).chain = [⟨0, 2 ^ 64 - 1⟩] ∧ k.blocked 0 := by
  obtain ⟨k, hk, hchain⟩ : ∃ k, run step boot wait_run = .ok k ∧
      (k.futexes.queue 4096).chain = [⟨0, 2 ^ 64 - 1⟩] := Meets.exists_ok (by decide +kernel)
  refine ⟨k, hk, hchain, ?_⟩
  refine (no_lost_wakeup wait_run (by decide +kernel) k (mem_states_of_run hk)).1 4096
    ⟨0, 2 ^ 64 - 1⟩ ?_
  rw [hchain]
  exact List.mem_singleton_self _

/-- The wait is ended by a signal; the wake that comes after it finds the old waiter. -/
theorem interrupted_waiter_stays : ∃ k, run step boot (wait_run ++
      [.sys_kill 0 5, .suspend no_handlers, .put_away, .dispatch 0 0]) = .ok k ∧
    (∃ w ∈ (k.futexes.queue 4096).chain, ¬ k.blocked w.task) ∧
    ∃ k', k.futex_wake 4096 1 = .ok (1, k') ∧
      k'.manager.ready_queue = k.manager.ready_queue := by
  obtain ⟨k, hk, hchain, hwaiting, hwake⟩ : ∃ k, run step boot (wait_run ++
        [.sys_kill 0 5, .suspend no_handlers, .put_away, .dispatch 0 0]) = .ok k ∧
      (k.futexes.queue 4096).chain = [⟨0, 2 ^ 64 - 1⟩] ∧ k.manager.waiting_queue = [] ∧
      Meets (k.futex_wake 4096 1) (fun _ => False) fun r =>
        r.1 = 1 ∧ r.2.manager.ready_queue = k.manager.ready_queue :=
    Meets.exists_ok (by decide +kernel)
  refine ⟨k, hk, ⟨⟨0, 2 ^ 64 - 1⟩, ?_, ?_⟩, ?_⟩
  · rw [hchain]
    exact List.mem_singleton_self _
  · rintro ⟨hmem, _⟩
    rw [hwaiting] at hmem
    cases hmem
  · obtain ⟨⟨n, k'⟩, hwake, hn, hready⟩ := hwake.exists_ok
    cases hn
    exact ⟨k', hwake, hready⟩

theorem Kernel.Woken.undisturbed_iff {uaddr uaddr2 : Nat} {ps qs : List Nat} {p : Nat}
    (hw : k.Woken uaddr ps uaddr2 qs k') :
    k.Undisturbed k' p ↔ p ∉ ps ∧ (uaddr2 ≠ uaddr → p ∉ qs) := by
  have hmanager : k'.manager = k.manager.unblock_all ps := by
    rw [hw.same]
  constructor
  · intro h
    have hqueue := hw.queues uaddr p
    rw [if_pos rfl, h.queues uaddr] at hqueue
    refine ⟨fun hp => ?_, fun hne hq => ?_⟩
    · have hpos := List.count_pos_iff.mpr hp
      split at hqueue <;> omega
    · have hpos := List.count_pos_iff.mpr hq
      rw [if_neg hne.symm] at hqueue
      omega
  · rintro ⟨hp, hq⟩
    have hps := List.count_eq_zero_of_not_mem hp
    obtain ⟨hwaiting, hready⟩ := TaskManager.unblock_all_of_not_mem (m := k.manager) hp
    refine ⟨fun a => ?_, by rw [hmanager, hwaiting], by rw [hmanager, hready]⟩
    have hqueue := hw.queues a p
    rcases eq_or_ne uaddr2 uaddr with rfl | hne
    · split at hqueue <;> omega
    · have hqs := List.count_eq_zero_of_not_mem (hq hne)
      split at hqueue <;> split at hqueue <;> omega

end Wakes

end MyGOS.Task
