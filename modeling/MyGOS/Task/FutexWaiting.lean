import MyGOS.Task.Conservation

/-!
# The futex queues and the waiting queue

The counter of a futex queue is the length of its chain, and a blocked task is
inside `futex_wait`. As long as no signal interrupts a wait, the chains and the
waiting queue hold the same tasks; an interrupted task leaves the waiting queue,
but not its chain.
-/

namespace MyGOS.Task

open Outcome StepSystem

namespace FutexQueue

theorem pop_waiters_ok {n : Nat} : ∀ {q q' : FutexQueue} {ws : List FutexWaiter},
    pop_waiters n q = .ok (ws, q') → n ≤ q.chain.length := by
  induction n with
  | zero => exact fun _ => Nat.zero_le _
  | succ n ih =>
    intro q q' ws h
    unfold pop_waiters at h
    split at h
    · cases h
    · rename_i w chain hchain
      obtain ⟨⟨ws, q'⟩, hrest, _⟩ := bind_eq_ok.mp h
      rw [hchain]
      exact Nat.succ_le_succ (ih hrest)

theorem count_foldl_push_back (ws : List FutexWaiter) (q : FutexQueue) (p : Nat) :
    (ws.foldl push_back q).count p = q.count p + (ws.map FutexWaiter.task).count p := by
  induction ws generalizing q with
  | nil => rfl
  | cons w ws ih =>
    rw [List.foldl_cons, ih, count_push_back, List.map_cons, List.count_cons]
    rcases eq_or_ne p w.task with rfl | hne
    · simp
      omega
    · simp [hne, hne.symm]

theorem counted_foldl_push_back (ws : List FutexWaiter) {q : FutexQueue}
    (hq : q.waiters = q.chain.length) :
    (ws.foldl push_back q).waiters = (ws.foldl push_back q).chain.length := by
  induction ws generalizing q with
  | nil => exact hq
  | cons w ws ih =>
    apply ih
    simp only [push_back, List.length_append, List.length_singleton, hq]

end FutexQueue

namespace FutexMap

variable {m m' : FutexMap} {uaddr : Nat} {q q' : FutexQueue}

/-- Every counter is right. -/
def Counted (m : FutexMap) : Prop :=
  ∀ uaddr q, m.lookup uaddr = some q → q.waiters = q.chain.length

theorem Counted.queue (h : Counted m) (uaddr : Nat) :
    (m.queue uaddr).waiters = (m.queue uaddr).chain.length := by
  unfold FutexMap.queue
  cases hq : m.lookup uaddr with
  | none => rfl
  | some q => exact h uaddr q hq

theorem Counted.insert (h : Counted m) (hq : q.waiters = q.chain.length) :
    Counted (m.insert uaddr q) := by
  intro a r hr
  rcases eq_or_ne a uaddr with rfl | hne
  · rw [AList.lookup_insert] at hr
    rw [← Option.some.inj hr]
    exact hq
  · rw [AList.lookup_insert_ne hne] at hr
    exact h a r hr

theorem Counted.erase (h : Counted m) : Counted (m.erase uaddr) := by
  intro a r hr
  rcases eq_or_ne a uaddr with rfl | hne
  · rw [AList.lookup_erase] at hr
    cases hr
  · rw [AList.lookup_erase_ne hne] at hr
    exact h a r hr

theorem Counted.put (h : Counted m) (hq : q.waiters = q.chain.length) :
    Counted (m.put uaddr q) := by
  unfold FutexMap.put
  split
  · exact h.erase
  · exact h.insert hq

theorem queue_insert (m : FutexMap) (uaddr : Nat) (q : FutexQueue) (a : Nat) :
    FutexMap.queue (m.insert uaddr q) a = if a = uaddr then q else m.queue a := by
  unfold FutexMap.queue
  split
  · rename_i heq
    rw [heq, AList.lookup_insert]
    rfl
  · rename_i hne
    rw [AList.lookup_insert_ne hne]

theorem queue_put (hq : q.waiters = q.chain.length) (a : Nat) :
    ((m.put uaddr q).queue a).chain = if a = uaddr then q.chain else (m.queue a).chain := by
  unfold FutexMap.put
  split
  · rename_i hzero
    have hnil : q.chain = [] := List.length_eq_zero_iff.mp (hq.symm.trans hzero)
    unfold FutexMap.queue
    split
    · rename_i heq
      rw [heq, AList.lookup_erase, hnil]
      rfl
    · rename_i hne
      rw [AList.lookup_erase_ne hne]
  · rw [queue_insert]
    split <;> rfl

theorem count_empty (p : Nat) : FutexMap.count ∅ p = 0 := MapTotal.total_empty

/-- A task waits in the queue of the address or elsewhere. -/
theorem count_insert (m : FutexMap) (uaddr : Nat) (q : FutexQueue) (p : Nat) :
    FutexMap.count (m.insert uaddr q) p + (m.queue uaddr).count p = m.count p + q.count p := by
  unfold FutexMap.queue FutexMap.count
  cases hq : m.lookup uaddr with
  | none =>
    rw [MapTotal.total_insert_of_none hq]
    show q.count p + _ + 0 = _
    omega
  | some q' => exact MapTotal.total_insert_of_some hq

theorem count_put (m : FutexMap) (uaddr : Nat) (hq : q.waiters = q.chain.length) (p : Nat) :
    (m.put uaddr q).count p + (m.queue uaddr).count p = m.count p + q.count p := by
  unfold FutexMap.put
  split
  · rename_i hzero
    have hnil : q.count p = 0 := by
      rw [FutexQueue.count, List.length_eq_zero_iff.mp (hq.symm.trans hzero)]
      rfl
    rw [hnil]
    unfold FutexMap.queue FutexMap.count
    cases hq' : m.lookup uaddr with
    | none =>
      rw [MapTotal.total_erase_of_none hq']
      rfl
    | some q' =>
      rw [MapTotal.total_erase hq']
      exact Nat.add_comm _ _
  · exact count_insert m uaddr q p

theorem pop_expired_cases {now pick p : Nat} (h : m.pop_expired now pick = some (p, m')) :
    ∃ uaddr q q', m.lookup uaddr = some q ∧ q.pop_expire_waiter now = some (p, q') ∧
      m' = m.insert uaddr q' := by
  unfold FutexMap.pop_expired at h
  dsimp only at h
  split at h
  · cases h
  · rename_i e hpick
    have hmem : e ∈ m.entries := List.mem_of_mem_filter (List.mem_of_getElem? hpick)
    obtain ⟨⟨task, q'⟩, hpop, heq⟩ := Option.map_eq_some_iff.mp h
    cases heq
    exact ⟨e.1, e.2, q', AList.mem_lookup_iff.mpr hmem, hpop, rfl⟩

end FutexMap

namespace TaskManager

/-- The tasks of the waiters, in their order. -/
def unblock_all (m : TaskManager) (ps : List Nat) : TaskManager := ps.foldl unblock_task m

theorem mem_waiting_unblock {m : TaskManager} {p q : Nat}
    (h : q ∈ (m.unblock_task p).waiting_queue) : q ∈ m.waiting_queue := by
  unfold unblock_task at h
  split at h
  · exact List.mem_of_mem_erase h
  · exact h

theorem mem_waiting_unblock_all {ps : List Nat} {m : TaskManager} {q : Nat}
    (h : q ∈ (m.unblock_all ps).waiting_queue) : q ∈ m.waiting_queue := by
  induction ps generalizing m with
  | nil => exact h
  | cons p ps ih => exact mem_waiting_unblock (ih h)

theorem count_waiting_unblock {m : TaskManager} {p : Nat} (h : p ∈ m.waiting_queue) (q : Nat) :
    (m.unblock_task p).waiting_queue.count q + (if q = p then 1 else 0) =
      m.waiting_queue.count q := by
  rw [unblock_task, if_pos h, (List.perm_cons_erase h).count_eq q, List.count_cons]
  simp only [beq_iff_eq, eq_comm (a := p)]
  rfl

/-- Tasks that all wait become ready, each once. -/
theorem unblock_all_waiting {ps : List Nat} {m : TaskManager}
    (h : ∀ q, ps.count q ≤ m.waiting_queue.count q) :
    (m.unblock_all ps).ready_queue = m.ready_queue ++ ps ∧
      ∀ q, (m.unblock_all ps).waiting_queue.count q + ps.count q = m.waiting_queue.count q := by
  induction ps generalizing m with
  | nil => exact ⟨(List.append_nil _).symm, fun _ => rfl⟩
  | cons p ps ih =>
    have hp : p ∈ m.waiting_queue := by
      apply List.count_pos_iff.mp
      have := h p
      rw [List.count_cons_self] at this
      omega
    have hcount := count_waiting_unblock hp
    obtain ⟨hready, hwaiting⟩ := ih (m := m.unblock_task p) fun q => by
      have hle := h q
      rw [List.count_cons, ← hcount q] at hle
      simp only [beq_iff_eq, eq_comm (a := p)] at hle
      omega
    constructor
    · refine hready.trans ?_
      rw [unblock_task, if_pos hp]
      exact List.append_cons m.ready_queue p ps |>.symm
    · intro q
      rw [← hcount q, ← hwaiting q, List.count_cons]
      simp only [beq_iff_eq, eq_comm (a := p)]
      exact (Nat.add_assoc _ _ _).symm

end TaskManager

namespace Kernel

/-- The task waits, inside `futex_wait`. -/
def blocked (k : Kernel) (p : Nat) : Prop :=
  p ∈ k.manager.waiting_queue ∧ ∃ t timeout_time, k.tasks p = some t ∧
    t.task_status = .Blocking ∧ t.resume = .futex_wait timeout_time

theorem wake_up_eq (k : Kernel) (ws : List FutexWaiter) :
    k.wake_up ws = { k with manager := k.manager.unblock_all (ws.map FutexWaiter.task) } := by
  rw [wake_up, TaskManager.unblock_all, List.foldl_map]

/-- The tasks that a wake of `nr_wake` waiters takes from a queue. -/
def to_wake (k : Kernel) (uaddr nr_wake : Nat) : List Nat :=
  ((k.futexes.queue uaddr).chain.take
    (min nr_wake ((k.futexes.queue uaddr).waiters % 2 ^ 32))).map FutexWaiter.task

/-- The tasks that a requeue moves, after those it wakes. -/
def to_move (k : Kernel) (uaddr nr_wake nr_limit : Nat) : List Nat :=
  let n := min nr_wake ((k.futexes.queue uaddr).waiters % 2 ^ 32)
  (((k.futexes.queue uaddr).chain.drop n).take
    (min nr_limit (((k.futexes.queue uaddr).waiters - n) % 2 ^ 32))).map FutexWaiter.task

/-- The tasks `ps` are woken, out of the queue of an address, and the tasks `qs` are moved to
another queue. -/
structure Woken (k : Kernel) (uaddr : Nat) (ps : List Nat) (uaddr2 : Nat) (qs : List Nat)
    (k' : Kernel) : Prop where
  same : k' = { k with futexes := k'.futexes, manager := k.manager.unblock_all ps }
  counted : k'.futexes.Counted
  queues : ∀ a p, (k'.futexes.queue a).count p +
    (if a = uaddr then ps.count p + qs.count p else 0) =
      (k.futexes.queue a).count p + if a = uaddr2 then qs.count p else 0
  total : ∀ p, k'.futexes.count p + ps.count p = k.futexes.count p

section Wake

variable {k : Kernel}

theorem Woken.none (h : k.futexes.Counted) (uaddr uaddr2 : Nat) : k.Woken uaddr [] uaddr2 [] k where
  same := rfl
  counted := h
  queues a p := by
    simp only [List.count_nil, ite_self]
  total _ := rfl

theorem to_wake_nil (uaddr nr_wake : Nat) (hnil : (k.futexes.queue uaddr).chain = []) :
    k.to_wake uaddr nr_wake = [] := by
  rw [to_wake, hnil, List.take_nil, List.map_nil]

theorem to_move_nil (uaddr nr_wake nr_limit : Nat) (hnil : (k.futexes.queue uaddr).chain = []) :
    k.to_move uaddr nr_wake nr_limit = [] := by
  simp only [to_move, hnil, List.drop_nil, List.take_nil, List.map_nil]

/-- The first waiters leave their queue, which is put back. -/
theorem put_rest {uaddr : Nat} {fq : FutexQueue} {ws rest : List FutexWaiter}
    (h : k.futexes.Counted) (hqueue : k.futexes.queue uaddr = fq) (hchain : fq.chain = ws ++ rest) :
    let m := k.futexes.put uaddr ⟨fq.waiters - ws.length, rest⟩
    m.Counted ∧
      (∀ a p, (m.queue a).count p + (if a = uaddr then (ws.map FutexWaiter.task).count p else 0) =
        (k.futexes.queue a).count p) ∧
      ∀ p, m.count p + (ws.map FutexWaiter.task).count p = k.futexes.count p := by
  intro m
  have hsplit (p : Nat) : fq.count p = (ws.map FutexWaiter.task).count p +
      (rest.map FutexWaiter.task).count p := by
    rw [FutexQueue.count, hchain, List.map_append, List.count_append]
  have hcounted : fq.waiters - ws.length = rest.length := by
    rw [← hqueue, h.queue uaddr, hqueue, hchain, List.length_append]
    omega
  refine ⟨h.put hcounted, fun a p => ?_, fun p => ?_⟩
  · have hchain' := @FutexMap.queue_put k.futexes uaddr
      ⟨fq.waiters - ws.length, rest⟩ hcounted a
    rw [FutexQueue.count, hchain']
    split
    · rename_i heq
      rw [heq, hqueue, hsplit p]
      exact Nat.add_comm _ _
    · rfl
  · have hput := FutexMap.count_put k.futexes uaddr (q := ⟨fq.waiters - ws.length, rest⟩) hcounted p
    rw [hqueue, hsplit p] at hput
    have hrest : FutexQueue.count ⟨fq.waiters - ws.length, rest⟩ p =
      (rest.map FutexWaiter.task).count p := rfl
    change FutexMap.count m p + _ = _ at hput
    omega

theorem futex_wake_meets (h : k.futexes.Counted) (uaddr nr_wake : Nat) :
    Meets (k.futex_wake uaddr nr_wake) (fun _ => False) fun r =>
      r.1 = (k.to_wake uaddr nr_wake).length ∧
        k.Woken uaddr (k.to_wake uaddr nr_wake) uaddr [] r.2 := by
  have hq := h.queue uaddr
  have hempty (hnil : (k.futexes.queue uaddr).chain = []) :
      0 = (k.to_wake uaddr nr_wake).length ∧
        k.Woken uaddr (k.to_wake uaddr nr_wake) uaddr [] k := by
    rw [to_wake_nil uaddr nr_wake hnil]
    exact ⟨rfl, .none h uaddr uaddr⟩
  unfold futex_wake
  cases hlookup : k.futexes.lookup uaddr with
  | none => exact hempty (by rw [FutexMap.queue, hlookup]; rfl)
  | some fq =>
    have hqueue : k.futexes.queue uaddr = fq := by
      rw [FutexMap.queue, hlookup]
      rfl
    rw [hqueue] at hq
    dsimp only
    split
    · rename_i hzero
      apply hempty
      rw [hqueue]
      exact List.length_eq_zero_iff.mp (hq.symm.trans hzero)
    · have hwake : k.to_wake uaddr nr_wake =
          (fq.chain.take (min nr_wake (fq.waiters % 2 ^ 32))).map FutexWaiter.task := by
        rw [to_wake, hqueue]
      have hle : min nr_wake (fq.waiters % 2 ^ 32) ≤ fq.chain.length := by
        have := Nat.mod_le fq.waiters (2 ^ 32)
        omega
      rw [hwake]
      generalize min nr_wake (fq.waiters % 2 ^ 32) = n at hle
      rw [FutexQueue.pop_waiters_eq hle]
      have hlength : (fq.chain.take n).length = n := by
        rw [List.length_take, Nat.min_eq_left hle]
      have hput := put_rest h hqueue (List.take_append_drop n fq.chain).symm
      rw [hlength] at hput
      obtain ⟨hcounted, hqueues, htotal⟩ := hput
      refine ⟨by rw [List.length_map, hlength], ?_⟩
      dsimp only
      rw [wake_up_eq]
      refine ⟨rfl, hcounted, fun a p => ?_, htotal⟩
      simp only [List.count_nil, ite_self, Nat.add_zero]
      exact hqueues a p

theorem futex_requeue_meets (h : k.futexes.Counted) (uaddr nr_wake uaddr2 nr_limit : Nat) :
    Meets (k.futex_requeue uaddr nr_wake uaddr2 nr_limit) (fun _ => False) fun r =>
      r.1 = (k.to_wake uaddr nr_wake).length ∧
        k.Woken uaddr (k.to_wake uaddr nr_wake) uaddr2 (k.to_move uaddr nr_wake nr_limit) r.2 := by
  have hq := h.queue uaddr
  have hempty (hnil : (k.futexes.queue uaddr).chain = []) :
      0 = (k.to_wake uaddr nr_wake).length ∧ k.Woken uaddr (k.to_wake uaddr nr_wake) uaddr2
        (k.to_move uaddr nr_wake nr_limit) k := by
    rw [to_wake_nil uaddr nr_wake hnil, to_move_nil uaddr nr_wake nr_limit hnil]
    exact ⟨rfl, .none h uaddr uaddr2⟩
  unfold futex_requeue
  cases hlookup : k.futexes.lookup uaddr with
  | none => exact hempty (by rw [FutexMap.queue, hlookup]; rfl)
  | some fq =>
    have hqueue : k.futexes.queue uaddr = fq := by
      rw [FutexMap.queue, hlookup]
      rfl
    rw [hqueue] at hq
    dsimp only
    split
    · rename_i hzero
      apply hempty
      rw [hqueue]
      exact List.length_eq_zero_iff.mp (hq.symm.trans hzero)
    · have hwake : k.to_wake uaddr nr_wake =
          (fq.chain.take (min nr_wake (fq.waiters % 2 ^ 32))).map FutexWaiter.task := by
        rw [to_wake, hqueue]
      have hmove : k.to_move uaddr nr_wake nr_limit =
          ((fq.chain.drop (min nr_wake (fq.waiters % 2 ^ 32))).take (min nr_limit
            ((fq.waiters - min nr_wake (fq.waiters % 2 ^ 32)) % 2 ^ 32))).map FutexWaiter.task := by
        simp only [to_move, hqueue]
      have hle : min nr_wake (fq.waiters % 2 ^ 32) ≤ fq.chain.length := by
        have := Nat.mod_le fq.waiters (2 ^ 32)
        omega
      rw [hwake, hmove]
      generalize min nr_wake (fq.waiters % 2 ^ 32) = n at hle
      rw [FutexQueue.pop_waiters_eq hle]
      have hle₂ : min nr_limit ((fq.waiters - n) % 2 ^ 32) ≤ (fq.chain.drop n).length := by
        have := Nat.mod_le (fq.waiters - n) (2 ^ 32)
        rw [List.length_drop]
        omega
      show Meets (FutexQueue.pop_waiters (min nr_limit ((fq.waiters - n) % 2 ^ 32))
        ⟨fq.waiters - n, fq.chain.drop n⟩ >>= _) _ _
      generalize min nr_limit ((fq.waiters - n) % 2 ^ 32) = n₂ at hle₂
      rw [FutexQueue.pop_waiters_eq hle₂]
      have hlength : (fq.chain.take n).length = n := by
        rw [List.length_take, Nat.min_eq_left hle]
      have hlength₂ : ((fq.chain.drop n).take n₂).length = n₂ := by
        rw [List.length_take, Nat.min_eq_left hle₂]
      have hchain : fq.chain = (fq.chain.take n ++ (fq.chain.drop n).take n₂) ++
          (fq.chain.drop n).drop n₂ := by
        rw [List.append_assoc, List.take_append_drop, List.take_append_drop]
      have hput := put_rest h hqueue hchain
      rw [List.length_append, hlength, hlength₂, ← Nat.sub_sub, List.map_append] at hput
      obtain ⟨hcounted, hqueues, htotal⟩ := hput
      generalize (fq.chain.drop n).drop n₂ = rest at hcounted hqueues htotal
      generalize (fq.chain.drop n).take n₂ = ws₂ at hlength₂ hqueues htotal
      show Meets (if n₂ = 0 then _ else _) _ _
      dsimp only
      generalize k.futexes.put uaddr ⟨fq.waiters - n - n₂, rest⟩ = m at hcounted hqueues htotal
      simp only [List.count_append] at hqueues htotal
      split
      · rename_i hzero
        refine ⟨by rw [List.length_map, hlength], ?_⟩
        have hnil : ws₂ = [] := List.length_eq_zero_iff.mp (hlength₂.trans hzero)
        subst hnil
        show k.Woken uaddr _ uaddr2 _ ({ k with futexes := m }.wake_up (fq.chain.take n))
        rw [wake_up_eq]
        refine ⟨rfl, hcounted, fun a p => ?_, fun p => ?_⟩
        · have := hqueues a p
          simp only [List.map_nil, List.count_nil, ite_self, Nat.add_zero] at this ⊢
          exact this
        · exact htotal p
      · refine ⟨by rw [List.length_map, hlength], ?_⟩
        show k.Woken uaddr _ uaddr2 _ { { k with futexes := m }.wake_up (fq.chain.take n) with
          futexes := m.insert uaddr2 (ws₂.foldl FutexQueue.push_back (m.queue uaddr2)) }
        rw [wake_up_eq]
        refine ⟨rfl, hcounted.insert
          (FutexQueue.counted_foldl_push_back ws₂ (hcounted.queue uaddr2)), fun a p => ?_,
          fun p => ?_⟩
        · have := hqueues a p
          show (FutexMap.queue (m.insert uaddr2 _) a).count p + _ = _
          rw [FutexMap.queue_insert]
          split
          · rename_i heq
            rw [FutexQueue.count_foldl_push_back, ← heq]
            omega
          · omega
        · have := htotal p
          have hinsert := FutexMap.count_insert m uaddr2
            (ws₂.foldl FutexQueue.push_back (m.queue uaddr2)) p
          rw [FutexQueue.count_foldl_push_back] at hinsert
          show FutexMap.count (m.insert uaddr2 _) p + _ = _
          omega

end Wake

end Kernel

open Kernel

/-- Without interrupted waits the chains are `exact`. -/
structure Waiting (exact : Prop) (k : Kernel) : Prop where
  counted : k.futexes.Counted
  balanced : exact → ∀ p, k.futexes.count p = k.manager.waiting_queue.count p
  blocked : ∀ p ∈ k.manager.waiting_queue, k.blocked p

/-- Nothing happens to the futexes, to the waiting queue or to a task in it. -/
structure Calm (k k' : Kernel) : Prop where
  futexes : k'.futexes = k.futexes
  waiting : k'.manager.waiting_queue = k.manager.waiting_queue
  tasks : ∀ p ∈ k.manager.waiting_queue, ∀ t, k.tasks p = some t →
    ∃ t', k'.tasks p = some t' ∧ t'.task_status = t.task_status ∧ t'.resume = t.resume

section Calm

variable {exact : Prop} {k k' k'' : Kernel} {p : Nat} {f : TaskControlBlock → TaskControlBlock}

theorem Calm.refl (k : Kernel) : Calm k k := ⟨rfl, rfl, fun _ _ t ht => ⟨t, ht, rfl, rfl⟩⟩

theorem Calm.trans (h : Calm k k') (h' : Calm k' k'') : Calm k k'' where
  futexes := h'.futexes.trans h.futexes
  waiting := h'.waiting.trans h.waiting
  tasks p hp t ht := by
    obtain ⟨t', ht', hstatus, hresume⟩ := h.tasks p hp t ht
    obtain ⟨t'', ht'', hstatus', hresume'⟩ := h'.tasks p (h.waiting ▸ hp) t' ht'
    exact ⟨t'', ht'', hstatus'.trans hstatus, hresume'.trans hresume⟩

theorem Waiting.calm (hk : Waiting exact k) (h : Calm k k') : Waiting exact k' where
  counted := h.futexes ▸ hk.counted
  balanced hexact p := by
    rw [h.futexes, h.waiting]
    exact hk.balanced hexact p
  blocked p hp := by
    obtain ⟨hmem, t, timeout_time, ht, hstatus, hresume⟩ := hk.blocked p (h.waiting ▸ hp)
    obtain ⟨t', ht', hstatus', hresume'⟩ := h.tasks p hmem t ht
    exact ⟨hp, t', timeout_time, ht', hstatus'.trans hstatus, hresume'.trans hresume⟩

theorem Calm.modify (k : Kernel) (p : Nat)
    (hf : ∀ t, (f t).task_status = t.task_status ∧ (f t).resume = t.resume) :
    Calm k (k.modify p f) := by
  refine ⟨rfl, rfl, fun q _ t ht => ?_⟩
  rw [tasks_modify]
  split
  · rename_i heq
    rw [← heq, ht]
    exact ⟨f t, rfl, hf t⟩
  · exact ⟨t, ht, rfl, rfl⟩

/-- A task that does not wait may change. -/
theorem Calm.modify_of_not_mem (hp : p ∉ k.manager.waiting_queue) : Calm k (k.modify p f) := by
  refine ⟨rfl, rfl, fun q hq t ht => ⟨t, ?_, rfl, rfl⟩⟩
  have hne : q ≠ p := fun heq => hp (heq ▸ hq)
  rw [tasks_modify, if_neg hne]
  exact ht

theorem Calm.freed (h : Freed k k') : Calm k k' := by
  refine ⟨by rw [h.same], by rw [h.same], fun p hp t ht => ?_⟩
  obtain heq | ⟨_, hcount, _⟩ := h.tasks p
  · exact ⟨t, heq.trans ht, rfl, rfl⟩
  · have hpos := List.count_pos_iff.mpr hp
    unfold TaskManager.count at hcount
    omega

end Calm

section Steps

variable {exact : Prop} {k k' : Kernel} {p : Nat} {t : TaskControlBlock}

theorem not_waiting (h : k.manager.count p = 0) : p ∉ k.manager.waiting_queue := by
  intro hmem
  have hpos := List.count_pos_iff.mpr hmem
  unfold TaskManager.count at h
  omega

theorem Scheduled.executing_not_waiting (hk : Scheduled k) (hrunning : k.phase = .running)
    (hcurrent : k.current = some p) : p ∉ k.manager.waiting_queue :=
  not_waiting (hk.executing hrunning hcurrent).1

/-- Whoever is in a chain and taken out of it is taken out of the waiting queue. -/
theorem Waiting.unblock_all (h : Waiting exact k) {futexes : FutexMap} {ps : List Nat}
    (hcounted : futexes.Counted) (htotal : ∀ p, futexes.count p + ps.count p = k.futexes.count p) :
    Waiting exact { k with futexes := futexes, manager := k.manager.unblock_all ps } where
  counted := hcounted
  balanced hexact p := by
    have hwaiting := (@TaskManager.unblock_all_waiting ps k.manager fun q => by
      rw [← h.balanced hexact q, ← htotal q]
      exact Nat.le_add_left _ _).2 p
    have hbalanced := h.balanced hexact p
    have := htotal p
    show futexes.count p = (k.manager.unblock_all ps).waiting_queue.count p
    omega
  blocked p hp := by
    obtain ⟨_, hblocked⟩ := h.blocked p (TaskManager.mem_waiting_unblock_all hp)
    exact ⟨hp, hblocked⟩

theorem Waiting.woken (h : Waiting exact k) {uaddr uaddr2 : Nat} {ps qs : List Nat}
    (hw : k.Woken uaddr ps uaddr2 qs k') : Waiting exact k' := by
  rw [hw.same]
  exact h.unblock_all hw.counted hw.total

/-- A waiter enters the chain, and its task the waiting queue. -/
theorem Waiting.futex_wait (h : Waiting exact k) (hp : p ∉ k.manager.waiting_queue)
    (ht : k.tasks p = some t) (uaddr val timeout word now : Nat) :
    Waiting exact (k.futex_wait p uaddr val timeout word now) := by
  have hcounted := h.counted.queue uaddr
  unfold Kernel.futex_wait
  dsimp only
  split
  · refine ⟨h.counted.put hcounted, fun hexact q => ?_, h.blocked⟩
    have hput := FutexMap.count_put k.futexes uaddr hcounted q
    have hbalanced := h.balanced hexact q
    show FutexMap.count (k.futexes.put uaddr (k.futexes.queue uaddr)) q =
      k.manager.waiting_queue.count q
    omega
  · have hcalm := Calm.modify_of_not_mem (k := k) (f := fun t => { t with
      task_status := .Blocking, resume := .futex_wait (min (now + timeout) (2 ^ 64 - 1)) }) hp
    have hwaiting : (k.manager.block p).waiting_queue = k.manager.waiting_queue ++ [p] := rfl
    constructor
    · apply h.counted.insert
      simp only [FutexQueue.push_back, List.length_append, List.length_singleton, hcounted]
    · intro hexact q
      have hinsert := FutexMap.count_insert k.futexes uaddr
        ((k.futexes.queue uaddr).push_back (.new p now timeout)) q
      rw [FutexQueue.count_push_back] at hinsert
      have hbalanced := h.balanced hexact q
      show FutexMap.count (k.futexes.insert uaddr _) q = (k.manager.block p).waiting_queue.count q
      rw [hwaiting, List.count_append, List.count_singleton]
      simp only [beq_iff_eq, eq_comm (a := p)]
      have htask : (FutexWaiter.new p now timeout).task = p := rfl
      rw [htask] at hinsert
      omega
    · intro q hq
      refine ⟨hq, ?_⟩
      obtain hmem | hmem := List.mem_append.mp (hwaiting ▸ hq)
      · obtain ⟨_, t', timeout_time, ht', hstatus, hresume⟩ := h.blocked q hmem
        obtain ⟨t'', ht'', hstatus', hresume'⟩ := hcalm.tasks q hmem t' ht'
        exact ⟨t'', timeout_time, ht'', hstatus'.trans hstatus, hresume'.trans hresume⟩
      · rw [List.mem_singleton.mp hmem]
        refine ⟨{ t with
          task_status := .Blocking,
          resume := .futex_wait (min (now + timeout) (2 ^ 64 - 1)) }, _, ?_, rfl, rfl⟩
        exact tasks_modify.trans (by rw [if_pos rfl, ht]; rfl)

theorem Waiting.sys_futex (h : Waiting exact k) (hp : p ∉ k.manager.waiting_queue)
    (ht : k.tasks p = some t) (uaddr futex_op val val2 uaddr2 timeout word now : Nat) :
    Meets (k.sys_futex p uaddr futex_op val val2 uaddr2 timeout word now) (fun _ => True)
      (Waiting exact) := by
  unfold Kernel.sys_futex
  dsimp only
  split
  · exact h
  · split
    · exact h.futex_wait hp ht _ _ _ _ _
    · split
      · obtain ⟨r, hr, _, hw⟩ := (futex_wake_meets h.counted uaddr val).exists_ok
        rw [hr]
        exact h.woken hw
      · split
        · obtain ⟨r, hr, _, hw⟩ :=
            (futex_requeue_meets h.counted uaddr val uaddr2 (val2 % 2 ^ 32)).exists_ok
          rw [hr]
          exact h.woken hw
        · trivial

theorem wake_clear_child_tid_waiting (h : Waiting exact k) (t : TaskControlBlock) :
    Meets (k.wake_clear_child_tid t) (fun _ => True) (Waiting exact) := by
  unfold wake_clear_child_tid
  split
  · exact h
  · obtain ⟨r, hr, _, hw⟩ := (futex_wake_meets h.counted t.clear_child_tid 1).exists_ok
    rw [hr]
    exact h.woken hw

theorem reparent_calm (cs : List Nat) (k : Kernel) : Calm k (cs.foldl reparent k) := by
  induction cs generalizing k with
  | nil => exact Calm.refl k
  | cons c cs ih =>
    refine Calm.trans ?_ (ih (k.reparent c))
    exact (Calm.modify k c (f := fun t => { t with parent := some INITPROC })
      fun _ => ⟨rfl, rfl⟩).trans (Calm.modify _ INITPROC fun _ => ⟨rfl, rfl⟩)

theorem cancel_thread_calm (k : Kernel) (p : Nat) (t : TaskControlBlock) :
    Meets (k.cancel_thread p t) (fun _ => True) (Calm k) := by
  unfold cancel_thread
  split
  · trivial
  · rename_i q _
    split
    · trivial
    · split
      · dsimp only
        split
        · exact (Calm.modify k q (f := fun t => { t with children := t.children.erase p })
            fun _ => ⟨rfl, rfl⟩).trans ⟨rfl, rfl, fun _ _ t ht => ⟨t, ht, rfl, rfl⟩⟩
        · trivial
      · trivial

theorem Waiting.exit (hk : Scheduled k) (h : Waiting exact k) (hrunning : k.phase = .running)
    (exit_code : Int) :
    Meets (k.exit_current_and_run_next exit_code) (fun _ => True) (Waiting exact) := by
  unfold exit_current_and_run_next
  split
  · trivial
  · rename_i p hcurrent
    apply (k.task_meets p).bind
    intro t ht
    split
    · trivial
    · have hstart : Waiting exact { k with current := none, pid2tcb := k.pid2tcb.erase p } :=
        h.calm ⟨rfl, rfl, fun _ _ t ht => ⟨t, ht, rfl, rfl⟩⟩
      dsimp only
      have hwake := wake_clear_child_tid_waiting hstart t
      have hsteady := wake_clear_child_tid_steady
        { k with current := none, pid2tcb := k.pid2tcb.erase p } t
      cases hk₁ : wake_clear_child_tid
          { k with current := none, pid2tcb := k.pid2tcb.erase p } t with
      | error e => trivial
      | ok k₁ =>
        have h₁ := hwake.of_ok hk₁
        have hp : p ∉ k₁.manager.waiting_queue := not_waiting
          (((hsteady.of_ok hk₁).count p).trans (hk.executing hrunning hcurrent).1)
        have hzombie := (Calm.modify_of_not_mem (f := fun t => { t with
          task_status := .Zombie, exit_code := exit_code }) hp).trans (reparent_calm t.children _)
        show Meets (if p = INITPROC then _ else _) _ _
        split
        · trivial
        · split
          · trivial
          · split
            · apply (cancel_thread_calm _ p t).bind
              intro k₂ h₂
              exact (h₁.calm (hzombie.trans h₂)).calm ⟨rfl, rfl, fun _ _ t ht => ⟨t, ht, rfl, rfl⟩⟩
            · generalize t.children.foldl reparent _ = k₂ at hzombie
              have hdrop := Calm.freed (Freed.drop k₂.next_pid k₂ p)
              exact (h₁.calm (hzombie.trans hdrop)).calm
                ⟨rfl, rfl, fun _ _ t ht => ⟨t, ht, rfl, rfl⟩⟩

theorem Waiting.handle_signals (sigactions : Nat → SigAction) (p : Nat) (fuel : Nat) :
    ∀ {k : Kernel}, Scheduled k → Waiting exact k → k.phase = .running →
      Meets (Kernel.handle_signals sigactions p fuel k) (fun _ => True) fun r =>
        if r.1 then Waiting exact r.2 else Calm k r.2 := by
  induction fuel with
  | zero => exact fun _ _ _ => Calm.refl _
  | succ fuel ih =>
    intro k hk h hrunning
    unfold Kernel.handle_signals
    apply (k.task_meets p).bind
    intro t _
    split
    · exact Calm.refl k
    · rename_i signum _
      have hsteady := Steady.modify k p
        (f := fun t => { t with pending_signals := t.pending_signals.sub signum }) fun _ => rfl
      have hsub := Calm.modify k p
        (f := fun t => { t with pending_signals := t.pending_signals.sub signum })
        fun _ => ⟨rfl, rfl⟩
      have hrunning' := hsteady.phase.trans hrunning
      dsimp only
      split
      · apply (ih (hk.steady hsteady) (h.calm hsub) hrunning').mono
        intro r hr
        split
        · rename_i hexit
          rwa [if_pos hexit] at hr
        · rename_i hexit
          rw [if_neg hexit] at hr
          exact hsub.trans hr
      · split
        · split
          · exact ((h.calm hsub).exit (hk.steady hsteady) hrunning' _).bind fun k' hk' => hk'
          · exact hsub
        · exact hsub.trans (Calm.modify _ p fun _ => ⟨rfl, rfl⟩)

theorem Waiting.exec_signal_handlers (hk : Scheduled k) (h : Waiting exact k)
    (hrunning : k.phase = .running) (sigactions : Nat → SigAction) :
    Meets (k.exec_signal_handlers sigactions) (fun _ => True) fun r =>
      if r.1 then Waiting exact r.2 else Calm k r.2 := by
  unfold Kernel.exec_signal_handlers
  split
  · trivial
  · exact Waiting.handle_signals sigactions _ _ hk h hrunning

theorem Waiting.suspend (hk : Scheduled k) (h : Waiting exact k) (hrunning : k.phase = .running)
    (sigactions : Nat → SigAction) :
    Meets (k.suspend_current_and_run_next sigactions) (fun _ => True) (Waiting exact) := by
  unfold suspend_current_and_run_next
  have hsteady := hk.exec_signal_handlers hrunning sigactions
  have hcalm := h.exec_signal_handlers hk hrunning sigactions
  cases hr : k.exec_signal_handlers sigactions with
  | error e => trivial
  | ok r =>
    obtain ⟨exited, k'⟩ := r
    have hsteady := hsteady.of_ok hr
    have hcalm := hcalm.of_ok hr
    cases exited with
    | true => exact hcalm
    | false =>
      have hsteady : Steady k k' := hsteady
      have hcalm : Calm k k' := hcalm
      dsimp only [bind, Except.bind]
      rw [if_neg Bool.false_ne_true]
      cases hcurrent : k'.current with
      | none => trivial
      | some p =>
        have hp := (hk.steady hsteady).executing_not_waiting (hsteady.phase.trans hrunning) hcurrent
        have hready := hcalm.trans (Calm.modify_of_not_mem (k := k') (f := fun t => { t with
          task_status := .Ready }) hp)
        exact (h.calm hready).calm ⟨rfl, rfl, fun _ _ t ht => ⟨t, ht, rfl, rfl⟩⟩

theorem Waiting.wait4_loop (hk : Scheduled k) (h : Waiting exact k) (hrunning : k.phase = .running)
    (hcurrent : k.current = some p) (t : TaskControlBlock) (pid : Int)
    (sigactions : Nat → SigAction) :
    Meets (k.wait4_loop p t pid sigactions) (fun _ => True) (Waiting exact) := by
  have hp := hk.executing_not_waiting hrunning hcurrent
  unfold Kernel.wait4_loop
  split
  · dsimp only
    split
    · exact h.calm ((Calm.modify_of_not_mem hp).trans (Calm.freed (Freed.drop _ _ _)))
    · trivial
  · have hsteady := Steady.modify k p (f := fun t => { t with resume := .wait4 pid }) fun _ => rfl
    exact (h.calm (Calm.modify_of_not_mem hp)).suspend (hk.steady hsteady)
      (hsteady.phase.trans hrunning) sigactions

theorem Waiting.resume (hk : Scheduled k) (h : Waiting exact k) (sigactions : Nat → SigAction) :
    Meets (k.resume sigactions) (fun _ => True) (Waiting exact) := by
  unfold Kernel.resume
  split
  · rename_i p hrunning hcurrent
    apply (k.task_meets p).bind
    intro t _
    split
    · trivial
    · exact h.wait4_loop hk hrunning hcurrent t _ sigactions
    · exact h.calm (Calm.modify_of_not_mem (hk.executing_not_waiting hrunning hcurrent))
  · trivial

theorem Waiting.sys_do_fork (hk : Scheduled k) (h : Waiting exact k) (hrunning : k.phase = .running)
    (hcurrent : k.current = some p) (t : TaskControlBlock) (flags ctid : Nat) :
    Meets (k.sys_do_fork p t flags ctid) (fun _ => True) (Waiting exact) := by
  unfold Kernel.sys_do_fork
  split
  · trivial
  · refine (h.calm (Calm.modify_of_not_mem (f := fun t => { t with
      children := t.children ++ [k.next_pid] }) (hk.executing_not_waiting hrunning hcurrent))).calm
      ⟨rfl, rfl, fun q hq t ht => ⟨t, ?_, rfl, rfl⟩⟩
    have hne : q ≠ k.next_pid := by
      rintro rfl
      have honce := hk.once k.next_pid
      rw [alive, hk.fresh _ (Nat.le_refl _)] at honce
      have hpos : 0 < k.manager.waiting_queue.count k.next_pid := List.count_pos_iff.mpr hq
      simp only [TaskManager.count, Option.any_none, Bool.false_eq_true, if_false] at honce
      omega
    refine Eq.trans ?_ ht
    exact Function.update_of_ne hne _ _

theorem Waiting.put_away (h : Waiting exact k) :
    Meets k.put_away (fun _ => True) (Waiting exact) := by
  have hlast : Calm k k.take_last := by
    unfold take_last
    split
    · exact Calm.refl k
    · split <;> exact ⟨rfl, rfl, fun _ _ t ht => ⟨t, ht, rfl, rfl⟩⟩
  unfold Kernel.put_away
  split
  · have hfreed := Calm.freed (Freed.foldl_drop k.take_last.next_pid k.take_last.cleaner
      { k.take_last with cleaner := [] })
    have hclean : Calm k.take_last { k.take_last with cleaner := [] } :=
      ⟨rfl, rfl, fun _ _ t ht => ⟨t, ht, rfl, rfl⟩⟩
    exact (h.calm (hlast.trans (hclean.trans hfreed))).calm
      ⟨rfl, rfl, fun _ _ t ht => ⟨t, ht, rfl, rfl⟩⟩
  · trivial
  · trivial

/-- The task to run was in another queue. -/
theorem Waiting.run_task (hk : Scheduled k) (h : Waiting exact k) {manager : TaskManager}
    (hcount : ∀ q, k.manager.count q = manager.count q + if q = p then 1 else 0)
    (hwaiting : manager.waiting_queue = k.manager.waiting_queue) :
    Waiting exact ({ k with manager := manager }.run_task p) := by
  have hp : p ∉ manager.waiting_queue := by
    have honce := hk.once p
    rw [hcount p, if_pos rfl] at honce
    apply not_waiting (k := { k with manager := manager })
    show manager.count p = 0
    split at honce <;> omega
  have hmanager : Calm k { k with manager := manager } :=
    ⟨rfl, hwaiting, fun _ _ t ht => ⟨t, ht, rfl, rfl⟩⟩
  have hmodify := Calm.modify_of_not_mem (k := { k with manager := manager })
    (f := fun t => { t with task_status := .Running }) hp
  exact (h.calm (hmanager.trans hmodify)).calm ⟨rfl, rfl, fun _ _ t ht => ⟨t, ht, rfl, rfl⟩⟩

/-- An expired waiter leaves its chain, and its task the waiting queue. -/
theorem Waiting.expire (h : Waiting exact k) {now pick : Nat} {futexes : FutexMap}
    (hpop : k.futexes.pop_expired now pick = some (p, futexes)) :
    Waiting exact { k with
      futexes := futexes, manager := k.manager.unblock_task p, phase := .switched } := by
  obtain ⟨uaddr, q, q', hq, hexpired, rfl⟩ := FutexMap.pop_expired_cases hpop
  have hqueue : k.futexes.queue uaddr = q := by
    rw [FutexMap.queue, hq]
    rfl
  have hcounted := @FutexMap.Counted.insert _ uaddr _ h.counted
    (FutexQueue.length_pop_expire hexpired (h.counted uaddr q hq))
  have hunblock := @Waiting.unblock_all _ _ h _ [p] hcounted fun r => by
    have hinsert := FutexMap.count_insert k.futexes uaddr q' r
    rw [hqueue, FutexQueue.count_pop_expire hexpired r] at hinsert
    rw [List.count_singleton]
    simp only [beq_iff_eq, eq_comm (a := p)]
    omega
  exact hunblock.calm ⟨rfl, rfl, fun _ _ t ht => ⟨t, ht, rfl, rfl⟩⟩

end Steps

namespace Kernel

/-- No wait is ended by a signal. -/
def Uninterrupted (k : Kernel) : KernelOp → Prop
  | .dispatch now pick => k.phase = .idle → (k.manager.check_hanging now pick).isNone →
    ∀ p ∈ k.manager.waiting_queue, ¬ (k.tasks p).any (·.interrupted)
  | _ => True

instance (k : Kernel) (op : KernelOp) : Decidable (k.Uninterrupted op) :=
  match op with
  | .dispatch now pick => inferInstanceAs (Decidable (k.phase = .idle →
      (k.manager.check_hanging now pick).isNone →
      ∀ p ∈ k.manager.waiting_queue, ¬ (k.tasks p).any (·.interrupted)))
  | .sys_exit _ | .suspend _ | .sys_do_fork _ _ | .sys_exec | .sys_wait4 _ _ | .resume _
  | .put_away | .exec_signal_handlers _ | .sys_kill _ _ | .add_signal _ | .set_sigmask _
  | .sys_set_tid_address _ | .hang _ _ | .sys_futex _ _ _ _ _ _ _ _ =>
    inferInstanceAs (Decidable True)

end Kernel

section Runs

variable {exact : Prop} {k : Kernel}

theorem Waiting.dispatch (hk : Scheduled k) (h : Waiting exact k) {now pick : Nat}
    (hop : exact → k.Uninterrupted (.dispatch now pick)) :
    Meets (k.dispatch now pick) (fun _ => True) (Waiting exact) := by
  unfold Kernel.dispatch
  split
  · rename_i hidle
    split
    · rename_i p manager hcheck
      refine h.run_task hk (TaskManager.count_check_hanging hcheck) ?_
      unfold TaskManager.check_hanging at hcheck
      split at hcheck
      · cases hcheck
      · split at hcheck <;> cases hcheck
        rfl
    · rename_i hcheck
      split
      · rename_i p k' hwoken
        unfold check_futex_interupt_or_expire at hwoken
        split at hwoken
        · rename_i q hfind
          cases hwoken
          have hmem := List.mem_of_find?_eq_some hfind
          have hinterrupted := List.find?_some hfind
          constructor
          · exact h.counted
          · intro hexact
            exact absurd hinterrupted (hop hexact hidle (by rw [hcheck]; rfl) p hmem)
          · intro r hr
            obtain ⟨_, hblocked⟩ := h.blocked r (TaskManager.mem_waiting_unblock hr)
            exact ⟨hr, hblocked⟩
        · obtain ⟨⟨q, futexes⟩, hpop, heq⟩ := Option.map_eq_some_iff.mp hwoken
          cases heq
          exact h.expire hpop
      · split
        · rename_i p manager hfetch
          refine h.run_task hk (TaskManager.count_fetch hfetch) ?_
          unfold TaskManager.fetch at hfetch
          split at hfetch <;> cases hfetch
          rfl
        · exact h.calm ⟨rfl, rfl, fun _ _ t ht => ⟨t, ht, rfl, rfl⟩⟩
  · trivial
  · trivial

theorem Waiting.step (hk : Scheduled k) (h : Waiting exact k) {op : KernelOp}
    (hop : exact → k.Uninterrupted op) : Meets (k.step op) (fun _ => True) (Waiting exact) := by
  cases op with
  | suspend sigactions => exact k.user_meets.bind fun r hr => h.suspend hk hr.1 sigactions
  | exec_signal_handlers sigactions =>
    apply k.user_meets.bind
    intro r hr
    have hsignals := h.exec_signal_handlers hk hr.1 sigactions
    cases hx : k.exec_signal_handlers sigactions with
    | error e => trivial
    | ok s =>
      have hs := hsignals.of_ok hx
      split at hs
      · exact hs
      · exact h.calm hs
  | sys_exit exit_code => exact k.user_meets.bind fun r hr => h.exit hk hr.1 exit_code
  | sys_do_fork flags ctid =>
    exact k.user_meets.bind fun r hr => h.sys_do_fork hk hr.1 hr.2.1 r.2 flags ctid
  | sys_exec =>
    apply k.user_meets.bind
    intro r _
    show Meets (k.sys_exec r.1 r.2) _ _
    unfold Kernel.sys_exec
    split
    · exact h
    · trivial
  | sys_wait4 pid sigactions =>
    apply k.user_meets.bind
    intro r hr
    show Meets (k.sys_wait4 r.1 r.2 pid sigactions) _ _
    unfold Kernel.sys_wait4
    split
    · exact h
    · split
      · exact h
      · exact h.wait4_loop hk hr.1 hr.2.1 r.2 pid sigactions
  | resume sigactions => exact h.resume hk sigactions
  | sys_kill pid signal =>
    apply k.user_meets.bind
    intro r _
    show Waiting exact (k.sys_kill pid signal)
    unfold Kernel.sys_kill
    dsimp only
    split
    · exact h
    · exact h.calm (Calm.modify k pid fun _ => ⟨rfl, rfl⟩)
  | add_signal signal =>
    exact k.user_meets.bind fun r _ => h.calm (Calm.modify k r.1 fun _ => ⟨rfl, rfl⟩)
  | set_sigmask sigmask =>
    exact k.user_meets.bind fun r _ => h.calm (Calm.modify k r.1 fun _ => ⟨rfl, rfl⟩)
  | sys_set_tid_address tidptr =>
    exact k.user_meets.bind fun r _ => h.calm (Calm.modify k r.1 fun _ => ⟨rfl, rfl⟩)
  | hang sleep_time duration =>
    apply k.user_meets.bind
    intro r hr
    have hmodify := Calm.modify_of_not_mem (f := fun t => { t with task_status := .Hanging })
      (hk.executing_not_waiting hr.1 hr.2.1)
    exact (h.calm hmodify).calm ⟨rfl, rfl, fun _ _ t ht => ⟨t, ht, rfl, rfl⟩⟩
  | sys_futex uaddr futex_op val val2 uaddr2 timeout word now =>
    exact k.user_meets.bind fun r hr =>
      h.sys_futex (hk.executing_not_waiting hr.1 hr.2.1) hr.2.2 _ _ _ _ _ _ _ _
  | put_away => exact h.put_away
  | dispatch now pick => exact h.dispatch hk hop

theorem boot_waiting : Waiting exact boot where
  counted _ _ h := by cases h
  balanced _ _ := rfl
  blocked p hp := by cases hp

theorem waiting_states (ops : List KernelOp)
    (hops : exact → Guarded step Uninterrupted boot ops) :
    ∀ k ∈ states step boot ops, Scheduled k ∧ Waiting exact k := by
  have hguard : Guarded step (fun k op => exact → k.Uninterrupted op) boot ops := by
    by_cases hexact : exact
    · exact Guarded.mono (fun _ _ hop _ => hop) (hops hexact)
    · exact guarded_of_states (P := fun _ => True) (fun _ _ _ _ h => absurd h hexact)
        fun _ _ => trivial
  exact invariant (fun k => Scheduled k ∧ Waiting exact k)
    (fun _ op _ hk hop hstep => ⟨(hk.1.step op).of_ok hstep, (hk.2.step hk.1 hop).of_ok hstep⟩)
    ⟨boot_scheduled, boot_waiting⟩ hguard

end Runs

end MyGOS.Task
