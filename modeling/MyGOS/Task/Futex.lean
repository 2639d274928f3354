import MyGOS.Lib.MapTotal
import MyGOS.Lib.Outcome
import MyGOS.Task.Manager

/-!
# Futex queues

A queue of waiters for each futex address, with a counter of its own. The map
is keyed by the address alone.
-/

namespace MyGOS.Task

def FUTEX_WAIT : Nat := 0
def FUTEX_WAKE : Nat := 1
def FUTEX_REQUEUE : Nat := 3

structure FutexWaiter where
  task : Nat
  expire_time : Nat
deriving DecidableEq, Repr

namespace FutexWaiter

def new (task current_time timeout : Nat) : FutexWaiter where
  task := task
  expire_time := if current_time ≤ 2 ^ 64 - 1 - timeout then current_time + timeout else 2 ^ 64 - 1

def check_expire (now : Nat) (w : FutexWaiter) : Bool := w.expire_time ≤ now

end FutexWaiter

structure FutexQueue where
  waiters : Nat
  chain : List FutexWaiter

namespace FutexQueue

def new : FutexQueue := ⟨0, []⟩

def push_back (q : FutexQueue) (w : FutexWaiter) : FutexQueue := ⟨q.waiters + 1, q.chain ++ [w]⟩

/-- `n` times `pop_front().unwrap()`, each with a `waiters_decrease`. -/
def pop_waiters : (n : Nat) → FutexQueue → Except TaskPanic (List FutexWaiter × FutexQueue)
  | 0, q => .ok ([], q)
  | n + 1, q =>
    match q.chain with
    | [] => .error .noWaiter
    | w :: chain => do
      let (ws, q) ← pop_waiters n ⟨q.waiters - 1, chain⟩
      return (w :: ws, q)

def pop_expire_waiter (q : FutexQueue) (now : Nat) : Option (Nat × FutexQueue) :=
  match q.chain.find? (FutexWaiter.check_expire now) with
  | none => none
  | some w => some (w.task, ⟨q.waiters - 1, q.chain.eraseP (FutexWaiter.check_expire now)⟩)

/-- How often a task waits in the queue. -/
def count (q : FutexQueue) (task : Nat) : Nat := (q.chain.map FutexWaiter.task).count task

theorem pop_waiters_eq {n : Nat} : ∀ {q : FutexQueue}, n ≤ q.chain.length →
    pop_waiters n q = .ok (q.chain.take n, ⟨q.waiters - n, q.chain.drop n⟩) := by
  induction n with
  | zero => exact fun _ => rfl
  | succ n ih =>
    intro q h
    unfold pop_waiters
    split
    · rename_i hchain
      rw [hchain] at h
      simp at h
    · rename_i w chain hchain
      rw [hchain, List.length_cons] at h
      rw [ih (Nat.le_of_succ_le_succ h), hchain]
      show Except.ok _ = _
      rw [Nat.sub_sub, Nat.add_comm 1 n]
      rfl

theorem count_push_back (q : FutexQueue) (w : FutexWaiter) (p : Nat) :
    (q.push_back w).count p = q.count p + if p = w.task then 1 else 0 := by
  simp only [count, push_back, List.map_append, List.map_singleton, List.count_append,
    List.count_singleton]
  rcases eq_or_ne p w.task with rfl | hne
  · simp
  · simp [hne, hne.symm]

theorem count_split (q : FutexQueue) (n p : Nat) :
    q.count p = ((q.chain.take n).map FutexWaiter.task).count p +
      ((q.chain.drop n).map FutexWaiter.task).count p := by
  rw [← List.count_append, ← List.map_append, List.take_append_drop]
  rfl

theorem count_pop_expire {q q' : FutexQueue} {now task : Nat}
    (h : q.pop_expire_waiter now = some (task, q')) (p : Nat) :
    q.count p = q'.count p + if p = task then 1 else 0 := by
  unfold pop_expire_waiter at h
  split at h
  · cases h
  · rename_i w hfind
    cases h
    obtain ⟨hexpired, l₁, l₂, hchain, hnot⟩ := List.find?_eq_some_iff_append.mp hfind
    have herase : q.chain.eraseP (FutexWaiter.check_expire now) = l₁ ++ l₂ := by
      rw [hchain, List.eraseP_append_right _ (by simpa using hnot),
        List.eraseP_cons_of_pos hexpired]
    rw [count, count, herase, hchain]
    simp only [List.map_append, List.map_cons, List.count_append,
      List.count_cons]
    rcases eq_or_ne p w.task with rfl | hne
    · simp
      omega
    · simp [hne, hne.symm]

theorem length_pop_expire {q q' : FutexQueue} {now task : Nat}
    (h : q.pop_expire_waiter now = some (task, q')) (hq : q.waiters = q.chain.length) :
    q'.waiters = q'.chain.length := by
  unfold pop_expire_waiter at h
  split at h
  · cases h
  · rename_i w hfind
    cases h
    rw [hq, List.length_eraseP_of_mem (List.mem_of_find?_eq_some hfind) (List.find?_some hfind)]

end FutexQueue

abbrev FutexMap := AList fun _ : Nat => FutexQueue

namespace FutexMap

/-- The queue of an address, made when there is none. -/
def queue (m : FutexMap) (uaddr : Nat) : FutexQueue := (m.lookup uaddr).getD .new

/-- The queue is put back, or removed with its last waiter. -/
def put (m : FutexMap) (uaddr : Nat) (q : FutexQueue) : FutexMap :=
  if q.waiters = 0 then m.erase uaddr else m.insert uaddr q

/-- The queues with an expired waiter; which of them the iteration meets first is `pick`. -/
def pop_expired (m : FutexMap) (now pick : Nat) : Option (Nat × FutexMap) :=
  let expired := m.entries.filter fun e => e.2.chain.any (FutexWaiter.check_expire now)
  match expired[pick % expired.length]? with
  | none => none
  | some e => (e.2.pop_expire_waiter now).map fun r => (r.1, m.insert e.1 r.2)

/-- How often a task waits at all. -/
def count (m : FutexMap) (task : Nat) : Nat := MapTotal.total (·.count task) m

end FutexMap

end MyGOS.Task
