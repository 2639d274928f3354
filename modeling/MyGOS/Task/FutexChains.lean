import MyGOS.Task.FutexWakes

/-!
# The chains of the futex queues

Every step of the kernel changes the chains by one event: a waiter comes to the
end of a chain, the first ones of a chain are woken, others move behind them to
the end of a chain, or one expires. No waiter is lost, doubled or overtaken
there. A chain never has 2³² waiters, as the kernel heap does not hold them.
-/

namespace MyGOS.Task

open Outcome StepSystem

inductive ChainEvent where
  | push (uaddr : Nat)
  | wake (uaddr n : Nat)
  | requeue (uaddr n uaddr2 m : Nat)
  | expire (uaddr index : Nat)

theorem FutexWaiter.le_expire_time (task now timeout : Nat) :
    min (now + timeout) (2 ^ 64 - 1) ≤ (FutexWaiter.new task now timeout).expire_time := by
  unfold FutexWaiter.new
  dsimp only
  split <;> omega

namespace ChainEvent

variable {α β : Type*}

/-- `x` is what a `push` puts at the end. -/
def apply (x : α) (c : Nat → List α) : ChainEvent → Nat → List α
  | push uaddr => Function.update c uaddr (c uaddr ++ [x])
  | wake uaddr n => Function.update c uaddr ((c uaddr).drop n)
  | requeue uaddr n uaddr2 m =>
    let rest := Function.update c uaddr ((c uaddr).drop (n + m))
    Function.update rest uaddr2 (rest uaddr2 ++ ((c uaddr).drop n).take m)
  | expire uaddr index => Function.update c uaddr ((c uaddr).eraseIdx index)

/-- What leaves the chains to be woken. -/
def woken (c : Nat → List α) : ChainEvent → List α
  | push _ => []
  | wake uaddr n => (c uaddr).take n
  | requeue uaddr n _ _ => (c uaddr).take n
  | expire _ _ => []

def expired (c : Nat → List α) : ChainEvent → List α
  | expire uaddr index => ((c uaddr)[index]?).toList
  | push _ | wake _ _ | requeue _ _ _ _ => []

/-- Nothing leaves a chain whose first 0 waiters are woken. -/
@[simp] theorem apply_wake_zero (x : α) (c : Nat → List α) (uaddr : Nat) :
    (wake uaddr 0).apply x c = c := by
  rw [apply, List.drop_zero, Function.update_eq_self]

end ChainEvent

namespace Kernel

/-- The waiters on each address, in their order. -/
def chains (k : Kernel) : Nat → List FutexWaiter := fun uaddr => (k.futexes.queue uaddr).chain

/-- The event happens to the chains, and the tasks of the waiters it wakes are unblocked. -/
structure Performs (k : Kernel) (e : ChainEvent) (k' : Kernel) : Prop where
  counted : k'.futexes.Counted
  chains : k'.chains = e.apply (.new 0 0 0) k.chains
  same : k' = { k with
    futexes := k'.futexes
    manager := k.manager.unblock_all ((e.woken k.chains).map FutexWaiter.task) }

section Wake

variable {k : Kernel} {uaddr : Nat} {q : FutexQueue}

theorem chains_put (hq : q.waiters = q.chain.length) :
    (fun a => ((k.futexes.put uaddr q).queue a).chain) =
      Function.update k.chains uaddr q.chain := by
  funext a
  rw [FutexMap.queue_put hq, Function.update_apply]
  rfl

theorem chain_of_lookup_none (h : k.futexes.lookup uaddr = none) : k.chains uaddr = [] := by
  rw [chains, FutexMap.queue, h]
  rfl

theorem chain_of_lookup {fq : FutexQueue} (h : k.futexes.lookup uaddr = some fq) :
    k.chains uaddr = fq.chain := by
  rw [chains, FutexMap.queue, h]
  rfl

theorem futex_wake_chains (h : k.futexes.Counted) (uaddr nr_wake : Nat) :
    let n := min nr_wake ((k.chains uaddr).length % 2 ^ 32)
    ∃ k', k.futex_wake uaddr nr_wake = .ok (n, k') ∧ k.Performs (.wake uaddr n) k' := by
  intro n
  have hnone (hnil : k.chains uaddr = []) : n = 0 := by
    simp only [n, hnil, List.length_nil, Nat.zero_mod, Nat.min_zero]
  unfold futex_wake
  cases hlookup : k.futexes.lookup uaddr with
  | none =>
    rw [hnone (chain_of_lookup_none hlookup)]
    exact ⟨k, rfl, ⟨h, (ChainEvent.apply_wake_zero ..).symm, rfl⟩⟩
  | some fq =>
    have hchain := chain_of_lookup hlookup
    have hq := h uaddr fq hlookup
    dsimp only
    split
    · next hzero =>
      have hnil : k.chains uaddr = [] :=
        hchain.trans (List.length_eq_zero_iff.mp (hq.symm.trans hzero))
      rw [hnone hnil]
      exact ⟨k, rfl, ⟨h, (ChainEvent.apply_wake_zero ..).symm, rfl⟩⟩
    · have hn : min nr_wake (fq.waiters % 2 ^ 32) = n := by
        simp only [n, hchain, hq]
      have hle : n ≤ fq.chain.length := by
        have hmod := Nat.mod_le (k.chains uaddr).length (2 ^ 32)
        rw [hchain] at hmod
        exact (Nat.min_le_right _ _).trans (hchain ▸ hmod)
      rw [hn, FutexQueue.pop_waiters_eq hle]
      have hrest : fq.waiters - n = (fq.chain.drop n).length := by
        rw [List.length_drop, hq]
      refine ⟨_, rfl, ⟨h.put hrest, ?_, ?_⟩⟩
      · rw [ChainEvent.apply, hchain]
        exact chains_put hrest
      · rw [wake_up_eq, ChainEvent.woken, hchain]

theorem chain_foldl_push_back (ws : List FutexWaiter) (q : FutexQueue) :
    (ws.foldl FutexQueue.push_back q).chain = q.chain ++ ws := by
  induction ws generalizing q with
  | nil => exact (List.append_nil _).symm
  | cons w ws ih =>
    rw [List.foldl_cons, ih, FutexQueue.push_back, List.append_assoc]
    rfl

theorem chains_insert (k : Kernel) (uaddr : Nat) (q : FutexQueue) :
    (fun a => (FutexMap.queue (k.futexes.insert uaddr q) a).chain) =
      Function.update k.chains uaddr q.chain := by
  funext a
  rw [FutexMap.queue_insert, Function.update_apply, apply_ite FutexQueue.chain]
  rfl

theorem futex_requeue_chains (h : k.futexes.Counted) (uaddr nr_wake uaddr2 nr_limit : Nat) :
    let n := min nr_wake ((k.chains uaddr).length % 2 ^ 32)
    let m := min nr_limit (((k.chains uaddr).length - n) % 2 ^ 32)
    ∃ k', k.futex_requeue uaddr nr_wake uaddr2 nr_limit = .ok (n, k') ∧
      k.Performs (.requeue uaddr n uaddr2 m) k' := by
  intro n m
  have hnone (hnil : k.chains uaddr = []) : n = 0 ∧ m = 0 := by
    simp only [n, m, hnil, List.length_nil, Nat.zero_mod, Nat.min_zero, Nat.sub_zero, and_self]
  have hstill : (ChainEvent.requeue uaddr 0 uaddr2 0).apply (.new 0 0 0) k.chains = k.chains := by
    simp only [ChainEvent.apply, Nat.add_zero, List.drop_zero, List.take_zero, List.append_nil,
      Function.update_eq_self]
  unfold futex_requeue
  cases hlookup : k.futexes.lookup uaddr with
  | none =>
    obtain ⟨hn, hm⟩ := hnone (chain_of_lookup_none hlookup)
    rw [hn, hm]
    exact ⟨k, rfl, ⟨h, hstill.symm, rfl⟩⟩
  | some fq =>
    have hchain := chain_of_lookup hlookup
    have hq := h uaddr fq hlookup
    dsimp only
    split
    · next hzero =>
      have hnil : k.chains uaddr = [] :=
        hchain.trans (List.length_eq_zero_iff.mp (hq.symm.trans hzero))
      obtain ⟨hn, hm⟩ := hnone hnil
      rw [hn, hm]
      exact ⟨k, rfl, ⟨h, hstill.symm, rfl⟩⟩
    · have hn : min nr_wake (fq.waiters % 2 ^ 32) = n := by
        simp only [n, hchain, hq]
      have hm : min nr_limit ((fq.waiters - n) % 2 ^ 32) = m := by
        simp only [m, hchain, hq]
      have hle : n ≤ fq.chain.length := by
        have hmod := Nat.mod_le (k.chains uaddr).length (2 ^ 32)
        rw [hchain] at hmod
        exact (Nat.min_le_right _ _).trans (hchain ▸ hmod)
      have hle₂ : m ≤ (fq.chain.drop n).length := by
        have hmod := Nat.mod_le ((k.chains uaddr).length - n) (2 ^ 32)
        rw [hchain] at hmod
        rw [List.length_drop]
        exact (Nat.min_le_right _ _).trans (hchain ▸ hmod)
      clear_value n m
      rw [hn, FutexQueue.pop_waiters_eq hle, ok_bind]
      dsimp only
      rw [hm, FutexQueue.pop_waiters_eq hle₂, ok_bind]
      dsimp only
      have hrest : fq.waiters - n - m = ((fq.chain.drop n).drop m).length := by
        rw [List.length_drop, List.length_drop, hq]
      have hfront := @chains_put k uaddr ⟨fq.waiters - n - m, (fq.chain.drop n).drop m⟩ hrest
      have hcounted := @FutexMap.Counted.put _ uaddr
        ⟨fq.waiters - n - m, (fq.chain.drop n).drop m⟩ h hrest
      have hwoken : (ChainEvent.requeue uaddr n uaddr2 m).woken k.chains = fq.chain.take n := by
        rw [ChainEvent.woken, hchain]
      have happly : (ChainEvent.requeue uaddr n uaddr2 m).apply (.new 0 0 0) k.chains =
          let rest := Function.update k.chains uaddr ((fq.chain.drop n).drop m)
          Function.update rest uaddr2 (rest uaddr2 ++ (fq.chain.drop n).take m) := by
        rw [ChainEvent.apply, hchain, List.drop_drop]
      generalize k.futexes.put uaddr ⟨fq.waiters - n - m, (fq.chain.drop n).drop m⟩ = fs at *
      split
      · next hzero =>
        refine ⟨_, rfl, ⟨hcounted, ?_, ?_⟩⟩
        · rw [happly, hzero, List.take_zero]
          dsimp only
          rw [List.append_nil, Function.update_eq_self]
          rw [hzero] at hfront
          exact hfront
        · rw [hwoken]
          exact wake_up_eq _ _
      · refine ⟨_, rfl, ⟨?_, ?_, ?_⟩⟩
        · exact hcounted.insert (FutexQueue.counted_foldl_push_back _ (hcounted.queue uaddr2))
        · refine (chains_insert { k with futexes := fs } uaddr2 _).trans ?_
          have hfs : chains { k with futexes := fs } =
              Function.update k.chains uaddr ((fq.chain.drop n).drop m) := hfront
          rw [happly, hfs, chain_foldl_push_back]
          exact congrArg (fun c => Function.update _ uaddr2 (c ++ _)) (congrFun hfront uaddr2)
        · rw [hwoken, wake_up_eq]

/-- The waiter comes to the end of its chain, unless the word has another value. -/
theorem futex_wait_chains (k : Kernel) (p uaddr val timeout word now : Nat)
    (h : k.futexes.Counted) : (k.futex_wait p uaddr val timeout word now).chains =
      if word = val then (ChainEvent.push uaddr).apply (.new p now timeout) k.chains
      else k.chains := by
  unfold futex_wait
  rcases eq_or_ne word val with heq | hne
  · rw [if_pos heq]
    dsimp only
    rw [if_neg (not_not.mpr heq)]
    exact chains_insert k uaddr _
  · rw [if_neg hne]
    dsimp only
    rw [if_pos hne]
    refine (chains_put (h.queue uaddr)).trans ?_
    exact Function.update_eq_self uaddr k.chains

end Wake

/-- Some of the first waiters on the address leave, and no task comes to wait. -/
structure Quiet (uaddr : Nat) (k k' : Kernel) : Prop where
  chains : ∃ n, k'.chains = (ChainEvent.wake uaddr n).apply (.new 0 0 0) k.chains
  counted : k.futexes.Counted → k'.futexes.Counted
  waits : ∀ p t', k'.tasks p = some t' → ∀ timeout_time, t'.resume = .futex_wait timeout_time →
    ∃ t, k.tasks p = some t ∧ t.resume = .futex_wait timeout_time

section Quiet

variable {k k' k'' : Kernel} {uaddr p q : Nat} {t : TaskControlBlock}
  {f : TaskControlBlock → TaskControlBlock}

theorem Quiet.of_futexes (hfutexes : k'.futexes = k.futexes)
    (hwaits : ∀ p t', k'.tasks p = some t' → ∀ timeout_time,
      t'.resume = .futex_wait timeout_time →
        ∃ t, k.tasks p = some t ∧ t.resume = .futex_wait timeout_time) : Quiet uaddr k k' where
  chains := ⟨0, by
    rw [ChainEvent.apply_wake_zero]
    exact funext fun a => congrArg (fun m => (FutexMap.queue m a).chain) hfutexes⟩
  counted h := hfutexes ▸ h
  waits := hwaits

theorem Quiet.refl (k : Kernel) : Quiet uaddr k k := .of_futexes rfl fun _ t ht _ h => ⟨t, ht, h⟩

theorem Quiet.trans (h : Quiet uaddr k k') (h' : Quiet uaddr k' k'') : Quiet uaddr k k'' where
  chains := by
    obtain ⟨n, hn⟩ := h.chains
    obtain ⟨m, hm⟩ := h'.chains
    refine ⟨n + m, ?_⟩
    rw [hm, hn, ChainEvent.apply, ChainEvent.apply, ChainEvent.apply, Function.update_idem,
      Function.update_self, List.drop_drop]
  counted hk := h'.counted (h.counted hk)
  waits p t'' ht'' timeout_time hresume := by
    obtain ⟨t', ht', hresume'⟩ := h'.waits p t'' ht'' timeout_time hresume
    exact h.waits p t' ht' timeout_time hresume'

/-- Nothing but the tasks' place in the scheduler changes. -/
theorem Quiet.of_eq (hfutexes : k'.futexes = k.futexes) (htasks : k'.tasks = k.tasks) :
    Quiet uaddr k k' := .of_futexes hfutexes fun _ t' ht' _ h => ⟨t', htasks ▸ ht', h⟩

theorem Quiet.modify (k : Kernel) (p : Nat) (hf : ∀ t timeout_time,
    (f t).resume = .futex_wait timeout_time → t.resume = .futex_wait timeout_time) :
    Quiet uaddr k (k.modify p f) := by
  refine .of_futexes rfl fun q t' ht' timeout_time hresume => ?_
  rw [tasks_modify] at ht'
  split at ht'
  · next heq =>
    obtain ⟨t, ht, rfl⟩ := Option.map_eq_some_iff.mp ht'
    exact ⟨t, heq ▸ ht, hf t timeout_time hresume⟩
  · exact ⟨t', ht', hresume⟩

theorem Quiet.freed (h : Freed k k') : Quiet uaddr k k' := by
  refine .of_futexes (by rw [h.same]) fun q t' ht' _ hresume => ?_
  rcases h.tasks q with hsame | ⟨hnone, _⟩
  · exact ⟨t', hsame ▸ ht', hresume⟩
  · cases hnone.symm.trans ht'

theorem Quiet.reparent (cs : List Nat) (k : Kernel) : Quiet uaddr k (cs.foldl Kernel.reparent k) := by
  induction cs generalizing k with
  | nil => exact .refl k
  | cons c cs ih =>
    refine Quiet.trans ?_ (ih (k.reparent c))
    exact (Quiet.modify k c (by exact fun _ _ h => h)).trans (.modify _ INITPROC (by exact fun _ _ h => h))

theorem cancel_thread_quiet (k : Kernel) (p : Nat) (t : TaskControlBlock) :
    Meets (k.cancel_thread p t) (· ≠ .noWaiter) (Quiet uaddr k) := by
  unfold cancel_thread
  split
  · exact nofun
  · next q _ =>
    split
    · exact nofun
    · split
      · dsimp only
        split
        · exact (Quiet.modify k q (by exact fun _ _ h => h)).trans (.of_eq rfl rfl)
        · exact nofun
      · exact nofun

theorem wake_clear_child_tid_quiet (h : k.futexes.Counted) (t : TaskControlBlock) :
    Meets (k.wake_clear_child_tid t) (· ≠ .noWaiter) (Quiet t.clear_child_tid k) := by
  unfold wake_clear_child_tid
  split
  · exact .refl k
  · obtain ⟨k', hwake, hperforms⟩ := futex_wake_chains h t.clear_child_tid 1
    rw [hwake]
    refine ⟨⟨_, hperforms.chains⟩, fun _ => hperforms.counted, fun p t' ht' _ hresume => ?_⟩
    have htasks : k'.tasks = k.tasks := by rw [hperforms.same]
    exact ⟨t', htasks ▸ ht', hresume⟩

theorem exit_quiet (h : k.futexes.Counted) (hcurrent : k.current = some p)
    (ht : k.tasks p = some t) (exit_code : Int) :
    Meets (k.exit_current_and_run_next exit_code) (· ≠ .noWaiter) (Quiet t.clear_child_tid k) := by
  have htask : k.task p = .ok t := by rw [task, ht]
  rw [exit_current_and_run_next, hcurrent]
  dsimp only
  rw [htask, ok_bind]
  split
  · intro h
    cases h
  · generalize hk₀ : ({ k with current := none, pid2tcb := k.pid2tcb.erase p } : Kernel) = k₀
    have hstart : Quiet t.clear_child_tid k k₀ := hk₀ ▸ .of_eq rfl rfl
    refine (wake_clear_child_tid_quiet (hstart.counted h) t).bind fun k₁ h₁ => ?_
    have hzombie : Quiet t.clear_child_tid k (t.children.foldl Kernel.reparent (k₁.modify p fun t =>
        { t with task_status := .Zombie, exit_code := exit_code })) :=
      ((hstart.trans h₁).trans (.modify k₁ p (by exact fun _ _ h => h))).trans (.reparent _ _)
    split
    · intro h
      cases h
    · split
      · intro h
        cases h
      · split
        · exact (cancel_thread_quiet _ p t).bind fun k₂ h₂ =>
            (hzombie.trans h₂).trans (.of_eq rfl rfl)
        · exact (hzombie.trans (.freed (Freed.drop _ _ p))).trans (.of_eq rfl rfl)

theorem handle_signals_quiet (sigactions : Nat → SigAction) (fuel : Nat) :
    ∀ {k : Kernel} {t : TaskControlBlock}, k.futexes.Counted → k.current = some p →
      k.tasks p = some t → Meets (k.handle_signals sigactions p fuel) (· ≠ .noWaiter) fun r =>
        Quiet t.clear_child_tid k r.2 := by
  induction fuel with
  | zero => exact fun _ _ _ => .refl _
  | succ fuel ih =>
    intro k t h hcurrent ht
    have htask : k.task p = .ok t := by rw [task, ht]
    rw [handle_signals, htask, ok_bind]
    split
    · exact .refl k
    · next signum _ =>
      generalize hk₁ : k.modify p (fun t => { t with
        pending_signals := t.pending_signals.sub signum }) = k₁
      have h₁ : Quiet t.clear_child_tid k k₁ := hk₁ ▸ .modify k p (by exact fun _ _ h => h)
      have hcurrent₁ : k₁.current = some p := hk₁ ▸ hcurrent
      have ht₁ : k₁.tasks p = some { t with
          pending_signals := t.pending_signals.sub signum } := by
        rw [← hk₁, tasks_modify, if_pos rfl, ht]
        rfl
      dsimp only
      split
      · exact (ih (h₁.counted h) hcurrent₁ ht₁).mono fun r hr => h₁.trans hr
      · split
        · split
          · exact (exit_quiet (h₁.counted h) hcurrent₁ ht₁ _).bind fun k₂ h₂ => h₁.trans h₂
          · exact h₁
        · exact h₁.trans (.modify k₁ p (by exact fun _ _ h => h))

theorem exec_signal_handlers_quiet (h : k.futexes.Counted) (hcurrent : k.current = some p)
    (ht : k.tasks p = some t) (sigactions : Nat → SigAction) :
    Meets (k.exec_signal_handlers sigactions) (· ≠ .noWaiter) fun r =>
      Quiet t.clear_child_tid k r.2 := by
  rw [exec_signal_handlers, hcurrent]
  exact handle_signals_quiet sigactions 64 h hcurrent ht

theorem suspend_quiet (h : k.futexes.Counted) (hcurrent : k.current = some p)
    (ht : k.tasks p = some t) (sigactions : Nat → SigAction) :
    Meets (k.suspend_current_and_run_next sigactions) (· ≠ .noWaiter)
      (Quiet t.clear_child_tid k) := by
  refine (exec_signal_handlers_quiet h hcurrent ht sigactions).bind fun r hr => ?_
  dsimp only
  split
  · exact hr
  · split
    · exact nofun
    · next q _ => exact (hr.trans (.modify _ q (by exact fun _ _ h => h))).trans (.of_eq rfl rfl)

theorem wait4_loop_quiet (h : k.futexes.Counted) (hcurrent : k.current = some p)
    (ht : k.tasks p = some t) (pid : Int) (sigactions : Nat → SigAction) :
    Meets (k.wait4_loop p t pid sigactions) (· ≠ .noWaiter) (Quiet t.clear_child_tid k) := by
  unfold wait4_loop
  split
  · dsimp only
    split
    · exact (Quiet.modify k p (by rintro _ _ ⟨⟩)).trans (.freed (Freed.drop _ _ _))
    · exact nofun
  · generalize hk₁ : k.modify p (fun t => { t with resume := .wait4 pid }) = k₁
    have h₁ : Quiet t.clear_child_tid k k₁ := hk₁ ▸ .modify k p (by rintro _ _ ⟨⟩)
    have ht₁ : k₁.tasks p = some { t with resume := .wait4 pid } := by
      rw [← hk₁, tasks_modify, if_pos rfl, ht]
      rfl
    exact (suspend_quiet (h₁.counted h) (hk₁ ▸ hcurrent) ht₁ sigactions).mono fun k₂ h₂ =>
      h₁.trans h₂

theorem Quiet.chains_eq (h : Quiet uaddr k k') :
    k'.chains = (ChainEvent.wake uaddr ((k.chains uaddr).length - (k'.chains uaddr).length)).apply
      (.new 0 0 0) k.chains := by
  obtain ⟨n, hn⟩ := h.chains
  have hlen : (k'.chains uaddr).length = (k.chains uaddr).length - n := by
    rw [hn, ChainEvent.apply, Function.update_self, List.length_drop]
  rw [hlen, hn, ChainEvent.apply, ChainEvent.apply]
  refine congrArg _ ?_
  rcases Nat.le_total n (k.chains uaddr).length with hle | hge
  · rw [Nat.sub_sub_self hle]
  · rw [Nat.sub_eq_zero_of_le hge, Nat.sub_zero, List.drop_length, List.drop_of_length_le hge]

end Quiet

end Kernel

namespace FutexMap

/-- The queue from which `pop_expired` takes a waiter, and its place there. -/
def expiring (m : FutexMap) (now pick : Nat) : Option (Nat × Nat) :=
  let expired := m.entries.filter fun e => e.2.chain.any (FutexWaiter.check_expire now)
  expired[pick % expired.length]?.map fun e =>
    (e.1, e.2.chain.findIdx (FutexWaiter.check_expire now))

variable {m m' : FutexMap} {now pick p : Nat}

theorem pop_expired_none (h : m.pop_expired now pick = none) : m.expiring now pick = none := by
  unfold FutexMap.pop_expired at h
  dsimp only at h
  unfold FutexMap.expiring
  dsimp only
  split at h
  · next hpick => rw [hpick, Option.map_none]
  · next e hpick =>
    have hany := (List.mem_filter.mp (List.mem_of_getElem? hpick)).2
    obtain ⟨w, hw, hexpired⟩ := List.any_eq_true.mp hany
    rw [Option.map_eq_none_iff, FutexQueue.pop_expire_waiter] at h
    split at h
    · next hfind => exact absurd hexpired (List.find?_eq_none.mp hfind w hw)
    · cases h

/-- The first expired waiter of its queue leaves. -/
theorem pop_expired_some (hm : m.Counted) (h : m.pop_expired now pick = some (p, m')) :
    ∃ uaddr i, m.expiring now pick = some (uaddr, i) ∧ m'.Counted ∧
      (∃ w, (m.queue uaddr).chain[i]? = some w ∧ w.task = p ∧ w.expire_time ≤ now) ∧
      (fun a => (m'.queue a).chain) =
        Function.update (fun a => (m.queue a).chain) uaddr ((m.queue uaddr).chain.eraseIdx i) := by
  unfold FutexMap.pop_expired at h
  dsimp only at h
  unfold FutexMap.expiring
  dsimp only
  split at h
  · cases h
  · next e hpick =>
    have hmem : e ∈ m.entries := List.mem_of_mem_filter (List.mem_of_getElem? hpick)
    have hlookup : m.lookup e.1 = some e.2 := AList.mem_lookup_iff.mpr hmem
    have hqueue : m.queue e.1 = e.2 := by
      rw [FutexMap.queue, hlookup]
      rfl
    obtain ⟨⟨task, q'⟩, hpop, heq⟩ := Option.map_eq_some_iff.mp h
    cases heq
    have hcounted := @Counted.insert m e.1 q' hm
      (FutexQueue.length_pop_expire hpop (hm e.1 e.2 hlookup))
    refine ⟨e.1, _, by rw [hpick]; rfl, hcounted, ?_⟩
    rw [FutexQueue.pop_expire_waiter] at hpop
    split at hpop
    · cases hpop
    · next w hfind =>
      cases hpop
      have hw := List.mem_of_find?_eq_some hfind
      have hexpired := List.find?_some hfind
      have hany : ∃ v ∈ e.2.chain, FutexWaiter.check_expire now v = true := ⟨w, hw, hexpired⟩
      have hlt := List.findIdx_lt_length_of_exists hany
      have hidx : e.2.chain.findIdx? (FutexWaiter.check_expire now) =
          some (e.2.chain.findIdx (FutexWaiter.check_expire now)) := by
        rw [List.findIdx?_eq_some_iff_findIdx_eq]
        exact ⟨hlt, rfl⟩
      rw [hqueue]
      constructor
      · rw [List.find?_eq_getElem?_findIdx] at hfind
        exact ⟨w, hfind, rfl, of_decide_eq_true hexpired⟩
      · funext a
        rw [FutexMap.queue_insert, Function.update_apply, List.eraseP_eq_eraseIdx, hidx,
          apply_ite FutexQueue.chain]

end FutexMap

namespace Kernel

/-- The waiter that the current task makes in a call of `futex_wait`. -/
def pushed (k : Kernel) : KernelOp → FutexWaiter
  | .sys_futex _ _ _ val2 _ timeout _ now =>
    .new (k.current.getD 0) now (if val2 = 0 then 2 ^ 64 - 1 else timeout)
  | _ => .new 0 0 0

/-- The wake of a task that exits, if it does. -/
def exit_event (k k' : Kernel) : ChainEvent :=
  match k.current.bind k.tasks with
  | some t => .wake t.clear_child_tid
    ((k.chains t.clear_child_tid).length - (k'.chains t.clear_child_tid).length)
  | none => .wake 0 0

/-- What happens to the chains in a step. -/
def event (k : Kernel) (op : KernelOp) (k' : Kernel) : ChainEvent :=
  match op with
  | .sys_futex uaddr futex_op val val2 uaddr2 _ word _ =>
    let option := (BitVec.ofNat 64 futex_op &&& ~~~384#64).toNat
    let n := min val ((k.chains uaddr).length % 2 ^ 32)
    if futex_op.testBit 8 ∧ option ≠ FUTEX_WAIT then .wake uaddr 0
    else if option = FUTEX_WAIT then if word = val then .push uaddr else .wake uaddr 0
    else if option = FUTEX_WAKE then .wake uaddr n
    else .requeue uaddr n uaddr2
      (min (val2 % 2 ^ 32) (((k.chains uaddr).length - n) % 2 ^ 32))
  | .dispatch now pick =>
    match k.manager.check_hanging now pick,
      k.manager.waiting_queue.find? (fun p => (k.tasks p).any (·.interrupted)),
      k.futexes.expiring now pick with
    | none, none, some (uaddr, index) => .expire uaddr index
    | _, _, _ => .wake 0 0
  | _ => k.exit_event k'

/-- The chains change by the event of the step, and a task comes to wait by a `push` alone. -/
structure Follows (k : Kernel) (op : KernelOp) (k' : Kernel) : Prop where
  counted : k'.futexes.Counted
  chains : k'.chains = (k.event op k').apply (k.pushed op) k.chains
  waits : ∀ p t', k'.tasks p = some t' → ∀ timeout_time, t'.resume = .futex_wait timeout_time →
    ((∃ uaddr, k.event op k' = .push uaddr) → k.current ≠ some p) ∧
        (∃ t, k.tasks p = some t ∧ t.resume = .futex_wait timeout_time) ∨
      (∃ uaddr, k.event op k' = .push uaddr) ∧ k.current = some p ∧
        timeout_time ≤ (k.pushed op).expire_time
  expired : ∀ uaddr i, k.event op k' = .expire uaddr i → ∃ now pick, op = .dispatch now pick ∧
    ∃ w, (k.chains uaddr)[i]? = some w ∧ w.expire_time ≤ now

section Step

variable {k k' : Kernel} {p : Nat} {t : TaskControlBlock} {op : KernelOp}

/-- A step in which at most an exiting task wakes a waiter. -/
theorem Quiet.follows (hk : k.futexes.Counted) (hcurrent : k.current = some p)
    (ht : k.tasks p = some t) (hop : k.event op k' = k.exit_event k')
    (h : Quiet t.clear_child_tid k k') : k.Follows op k' := by
  have hevent : k.event op k' = .wake t.clear_child_tid
      ((k.chains t.clear_child_tid).length - (k'.chains t.clear_child_tid).length) := by
    rw [hop, exit_event, hcurrent, Option.bind_some, ht]
  refine ⟨h.counted hk, ?_, fun q t' ht' _ hresume => Or.inl ⟨?_, h.waits q t' ht' _ hresume⟩,
    fun _ _ hexpire => ?_⟩
  · rw [hevent]
    exact h.chains_eq
  · rintro ⟨_, hpush⟩
    cases hevent.symm.trans hpush
  · cases hevent.symm.trans hexpire

/-- A step that leaves the chains alone. -/
theorem Quiet.follows_still (hk : k.futexes.Counted) (h : Quiet 0 k k')
    (hfutexes : k'.futexes = k.futexes) (hop : ∃ uaddr, k.event op k' = .wake uaddr 0) :
    k.Follows op k' where
  counted := h.counted hk
  chains := by
    obtain ⟨uaddr, hop⟩ := hop
    rw [hop, ChainEvent.apply_wake_zero]
    exact funext fun a => congrArg (fun m => (FutexMap.queue m a).chain) hfutexes
  waits q t' ht' _ hresume := by
    obtain ⟨uaddr, hop⟩ := hop
    refine Or.inl ⟨?_, h.waits q t' ht' _ hresume⟩
    rintro ⟨_, hpush⟩
    cases hop.symm.trans hpush
  expired _ _ hexpire := by
    obtain ⟨uaddr, hop⟩ := hop
    cases hop.symm.trans hexpire

theorem user_waits (k : Kernel) : Meets k.user (· ≠ .noWaiter) fun r =>
    k.phase = .running ∧ k.current = some r.1 ∧ k.tasks r.1 = some r.2 := by
  unfold user
  split
  · next p hphase hcurrent =>
    unfold task
    split
    · next t ht =>
      rw [ok_bind]
      split
      · exact ⟨hphase, hcurrent, ht⟩
      · exact nofun
    · exact nofun
  · exact nofun

theorem futex_wait_follows (hk : k.futexes.Counted) (hcurrent : k.current = some p)
    {uaddr val timeout word now : Nat}
    (hop : ∀ k', k.event op k' = if word = val then .push uaddr else .wake uaddr 0)
    (hpushed : k.pushed op = .new p now timeout) :
    k.Follows op (k.futex_wait p uaddr val timeout word now) := by
  have hchains := futex_wait_chains k p uaddr val timeout word now hk
  rcases eq_or_ne word val with heq | hne
  · rw [if_pos heq] at hchains
    simp only [if_pos heq] at hop
    refine ⟨?_, ?_, fun q t' ht' timeout_time hresume => ?_, fun a i hexpire => ?_⟩
    · have hq := hk.queue uaddr
      rw [futex_wait]
      dsimp only
      rw [if_neg (not_not.mpr heq)]
      apply hk.insert
      simp only [FutexQueue.push_back, List.length_append, List.length_singleton, hq]
    · rw [hop, hpushed]
      exact hchains
    · rw [futex_wait] at ht'
      dsimp only at ht'
      rw [if_neg (not_not.mpr heq)] at ht'
      have hmodify := tasks_modify.symm.trans ht'
      split at hmodify
      · next hqp =>
        obtain ⟨u, _, rfl⟩ := Option.map_eq_some_iff.mp hmodify
        cases hresume
        refine Or.inr ⟨⟨uaddr, hop _⟩, hqp ▸ hcurrent, ?_⟩
        rw [hpushed]
        exact FutexWaiter.le_expire_time p now timeout
      · next hqp =>
        refine Or.inl ⟨fun _ hq => hqp ?_, t', hmodify, hresume⟩
        exact Option.some.inj (hq.symm.trans hcurrent)
    · cases (hop _).symm.trans hexpire
  · rw [if_neg hne] at hchains
    simp only [if_neg hne] at hop
    have hwait : k.futex_wait p uaddr val timeout word now =
        { k with futexes := k.futexes.put uaddr (k.futexes.queue uaddr) } := by
      rw [futex_wait]
      dsimp only
      rw [if_pos hne]
    refine ⟨?_, ?_, fun q t' ht' _ hresume => ?_, fun a i hexpire => ?_⟩
    · rw [hwait]
      exact hk.put (hk.queue uaddr)
    · rw [hop, ChainEvent.apply_wake_zero]
      exact hchains
    · rw [hwait] at ht'
      refine Or.inl ⟨?_, t', ht', hresume⟩
      rintro ⟨_, hpush⟩
      cases (hop _).symm.trans hpush
    · cases (hop _).symm.trans hexpire

theorem Performs.follows {e : ChainEvent} (h : k.Performs e k') (hop : k.event op k' = e)
    (happly : ∀ x, e.apply x k.chains = e.apply (.new 0 0 0) k.chains)
    (hpush : ∀ uaddr, e ≠ .push uaddr) (hexpire : ∀ uaddr i, e ≠ .expire uaddr i) :
    k.Follows op k' where
  counted := h.counted
  chains := by
    rw [hop, happly]
    exact h.chains
  waits q t' ht' _ hresume := by
    rw [h.same] at ht'
    refine Or.inl ⟨?_, t', ht', hresume⟩
    rintro ⟨uaddr, heq⟩
    exact absurd (hop.symm.trans heq) (hpush uaddr)
  expired uaddr i heq := absurd (hop.symm.trans heq) (hexpire uaddr i)

theorem sys_futex_follows (hk : k.futexes.Counted) (hcurrent : k.current = some p)
    (uaddr futex_op val val2 uaddr2 timeout word now : Nat) :
    Meets (k.sys_futex p uaddr futex_op val val2 uaddr2 timeout word now) (· ≠ .noWaiter)
      (k.Follows (.sys_futex uaddr futex_op val val2 uaddr2 timeout word now)) := by
  unfold sys_futex
  dsimp only
  split
  · next hclock =>
    refine Quiet.follows_still hk (.refl k) rfl ⟨uaddr, ?_⟩
    simp only [event, if_pos hclock]
  · next hclock =>
    split
    · next hwait =>
      refine futex_wait_follows hk hcurrent (fun k' => ?_) ?_
      · simp only [event, if_neg hclock, if_pos hwait]
      · rw [pushed, hcurrent]
        rfl
    · next hwait =>
      split
      · next hwake =>
        obtain ⟨k', hcall, h⟩ := futex_wake_chains hk uaddr val
        rw [hcall]
        refine h.follows ?_ (fun _ => rfl) nofun nofun
        simp only [event, if_neg hclock, if_neg hwait, if_pos hwake]
      · next hwake =>
        split
        · obtain ⟨k', hcall, h⟩ := futex_requeue_chains hk uaddr val uaddr2 (val2 % 2 ^ 32)
          rw [hcall]
          refine h.follows ?_ (fun _ => rfl) nofun nofun
          simp only [event, if_neg hclock, if_neg hwait, if_neg hwake]
        · exact nofun

/-- The next task is taken from a queue of the scheduler. -/
theorem run_task_follows (hk : k.futexes.Counted) (manager : TaskManager) (p : Nat)
    (hop : ∃ uaddr, k.event op ({ k with manager := manager }.run_task p) = .wake uaddr 0) :
    k.Follows op ({ k with manager := manager }.run_task p) := by
  have hmodify : Quiet 0 { k with manager := manager }
      (Kernel.modify { k with manager := manager } p fun t => { t with task_status := .Running }) :=
    .modify _ p fun _ _ h => h
  have hquiet : Quiet 0 k { k with manager := manager } := .of_eq rfl rfl
  exact Quiet.follows_still hk ((hquiet.trans hmodify).trans (.of_eq rfl rfl)) rfl hop

theorem dispatch_follows (hk : k.futexes.Counted) (now pick : Nat) :
    Meets (k.dispatch now pick) (· ≠ .noWaiter) (k.Follows (.dispatch now pick)) := by
  unfold Kernel.dispatch
  split
  · split
    · next p manager hcheck =>
      refine run_task_follows hk manager p ⟨0, ?_⟩
      simp only [event, hcheck]
    · next hcheck =>
      split
      · next p k' hwoken =>
        unfold check_futex_interupt_or_expire at hwoken
        split at hwoken
        · next q hfind =>
          cases hwoken
          refine Quiet.follows_still hk (.of_eq rfl rfl) rfl ⟨0, ?_⟩
          simp only [event, hcheck, hfind]
        · next hfind =>
          obtain ⟨⟨q, futexes⟩, hpop, heq⟩ := Option.map_eq_some_iff.mp hwoken
          cases heq
          obtain ⟨uaddr, i, hexpiring, hcounted, ⟨w, hw, _, hexpired⟩, hchains⟩ :=
            FutexMap.pop_expired_some hk hpop
          have hop : ∀ k', k.event (.dispatch now pick) k' = .expire uaddr i := by
            intro k'
            simp only [event, hcheck, hfind, hexpiring]
          refine ⟨hcounted, ?_, fun q t' ht' _ hresume => Or.inl ⟨?_, t', ht', hresume⟩,
            fun a j hexpire => ?_⟩
          · rw [hop]
            exact hchains
          · rintro ⟨_, hpush⟩
            cases (hop _).symm.trans hpush
          · cases (hop _).symm.trans hexpire
            exact ⟨now, pick, rfl, w, hw, hexpired⟩
      · next hwoken =>
        unfold check_futex_interupt_or_expire at hwoken
        split at hwoken
        · cases hwoken
        · next hfind =>
          have hexpiring := FutexMap.pop_expired_none (Option.map_eq_none_iff.mp hwoken)
          split
          · next p manager _ =>
            refine run_task_follows hk manager p ⟨0, ?_⟩
            simp only [event, hcheck, hfind, hexpiring]
          · refine Quiet.follows_still hk (.of_eq rfl rfl) rfl ⟨0, ?_⟩
            simp only [event, hcheck, hfind, hexpiring]
  · exact nofun
  · exact nofun

theorem put_away_follows (hk : k.futexes.Counted) :
    Meets k.put_away (· ≠ .noWaiter) (k.Follows .put_away) := by
  have hlast : Quiet 0 k k.take_last ∧ k.take_last.futexes = k.futexes := by
    unfold take_last
    split
    · exact ⟨.refl k, rfl⟩
    · split <;> exact ⟨.of_eq rfl rfl, rfl⟩
  unfold put_away
  split
  · have hfreed := Freed.foldl_drop k.take_last.next_pid k.take_last.cleaner
      { k.take_last with cleaner := [] }
    have hcleaner : Quiet 0 k.take_last { k.take_last with cleaner := [] } := .of_eq rfl rfl
    have hfutexes : k.take_last.recycle_child_threads_res.futexes = k.futexes := by
      rw [recycle_child_threads_res, hfreed.same]
      exact hlast.2
    have hclean : Quiet 0 k k.take_last.recycle_child_threads_res :=
      hlast.1.trans (hcleaner.trans (.freed hfreed))
    refine Quiet.follows_still hk (hclean.trans (.of_eq rfl rfl)) hfutexes ?_
    have hchains : chains { k.take_last.recycle_child_threads_res with phase := .idle } = k.chains :=
      funext fun a => congrArg (fun m => (FutexMap.queue m a).chain) hfutexes
    show ∃ uaddr, k.exit_event _ = _
    unfold exit_event
    rw [hchains]
    split
    · next t _ => exact ⟨t.clear_child_tid, by rw [Nat.sub_self]⟩
    · exact ⟨0, rfl⟩
  · exact nofun
  · exact nofun

/-- Every step changes the chains by its event, and never pops from an empty one. -/
theorem step_follows (hk : k.futexes.Counted) (op : KernelOp) :
    Meets (k.step op) (· ≠ .noWaiter) (k.Follows op) := by
  cases op with
  | suspend sigactions =>
    refine k.user_waits.bind fun r ⟨_, hcurrent, ht⟩ => ?_
    exact (suspend_quiet hk hcurrent ht sigactions).mono fun k' h => h.follows hk hcurrent ht rfl
  | exec_signal_handlers sigactions =>
    refine k.user_waits.bind fun r ⟨_, hcurrent, ht⟩ => ?_
    exact (exec_signal_handlers_quiet hk hcurrent ht sigactions).bind fun r h =>
      h.follows hk hcurrent ht rfl
  | sys_exit exit_code =>
    refine k.user_waits.bind fun r ⟨_, hcurrent, ht⟩ => ?_
    exact (exit_quiet hk hcurrent ht exit_code).mono fun k' h => h.follows hk hcurrent ht rfl
  | sys_do_fork flags ctid =>
    refine k.user_waits.bind fun r ⟨_, hcurrent, ht⟩ => ?_
    show Meets (k.sys_do_fork r.1 r.2 flags ctid) _ _
    unfold sys_do_fork
    split
    · exact nofun
    · have hmodify : Quiet r.2.clear_child_tid k (k.modify r.1 fun t => { t with
          children := t.children ++ [k.next_pid] }) := .modify k r.1 fun _ _ h => h
      refine Quiet.follows hk hcurrent ht rfl (hmodify.trans
        (.of_futexes rfl fun q t' ht' _ hresume => ?_))
      have hupdate := (Function.update_apply ..).symm.trans ht'
      split at hupdate
      · cases hupdate
        cases hresume
      · exact ⟨t', hupdate, hresume⟩
  | sys_exec =>
    refine k.user_waits.bind fun r ⟨_, hcurrent, ht⟩ => ?_
    show Meets (k.sys_exec r.1 r.2) _ _
    unfold sys_exec
    split
    · exact (Quiet.refl k).follows hk hcurrent ht rfl
    · exact nofun
  | sys_wait4 pid sigactions =>
    refine k.user_waits.bind fun r ⟨_, hcurrent, ht⟩ => ?_
    show Meets (k.sys_wait4 r.1 r.2 pid sigactions) _ _
    unfold sys_wait4
    split
    · exact (Quiet.refl k).follows hk hcurrent ht rfl
    · split
      · exact (Quiet.refl k).follows hk hcurrent ht rfl
      · exact (wait4_loop_quiet hk hcurrent ht pid sigactions).mono fun k' h =>
          h.follows hk hcurrent ht rfl
  | resume sigactions =>
    show Meets (k.resume sigactions) _ _
    unfold Kernel.resume
    split
    · next p _ hcurrent =>
      unfold task
      split
      · next t ht =>
        rw [ok_bind]
        split
        · exact nofun
        · exact (wait4_loop_quiet hk hcurrent ht _ sigactions).mono fun k' h =>
            h.follows hk hcurrent ht rfl
        · exact Quiet.follows hk hcurrent ht rfl (.modify k p (by rintro _ _ ⟨⟩))
      · exact nofun
    · exact nofun
  | sys_kill pid signal =>
    refine k.user_waits.bind fun r ⟨_, hcurrent, ht⟩ => ?_
    show k.Follows _ (k.sys_kill pid signal)
    unfold Kernel.sys_kill
    dsimp only
    split
    · exact (Quiet.refl k).follows hk hcurrent ht rfl
    · exact Quiet.follows hk hcurrent ht rfl (.modify k pid (by exact fun _ _ h => h))
  | add_signal signal =>
    refine k.user_waits.bind fun r ⟨_, hcurrent, ht⟩ => ?_
    exact Quiet.follows hk hcurrent ht rfl (.modify k r.1 (by exact fun _ _ h => h))
  | set_sigmask sigmask =>
    refine k.user_waits.bind fun r ⟨_, hcurrent, ht⟩ => ?_
    exact Quiet.follows hk hcurrent ht rfl (.modify k r.1 (by exact fun _ _ h => h))
  | sys_set_tid_address tidptr =>
    refine k.user_waits.bind fun r ⟨_, hcurrent, ht⟩ => ?_
    exact Quiet.follows hk hcurrent ht rfl (.modify k r.1 (by exact fun _ _ h => h))
  | hang sleep_time duration =>
    refine k.user_waits.bind fun r ⟨_, hcurrent, ht⟩ => ?_
    exact Quiet.follows hk hcurrent ht rfl
      ((Quiet.modify k r.1 (by exact fun _ _ h => h)).trans (.of_eq rfl rfl))
  | sys_futex uaddr futex_op val val2 uaddr2 timeout word now =>
    refine k.user_waits.bind fun r ⟨_, hcurrent, _⟩ => ?_
    exact sys_futex_follows hk hcurrent uaddr futex_op val val2 uaddr2 timeout word now
  | put_away => exact put_away_follows hk
  | dispatch now pick => exact dispatch_follows hk now pick

end Step

section Heap

def KERNEL_HEAP_SIZE : Nat := 4096 * 8192 * 2

/-- The bytes of the waiters in the kernel heap, 16 for each. -/
def waiter_bytes (k : Kernel) : Nat := MapTotal.total (fun q => 16 * q.chain.length) k.futexes

inductive HeapPanic where
  | task (e : TaskPanic)
  /-- "Heap allocation error" -/
  | heap

/-- A step of the kernel with its heap. -/
def heap_step (k : Kernel) (op : KernelOp) : Except HeapPanic Kernel :=
  match k.step op with
  | .error e => .error (.task e)
  | .ok k' => if k'.waiter_bytes ≤ KERNEL_HEAP_SIZE then .ok k' else .error .heap

variable {k k' : Kernel} {op : KernelOp}

theorem heap_step_ok (h : k.heap_step op = .ok k') :
    k.step op = .ok k' ∧ k'.waiter_bytes ≤ KERNEL_HEAP_SIZE := by
  unfold heap_step at h
  split at h
  · cases h
  · next hstep =>
    split at h
    · cases h
      exact ⟨hstep, ‹_›⟩
    · cases h

theorem counted_heap_states (ops : List KernelOp) : ∀ k ∈ states heap_step boot ops,
    k.futexes.Counted ∧ k.waiter_bytes ≤ KERNEL_HEAP_SIZE := by
  refine invariant (fun k : Kernel => k.futexes.Counted ∧ k.waiter_bytes ≤ KERNEL_HEAP_SIZE) ?_ ?_
    (Guarded.of_forall (C := fun _ _ => True) (fun _ _ => trivial) ops _)
  · intro k op k' hk _ hstep
    obtain ⟨hstep, hheap⟩ := heap_step_ok hstep
    exact ⟨((step_follows hk.1 op).of_ok hstep).counted, hheap⟩
  · refine ⟨(@boot_waiting True).counted, ?_⟩
    rw [waiter_bytes]
    exact Nat.zero_le _

theorem length_chain_lt (h : k.waiter_bytes ≤ KERNEL_HEAP_SIZE) (uaddr : Nat) :
    (k.chains uaddr).length < 2 ^ 32 := by
  cases hlookup : k.futexes.lookup uaddr with
  | none =>
    rw [chain_of_lookup_none hlookup]
    decide
  | some q =>
    have hle := MapTotal.le_total (f := fun q : FutexQueue => 16 * q.chain.length) hlookup
    have hsize : 16 * q.chain.length ≤ KERNEL_HEAP_SIZE := hle.trans h
    rw [chain_of_lookup hlookup]
    rw [KERNEL_HEAP_SIZE] at hsize
    omega

/-- In every state that the kernel reaches on its heap, the counters are right, a wake takes the
first waiters and a requeue moves the next ones to the end of the other chain. Every step changes
the chains by one event. -/
theorem futex_queues_conserve (ops : List KernelOp) : ∀ k ∈ states heap_step boot ops,
    k.futexes.Counted ∧
    (∀ uaddr nr_wake, let n := min nr_wake (k.chains uaddr).length
      ∃ k', k.futex_wake uaddr nr_wake = .ok (n, k') ∧ k.Performs (.wake uaddr n) k') ∧
    (∀ uaddr nr_wake uaddr2 nr_limit, let n := min nr_wake (k.chains uaddr).length
      ∃ k', k.futex_requeue uaddr nr_wake uaddr2 nr_limit = .ok (n, k') ∧
        k.Performs (.requeue uaddr n uaddr2 (min nr_limit ((k.chains uaddr).length - n))) k') ∧
    ∀ op, Meets (k.step op) (· ≠ .noWaiter) (k.Follows op) := by
  intro k hk
  obtain ⟨hcounted, hheap⟩ := counted_heap_states ops k hk
  have hmod (uaddr : Nat) : (k.chains uaddr).length % 2 ^ 32 = (k.chains uaddr).length :=
    Nat.mod_eq_of_lt (length_chain_lt hheap uaddr)
  refine ⟨hcounted, fun uaddr nr_wake => ?_, fun uaddr nr_wake uaddr2 nr_limit => ?_,
    step_follows hcounted⟩
  · have hwake := futex_wake_chains hcounted uaddr nr_wake
    rw [hmod] at hwake
    exact hwake
  · have hrequeue := futex_requeue_chains hcounted uaddr nr_wake uaddr2 nr_limit
    rw [hmod] at hrequeue
    dsimp only at hrequeue
    rw [Nat.mod_eq_of_lt (Nat.lt_of_le_of_lt (Nat.sub_le _ _) (length_chain_lt hheap uaddr))]
      at hrequeue
    exact hrequeue

theorem futex_queues_conserve_once : ∃ k, run heap_step boot wait_run = .ok k ∧
    k.chains 4096 = [⟨0, 2 ^ 64 - 1⟩] ∧
    ∃ k', k.futex_wake 4096 7 = .ok (1, k') ∧ k'.chains 4096 = [] := by
  obtain ⟨k, hk, hchain⟩ : ∃ k, run heap_step boot wait_run = .ok k ∧
      k.chains 4096 = [⟨0, 2 ^ 64 - 1⟩] := Meets.exists_ok (by decide +kernel)
  obtain ⟨k', hwake, hperforms⟩ :=
    (futex_queues_conserve wait_run k (mem_states_of_run hk)).2.1 4096 7
  rw [hchain] at hwake
  refine ⟨k, hk, hchain, k', hwake, ?_⟩
  rw [hperforms.chains, hchain, ChainEvent.apply, Function.update_self, hchain]
  rfl

end Heap

end Kernel

end MyGOS.Task
