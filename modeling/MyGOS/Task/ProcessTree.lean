import MyGOS.Task.Conservation

/-!
# The process tree

While no task exits that still has children, each task but initproc is in one
children list, that of its parent, once; so the reference counts that `wait4`
and the exit of a thread assert are right. A task that exits with children
leaves them in its own list as well as in that of initproc.
-/

namespace MyGOS.Task

open Outcome StepSystem

theorem sum_range_replace {f g : Nat → Nat} {p n : Nat} (hp : p < n) (h : ∀ q, q ≠ p → g q = f q) :
    ((List.range n).map g).sum + f p = ((List.range n).map f).sum + g p := by
  induction n with
  | zero => omega
  | succ n ih =>
    simp only [List.range_succ, List.map_append, List.map_cons, List.map_nil, List.sum_append,
      List.sum_cons, List.sum_nil]
    rcases eq_or_ne p n with rfl | hne
    · have hrest : (List.range p).map g = (List.range p).map f :=
        List.map_congr_left fun q hq => h q (by have := List.mem_range.mp hq; omega)
      rw [hrest]
      omega
    · have := ih (by omega)
      rw [h n hne.symm]
      omega

namespace Kernel

/-- Each task but initproc is in one children list, its parent's, until it is cancelled. -/
def IsTree (k : Kernel) : Prop :=
  ∀ p t, k.tasks p = some t → p ≠ INITPROC → p ∉ k.cleaner →
    k.holders p = 1 ∧ ∃ q, t.parent = some q ∧ p ∈ k.children q

/-- Forks, waits, executions, and exits without children. -/
def Orderly (k : Kernel) : KernelOp → Prop
  | .sys_exit _ => ∀ p ∈ k.current, k.children p = []
  | .suspend _ | .sys_do_fork _ _ | .sys_exec | .sys_wait4 _ _ | .resume _ | .put_away
  | .dispatch _ _ => True
  | _ => False

instance (k : Kernel) (op : KernelOp) : Decidable (k.Orderly op) :=
  match op with
  | .sys_exit _ => inferInstanceAs (Decidable (∀ p ∈ k.current, k.children p = []))
  | .suspend _ | .sys_do_fork _ _ | .sys_exec | .sys_wait4 _ _ | .resume _ | .put_away
  | .dispatch _ _ => inferInstanceAs (Decidable True)
  | .exec_signal_handlers _ | .sys_kill _ _ | .add_signal _ | .set_sigmask _
  | .sys_set_tid_address _ | .hang _ _ | .sys_futex _ _ _ _ _ _ _ _ =>
    inferInstanceAs (Decidable False)

section Children

variable {k : Kernel} {p q c d : Nat} {t : TaskControlBlock}
  {f : TaskControlBlock → TaskControlBlock}

theorem children_of_task (ht : k.tasks p = some t) : k.children p = t.children := by
  rw [children, ht]
  rfl

theorem children_modify (ht : k.tasks p = some t) (q : Nat) :
    (k.modify p f).children q = if q = p then (f t).children else k.children q := by
  rw [children, tasks_modify, ht]
  split <;> rfl

theorem children_modify_of (hf : ∀ t, (f t).children = t.children) (q : Nat) :
    (k.modify p f).children q = k.children q := by
  rw [children, tasks_modify]
  split
  · rename_i heq
    rw [heq, Option.map_map, children]
    exact congrArg (Option.getD · []) (congrArg (Option.map · _) (funext hf))
  · rfl

theorem mem_children (h : c ∈ k.children q) : ∃ t, k.tasks q = some t ∧ c ∈ t.children := by
  rw [children] at h
  cases ht : k.tasks q with
  | none =>
    rw [ht] at h
    cases h
  | some t =>
    rw [ht] at h
    exact ⟨t, rfl, h⟩

theorem holders_modify (ht : k.tasks p = some t) (hp : p < k.next_pid) (c : Nat) :
    (k.modify p f).holders c + t.children.count c = k.holders c + (f t).children.count c := by
  have h := sum_range_replace (f := fun q => (k.children q).count c)
    (g := fun q => ((k.modify p f).children q).count c) hp fun q hne => by
      rw [children_modify ht, if_neg hne]
  rw [children_modify ht, if_pos rfl, children_of_task ht] at h
  exact h

theorem holders_congr {k' : Kernel} (hpid : k'.next_pid = k.next_pid)
    (h : ∀ q, k'.children q = k.children q) (c : Nat) : k'.holders c = k.holders c := by
  rw [holders, holders, hpid]
  simp only [h]

theorem count_le_holders (ht : k.tasks p = some t) (hp : p < k.next_pid) (c : Nat) :
    t.children.count c ≤ k.holders c := by
  have h := holders_modify (f := fun t => { t with children := [] }) ht hp c
  simp only [List.count_nil] at h
  omega

/-- A child in a single list leaves that list. -/
theorem holders_erase (ht : k.tasks p = some t) (hp : p < k.next_pid) (hc : c ∈ t.children)
    (hone : k.holders c = 1) (hf : (f t).children = t.children.erase c) (d : Nat) :
    (k.modify p f).holders d = if d = c then 0 else k.holders d := by
  have h := holders_modify (f := f) ht hp d
  have hle := count_le_holders ht hp d
  rw [hf] at h
  split
  · rename_i heq
    rw [heq] at h hle ⊢
    rw [List.count_erase_self, hone] at h
    have hpos := List.count_pos_iff.mpr hc
    omega
  · rename_i hne
    rw [List.count_erase_of_ne hne] at h
    omega

end Children

end Kernel

open Kernel

/-- A zombie has no children, no frame of its own, and no pid; no signal and no futex is about. -/
structure Tree (k : Kernel) : Prop where
  held : k.IsTree
  unheld : ∀ p, k.tasks p = none ∨ p = INITPROC ∨ p ∈ k.cleaner → k.holders p = 0
  zombie : ∀ p t, k.tasks p = some t → t.is_zombie = true →
    t.children = [] ∧ t.resume = .user ∧ p ∉ k.pid2tcb
  cancelled : k.cleaner = [] ∨ ∃ p t, k.cleaner = [p] ∧ k.tasks p = some t ∧ t.is_zombie = true
  clean : k.phase ≠ .switched → k.cleaner = []
  quiet : ∀ p t, k.tasks p = some t → t.pending_signals = 0
  futexes : k.futexes = ∅
  pids : k.pid2tcb.Nodup

section Steps

variable {k : Kernel} {p q c : Nat} {t tq tc : TaskControlBlock}
  {f : TaskControlBlock → TaskControlBlock}

theorem task_modify_cases (h : (k.modify p f).tasks q = some t) :
    (q = p ∧ ∃ t', k.tasks p = some t' ∧ f t' = t) ∨ (q ≠ p ∧ k.tasks q = some t) := by
  rw [tasks_modify] at h
  split at h
  · rename_i heq
    exact Or.inl ⟨heq, Option.map_eq_some_iff.mp h⟩
  · rename_i hne
    exact Or.inr ⟨hne, h⟩

theorem task_modify_none (h : (k.modify p f).tasks q = none) : k.tasks q = none := by
  rw [tasks_modify] at h
  split at h
  · rename_i heq
    rw [heq]
    exact Option.map_eq_none_iff.mp h
  · exact h

/-- The tree is not about the scheduler. -/
theorem Tree.reschedule (h : Tree k) (manager : TaskManager) (current : Option Nat) {phase : Phase}
    (hphase : phase ≠ .switched → k.cleaner = []) :
    Tree { k with manager := manager, current := current, phase := phase } :=
  ⟨h.held, h.unheld, h.zombie, h.cancelled, hphase, h.quiet, h.futexes, h.pids⟩

/-- A block changes, but not its family. -/
theorem Tree.modify (h : Tree k) (hp : p ∉ k.cleaner)
    (hf : ∀ t, (f t).parent = t.parent ∧ (f t).children = t.children ∧
      (f t).pending_signals = t.pending_signals)
    (hzombie : ∀ t, k.tasks p = some t → (f t).is_zombie = true →
      t.children = [] ∧ (f t).resume = .user ∧ p ∉ k.pid2tcb) : Tree (k.modify p f) := by
  have hchildren (q : Nat) : (k.modify p f).children q = k.children q :=
    children_modify_of (fun t => (hf t).2.1) q
  have hholders (q : Nat) : (k.modify p f).holders q = k.holders q :=
    holders_congr (by rfl) hchildren q
  constructor
  · intro q t' hq hne hclean
    rw [hholders]
    simp only [hchildren]
    obtain ⟨rfl, t, ht, rfl⟩ | ⟨_, ht⟩ := task_modify_cases hq
    · rw [(hf t).1]
      exact h.held q t ht hne hclean
    · exact h.held q t' ht hne hclean
  · intro q hq
    rw [hholders]
    exact h.unheld q (hq.imp_left task_modify_none)
  · intro q t' hq hz
    obtain ⟨rfl, t, ht, rfl⟩ | ⟨_, ht⟩ := task_modify_cases hq
    · rw [(hf t).2.1]
      exact hzombie t ht hz
    · exact h.zombie q t' ht hz
  · obtain hnil | ⟨q, t', hq, ht', hz⟩ := h.cancelled
    · exact Or.inl hnil
    · have hne : q ≠ p := fun heq => hp (by rw [← heq]; exact hq ▸ List.mem_singleton_self q)
      refine Or.inr ⟨q, t', hq, ?_, hz⟩
      rw [tasks_modify, if_neg hne]
      exact ht'
  · exact h.clean
  · intro q t' hq
    obtain ⟨rfl, t, ht, rfl⟩ | ⟨_, ht⟩ := task_modify_cases hq
    · rw [(hf t).2.2]
      exact h.quiet q t ht
    · exact h.quiet q t' ht
  · exact h.futexes
  · exact h.pids

theorem Tree.child (h : Tree k) (hq : k.tasks q = some tq) (hlt : q < k.next_pid)
    (hc : c ∈ tq.children) (htc : k.tasks c = some tc) : c ≠ INITPROC ∧ c ∉ k.cleaner ∧
      k.holders c = 1 := by
  have hpos := List.count_pos_iff.mpr hc
  have hle := count_le_holders hq hlt c
  have hnot : ¬ (k.tasks c = none ∨ c = INITPROC ∨ c ∈ k.cleaner) := fun hor => by
    have := h.unheld c hor
    omega
  have hinit : c ≠ INITPROC := fun heq => hnot (Or.inr (Or.inl heq))
  have hclean : c ∉ k.cleaner := fun hmem => hnot (Or.inr (Or.inr hmem))
  exact ⟨hinit, hclean, (h.held c tc htc hinit hclean).1⟩

/-- A zombie leaves the children of its parent, to be freed. -/
theorem Tree.cancel (h : Tree k) (hclean : k.cleaner = []) (hq : k.tasks q = some tq)
    (hlt : q < k.next_pid) (hc : c ∈ tq.children) (htc : k.tasks c = some tc)
    (hz : tc.is_zombie = true)
    (hf : ∀ t, (f t).parent = t.parent ∧ (f t).children = t.children.erase c ∧
      (f t).pending_signals = t.pending_signals ∧ (f t).task_status = t.task_status) :
    Tree { k.modify q f with cleaner := [c], phase := .switched } := by
  obtain ⟨hinit, _, hone⟩ := h.child hq hlt hc htc
  have hholders := holders_erase hq hlt hc hone (hf tq).2.1
  have hzq : tq.is_zombie = false := by
    by_contra hnot
    rw [(h.zombie q tq hq (by simpa using hnot)).1] at hc
    cases hc
  have hcq : c ≠ q := by
    rintro rfl
    rw [Option.some.inj (htc.symm.trans hq), hzq] at hz
    cases hz
  constructor
  · intro p t hp hne hmem
    have hpc : p ≠ c := fun heq => hmem (heq ▸ List.mem_singleton_self c)
    have hnot : p ∉ k.cleaner := by
      rw [hclean]
      exact List.not_mem_nil
    have hheld : k.holders p = 1 ∧ ∃ q', t.parent = some q' ∧ p ∈ k.children q' := by
      obtain ⟨rfl, t', ht', rfl⟩ | ⟨_, ht⟩ := task_modify_cases hp
      · rw [(hf t').1]
        exact h.held p t' ht' hne hnot
      · exact h.held p t ht hne hnot
    obtain ⟨hp₁, q', hparent, hmem'⟩ := hheld
    constructor
    · refine (hholders p).trans ?_
      rw [if_neg hpc, hp₁]
    · refine ⟨q', hparent, ?_⟩
      show p ∈ (k.modify q f).children q'
      rw [children_modify hq]
      split
      · rename_i heq
        rw [heq, children_of_task hq] at hmem'
        rw [(hf tq).2.1]
        exact (List.mem_erase_of_ne hpc).mpr hmem'
      · exact hmem'
  · intro p hp
    refine (hholders p).trans ?_
    split
    · rfl
    · rename_i hpc
      obtain hnone | heq | hmem := hp
      · exact h.unheld p (Or.inl (task_modify_none hnone))
      · exact h.unheld p (Or.inr (Or.inl heq))
      · exact absurd (List.mem_singleton.mp hmem) hpc
  · intro p t hp hzp
    obtain ⟨rfl, t', ht', rfl⟩ | ⟨_, ht⟩ := task_modify_cases hp
    · rw [Option.some.inj (ht'.symm.trans hq)] at hzp
      rw [TaskControlBlock.is_zombie, (hf tq).2.2.2] at hzp
      rw [TaskControlBlock.is_zombie, hzp] at hzq
      cases hzq
    · exact h.zombie p t ht hzp
  · refine Or.inr ⟨c, tc, rfl, ?_, hz⟩
    show (k.modify q f).tasks c = some tc
    rw [tasks_modify, if_neg hcq]
    exact htc
  · exact fun hphase => absurd rfl hphase
  · intro p t hp
    obtain ⟨rfl, t', ht', rfl⟩ | ⟨_, ht⟩ := task_modify_cases hp
    · rw [(hf t').2.2.1]
      exact h.quiet p t' ht'
    · exact h.quiet p t ht
  · exact h.futexes
  · exact h.pids

theorem children_free (htc : k.tasks c = some tc) (hnil : tc.children = []) (q : Nat) :
    children { k with tasks := Function.update k.tasks c none } q = k.children q := by
  rcases eq_or_ne q c with rfl | hne
  · rw [children_of_task htc, hnil, children]
    show Option.getD (Option.map _ (Function.update k.tasks q none q)) [] = []
    rw [Function.update_self]
    rfl
  · rw [children, children]
    show Option.getD (Option.map _ (Function.update k.tasks c none q)) [] = _
    rw [Function.update_of_ne hne]

/-- The cancelled task is freed. -/
theorem Tree.reap (h : Tree k) (hc : k.cleaner = [c]) :
    Tree { k with tasks := Function.update k.tasks c none, cleaner := [] } := by
  obtain hnil | ⟨c', tc, hc', htc, hz⟩ := h.cancelled
  · rw [hnil] at hc
    cases hc
  rw [hc] at hc'
  cases hc'
  have hchildren (q : Nat) := children_free htc (h.zombie c tc htc hz).1 q
  have hholders (q : Nat) :
      holders { k with tasks := Function.update k.tasks c none } q = k.holders q :=
    holders_congr (by rfl) hchildren q
  have htask {p : Nat} {t : TaskControlBlock} (hp : Function.update k.tasks c none p = some t) :
      p ≠ c ∧ k.tasks p = some t := by
    rcases eq_or_ne p c with rfl | hne
    · rw [Function.update_self] at hp
      cases hp
    · rw [Function.update_of_ne hne] at hp
      exact ⟨hne, hp⟩
  constructor
  · intro p t hp hne _
    obtain ⟨hpc, ht⟩ := htask hp
    obtain ⟨hone, q, hparent, hmem⟩ := h.held p t ht hne (by
      rw [hc]
      exact fun hmem => hpc (List.mem_singleton.mp hmem))
    exact ⟨(hholders p).trans hone, q, hparent, (hchildren q).symm ▸ hmem⟩
  · intro p hp
    refine (hholders p).trans (h.unheld p ?_)
    rcases eq_or_ne p c with rfl | hne
    · exact Or.inr (Or.inr (hc ▸ List.mem_singleton_self p))
    · obtain hnone | heq | hmem := hp
      · have hnone : Function.update k.tasks c none p = none := hnone
        rw [Function.update_of_ne hne] at hnone
        exact Or.inl hnone
      · exact Or.inr (Or.inl heq)
      · cases hmem
  · exact fun p t hp hzp => h.zombie p t (htask hp).2 hzp
  · exact Or.inl rfl
  · exact fun _ => rfl
  · exact fun p t hp => h.quiet p t (htask hp).2
  · exact h.futexes
  · exact h.pids

theorem Scheduled.lt_next_pid (hk : Scheduled k) (ht : k.tasks p = some t) : p < k.next_pid := by
  by_contra hle
  have hfresh := hk.fresh p (Nat.not_lt.mp hle)
  rw [status_of_task ht] at hfresh
  cases hfresh

theorem Scheduled.zombie_unqueued (hk : Scheduled k) (ht : k.tasks p = some t)
    (hz : t.is_zombie = true) : k.manager.count p = 0 ∧ k.slot p = 0 := by
  have honce := hk.once p
  have hdead : k.alive p = false := by
    rw [alive, status_of_task ht]
    simpa [TaskControlBlock.is_zombie] using hz
  rw [hdead] at honce
  simp only [Bool.false_eq_true, if_false] at honce
  omega

theorem Scheduled.executing_alive (hk : Scheduled k) (hrunning : k.phase = .running)
    (hcurrent : k.current = some p) (ht : k.tasks p = some t) : t.is_zombie = false := by
  have halive := (hk.executing hrunning hcurrent).2.1
  rw [alive, status_of_task ht] at halive
  simpa [TaskControlBlock.is_zombie] using halive

/-- A task without children and without references is freed, and no other. -/
theorem drop_leaf (ht : k.tasks p = some t) (hnil : t.children = [])
    (hcount : k.strong_count p = 0) (hpid : 0 < k.next_pid) :
    k.drop k.next_pid p = { k with tasks := Function.update k.tasks p none } := by
  obtain ⟨n, hn⟩ := Nat.exists_eq_succ_of_ne_zero (Nat.ne_of_gt hpid)
  simp only [hn, drop, ht, hcount, if_true, hnil, List.foldl_nil]

/-- What is cancelled has no reference left, but for the cleaner's own. -/
theorem Tree.strong_count (h : Tree k) (hc : k.cleaner = [c]) (hmanager : k.manager.count c = 0)
    (hcurrent : k.current ≠ some c) : Kernel.strong_count { k with cleaner := [] } c = 0 := by
  obtain hnil | ⟨c', tc, hc', htc, hz⟩ := h.cancelled
  · rw [hnil] at hc
    cases hc
  rw [hc] at hc'
  cases hc'
  obtain ⟨_, hresume, hpid⟩ := h.zombie c tc htc hz
  have hholders : k.holders c = 0 := h.unheld c (Or.inr (Or.inr (hc ▸ List.mem_singleton_self c)))
  have hfutex : k.futexes.count c = 0 := by
    rw [h.futexes]
    exact MapTotal.total_empty
  have hself : tc.holds_itself = false := by
    rw [TaskControlBlock.holds_itself, hresume]
  show k.manager.count c + (if k.current = some c then 1 else 0) + k.holders c +
    k.futexes.count c + List.count c [] + k.pid2tcb.count c +
    (if (k.tasks c).any (·.holds_itself) then 1 else 0) = 0
  rw [hmanager, if_neg hcurrent, hholders, hfutex, List.count_nil, List.count_eq_zero_of_not_mem hpid,
    htc, Option.any_some, hself]
  rfl

end Steps

section Operations

variable {k : Kernel} {p c : Nat} {t : TaskControlBlock}

/-- The panics that the tree excludes. -/
def Counted : TaskPanic → Prop
  | .strongCount _ => False
  | _ => True

theorem Kernel.task_counted (k : Kernel) (p : Nat) :
    Meets (k.task p) Counted fun t => k.tasks p = some t := by
  unfold task
  split
  · assumption
  · trivial

theorem Kernel.user_counted (k : Kernel) : Meets k.user Counted fun r =>
    k.phase = .running ∧ k.current = some r.1 ∧ k.tasks r.1 = some r.2 ∧ r.2.resume = .user := by
  unfold user
  split
  · rename_i p hphase hcurrent
    apply (k.task_counted p).bind
    intro t ht
    split
    · rename_i hresume
      exact ⟨hphase, hcurrent, ht, hresume⟩
    · trivial
  · trivial

theorem Tree.running (h : Tree k) (hrunning : k.phase = .running) : k.cleaner = [] :=
  h.clean (by rw [hrunning]; decide)

theorem fetch_zero : SigSet.fetch 0 = none := by decide

/-- There is no signal to handle. -/
theorem Tree.suspend (hk : Scheduled k) (h : Tree k) (hrunning : k.phase = .running)
    (sigactions : Nat → SigAction) :
    Meets (k.suspend_current_and_run_next sigactions) Counted Tree := by
  unfold suspend_current_and_run_next exec_signal_handlers
  cases hcurrent : k.current with
  | none => trivial
  | some p =>
    obtain ⟨t, ht⟩ := exists_task_of_alive (hk.executing hrunning hcurrent).2.1
    have hnone : (SigSet.difference t.pending_signals t.sigmask).fetch = none := by
      rw [h.quiet p t ht, SigSet.difference]
      show SigSet.fetch (0#64 &&& ~~~t.sigmask) = none
      rw [BitVec.zero_and]
      exact fetch_zero
    have hsignals : handle_signals sigactions p 64 k = .ok (false, k) := by
      unfold handle_signals
      rw [task, ht]
      simp only [bind, Except.bind, hnone, pure, Except.pure]
    show Meets (handle_signals sigactions p 64 k >>= _) _ _
    rw [hsignals, ok_bind]
    dsimp only
    rw [if_neg Bool.false_ne_true, hcurrent]
    have hready := h.modify (p := p) (f := fun t => { t with task_status := .Ready })
      (by rw [h.running hrunning]; exact List.not_mem_nil) (fun _ => ⟨rfl, rfl, rfl⟩)
      (fun _ _ hz => by cases hz)
    exact hready.reschedule _ _ fun hphase => absurd rfl hphase

theorem Tree.wait4_loop (hk : Scheduled k) (h : Tree k) (hrunning : k.phase = .running)
    (hcurrent : k.current = some p) (ht : k.tasks p = some t) (pid : Int)
    (sigactions : Nat → SigAction) : Meets (k.wait4_loop p t pid sigactions) Counted Tree := by
  have hclean := h.running hrunning
  have hlive := hk.executing_alive hrunning hcurrent ht
  unfold Kernel.wait4_loop
  split
  · rename_i c hfind
    have hc := List.mem_of_find?_eq_some hfind
    have hasked := List.find?_some hfind
    obtain ⟨tc, htc, hz⟩ : ∃ tc, k.tasks c = some tc ∧ tc.is_zombie = true := by
      cases htc : k.tasks c with
      | none => simp [htc] at hasked
      | some tc => exact ⟨tc, rfl, by simp [htc] at hasked; exact hasked.1⟩
    have hne : c ≠ p := by
      rintro rfl
      rw [Option.some.inj (htc.symm.trans ht), hlive] at hz
      cases hz
    have hcancel := h.cancel (f := fun t => { t with
      children := t.children.erase c, resume := .user }) hclean ht (hk.lt_next_pid ht) hc htc hz
      fun _ => ⟨rfl, rfl, rfl, rfl⟩
    have hcount := hcancel.strong_count rfl (hk.zombie_unqueued htc hz).1 fun heq =>
      hne (Option.some.inj (heq.symm.trans hcurrent))
    have hcount : (k.modify p fun t => { t with
        children := t.children.erase c, resume := .user }).strong_count c = 0 := by
      rw [← hcount]
      simp only [Kernel.strong_count, Kernel.modify, hclean]
      rfl
    dsimp only
    rw [if_pos hcount]
    have hreap := hcancel.reap rfl
    have hleaf : (k.modify p fun t => { t with
        children := t.children.erase c, resume := .user }).tasks c = some tc := by
      rw [tasks_modify, if_neg hne]
      exact htc
    rw [drop_leaf hleaf (h.zombie c tc htc hz).1 hcount (Nat.zero_lt_of_lt (hk.lt_next_pid ht))]
    have hback := @Tree.reschedule _ hreap k.manager k.current .running fun _ => rfl
    rw [← hrunning, ← hclean] at hback
    exact hback
  · have hwait := h.modify (p := p) (f := fun t => { t with resume := .wait4 pid })
      (by rw [hclean]; exact List.not_mem_nil) (fun _ => ⟨rfl, rfl, rfl⟩)
      (fun t' ht' hz => by
        rw [Option.some.inj (ht'.symm.trans ht)] at hz
        cases hz.symm.trans hlive)
    have hsteady := Steady.modify k p (f := fun t => { t with resume := .wait4 pid }) fun _ => rfl
    exact hwait.suspend (hk.steady hsteady) (hsteady.phase.trans hrunning) sigactions

theorem wake_clear_child_tid_none (h : k.futexes = ∅) (t : TaskControlBlock) :
    k.wake_clear_child_tid t = .ok k := by
  unfold wake_clear_child_tid futex_wake
  rw [h]
  split <;> rfl

theorem not_mem_erase_self {l : List Nat} (hl : l.Nodup) (p : Nat) : p ∉ l.erase p :=
  fun hmem => (List.Nodup.mem_erase_iff hl).mp hmem |>.1 rfl

/-- A task without children becomes a zombie: a thread is cancelled, a process waits for `wait4`. -/
theorem Tree.exit (hk : Scheduled k) (h : Tree k) (hrunning : k.phase = .running)
    (hcurrent : k.current = some p) (ht : k.tasks p = some t) (hresume : t.resume = .user)
    (hnil : t.children = []) (exit_code : Int) :
    Meets (k.exit_current_and_run_next exit_code) Counted Tree := by
  have hclean := h.running hrunning
  unfold exit_current_and_run_next
  rw [hcurrent]
  apply (k.task_counted p).bind
  intro t' ht'
  rw [Option.some.inj (ht'.symm.trans ht)]
  split
  · trivial
  have hunpid : Tree { k with current := none, pid2tcb := k.pid2tcb.erase p } :=
    { h with
      zombie := fun q tq hq hz =>
        have hz := h.zombie q tq hq hz
        ⟨hz.1, hz.2.1, fun hmem => hz.2.2 (List.mem_of_mem_erase hmem)⟩
      pids := h.pids.erase p }
  have hzombie := hunpid.modify (p := p)
    (f := fun t => { t with task_status := .Zombie, exit_code := exit_code })
    (by rw [hclean]; exact List.not_mem_nil) (fun _ => ⟨rfl, rfl, rfl⟩) (by
      intro t' ht' _
      rw [Option.some.inj (ht'.symm.trans ht)]
      exact ⟨hnil, hresume, not_mem_erase_self h.pids p⟩)
  dsimp only
  rw [wake_clear_child_tid_none hunpid.futexes]
  show Meets (if p = INITPROC then _ else _) _ _
  split
  · trivial
  rename_i hinit
  split
  · trivial
  rw [hnil, List.foldl_nil]
  obtain ⟨hone, q, hparent, hmem⟩ := h.held p t ht hinit (by rw [hclean]; exact List.not_mem_nil)
  generalize hk₁ : Kernel.modify { k with current := none, pid2tcb := k.pid2tcb.erase p } p (fun t =>
    { t with task_status := .Zombie, exit_code := exit_code }) = k₁ at hzombie
  have htask (q : Nat) : k₁.tasks q = if q = p then some { t with
      task_status := .Zombie, exit_code := exit_code } else k.tasks q := by
    rw [← hk₁, tasks_modify]
    dsimp only
    rw [ht]
    rfl
  have htp := (htask p).trans (if_pos rfl)
  have hmanager : k₁.manager.count p = 0 := by
    rw [← hk₁]
    exact (hk.executing hrunning hcurrent).1
  have hcurrent₁ : k₁.current = none := by
    rw [← hk₁]
    rfl
  have hclean₁ : k₁.cleaner = [] := by
    rw [← hk₁]
    exact hclean
  have hchildren (q : Nat) : k₁.children q = k.children q := by
    rw [← hk₁]
    exact children_modify_of (f := fun t => { t with
      task_status := .Zombie, exit_code := exit_code }) (fun _ => rfl) q
  split
  · -- a thread
    unfold cancel_thread
    rw [hparent]
    obtain ⟨tq, htq, hmem⟩ := mem_children ((hchildren q).symm ▸ hmem)
    simp only [htq, if_pos hmem]
    have hlt : q < k₁.next_pid := by
      rw [← hk₁]
      show q < k.next_pid
      rw [htask q] at htq
      split at htq
      · rename_i heq
        rw [heq]
        exact hk.lt_next_pid ht
      · exact hk.lt_next_pid htq
    have hcancel := hzombie.cancel (f := fun t => { t with children := t.children.erase p })
      hclean₁ htq hlt hmem htp rfl fun _ => ⟨rfl, rfl, rfl, rfl⟩
    have hcount := hcancel.strong_count rfl hmanager (by
      show k₁.current ≠ some p
      rw [hcurrent₁]
      exact fun heq => by cases heq)
    have hcount : (k₁.modify q fun t => { t with
        children := t.children.erase p }).strong_count p = 0 := by
      rw [← hcount]
      simp only [Kernel.strong_count, Kernel.modify, hclean₁]
      rfl
    rw [if_pos hcount]
    show Tree { k₁.modify q fun t => { t with children := t.children.erase p } with
      cleaner := k₁.cleaner ++ [p], phase := .switched }
    rw [hclean₁]
    exact hcancel
  · have hkeep : k₁.drop k₁.next_pid p = k₁ := by
      have hholders : k₁.holders p = 1 := by
        rw [← hone]
        exact holders_congr (by rw [← hk₁]; rfl) hchildren p
      have hcount : k₁.strong_count p ≠ 0 := by
        unfold Kernel.strong_count
        omega
      unfold drop
      split
      · rfl
      · rw [htp]
        dsimp only
        rw [if_neg hcount]
    rw [hkeep]
    exact hzombie.reschedule _ _ fun hphase => absurd rfl hphase

/-- A new task, as the last child of one that is no zombie. -/
theorem Tree.spawn {child : TaskControlBlock} (h : Tree k) (hclean : k.cleaner = [])
    (ht : k.tasks p = some t) (hlive : t.is_zombie = false) (hlt : p < k.next_pid)
    (hnone : k.tasks k.next_pid = none) (hparent : child.parent = some p)
    (hnil : child.children = []) (hready : child.is_zombie = false)
    (hsignals : child.pending_signals = 0) (next_memory_set : Nat) (manager : TaskManager) :
    Tree { k with
      tasks := Function.update (Function.update k.tasks p (some
        { t with children := t.children ++ [k.next_pid] })) k.next_pid (some child)
      next_pid := k.next_pid + 1
      next_memory_set := next_memory_set
      manager := manager
      pid2tcb := k.pid2tcb.insert k.next_pid } := by
  generalize hk' : ({ k with
      tasks := Function.update (Function.update k.tasks p (some
        { t with children := t.children ++ [k.next_pid] })) k.next_pid (some child)
      next_pid := k.next_pid + 1
      next_memory_set := next_memory_set
      manager := manager
      pid2tcb := k.pid2tcb.insert k.next_pid } : Kernel) = k'
  have hne : p ≠ k.next_pid := Nat.ne_of_lt hlt
  have htask (q : Nat) : k'.tasks q = if q = k.next_pid then some child else
      if q = p then some { t with children := t.children ++ [k.next_pid] } else k.tasks q := by
    rw [← hk']
    dsimp only
    rw [Function.update_apply, Function.update_apply]
  have hchildren (q : Nat) : k'.children q =
      if q = p then k.children p ++ [k.next_pid] else k.children q := by
    rw [children, htask q, children_of_task ht]
    rcases eq_or_ne q k.next_pid with rfl | hq
    · rw [if_pos rfl, if_neg hne.symm, children, hnone]
      exact hnil
    · rw [if_neg hq]
      split <;> rfl
  have hholders (c : Nat) : k'.holders c = k.holders c + if c = k.next_pid then 1 else 0 := by
    have hsum := sum_range_replace (f := fun q => (k.children q).count c)
      (g := fun q => (k'.children q).count c) hlt fun q hq => by
        rw [hchildren q, if_neg hq]
    have hlast : k'.children k.next_pid = [] := by
      rw [hchildren, if_neg hne.symm, children, hnone]
      rfl
    have hpid : k'.next_pid = k.next_pid + 1 := by
      rw [← hk']
    simp only [holders, hpid, List.range_succ, List.map_append, List.map_cons, List.map_nil,
      List.sum_append, List.sum_cons, List.sum_nil, hlast, List.count_nil]
    rw [hchildren p, if_pos rfl, List.count_append, List.count_singleton] at hsum
    simp only [beq_iff_eq, eq_comm (a := k.next_pid)] at hsum
    omega
  have hcleaner : k'.cleaner = [] := by
    rw [← hk']
    exact hclean
  constructor
  · intro q tq hq hinit _
    rw [hholders]
    rw [htask q] at hq
    rcases eq_or_ne q k.next_pid with rfl | hqn
    · rw [if_pos rfl] at hq ⊢
      cases hq
      refine ⟨by rw [h.unheld _ (Or.inl hnone)], p, hparent, ?_⟩
      rw [hchildren, if_pos rfl]
      exact List.mem_append_right _ (List.mem_singleton_self _)
    · rw [if_neg hqn] at hq ⊢
      have hold : ∃ t', k.tasks q = some t' ∧ tq.parent = t'.parent := by
        split at hq
        · rename_i heq
          cases hq
          exact ⟨t, heq ▸ ht, rfl⟩
        · exact ⟨tq, hq, rfl⟩
      obtain ⟨t', ht', heq⟩ := hold
      obtain ⟨hone, q', hparent', hmem⟩ := h.held q t' ht' hinit (by
        rw [hclean]
        exact List.not_mem_nil)
      refine ⟨hone, q', heq.trans hparent', ?_⟩
      rw [hchildren]
      split
      · rename_i hqp
        rw [hqp] at hmem
        exact List.mem_append_left _ hmem
      · exact hmem
  · intro q hq
    rw [hcleaner] at hq
    rw [hholders]
    have hor : q ≠ k.next_pid ∧ (k.tasks q = none ∨ q = INITPROC) := by
      obtain hq | hq | hq := hq
      · rw [htask q] at hq
        split at hq
        · cases hq
        · split at hq
          · cases hq
          · exact ⟨by assumption, Or.inl hq⟩
      · refine ⟨?_, Or.inr hq⟩
        rw [hq, INITPROC]
        omega
      · cases hq
    rw [if_neg hor.1]
    exact h.unheld q (hor.2.imp_right Or.inl)
  · intro q tq hq hz
    rw [htask q] at hq
    split at hq
    · cases hq
      rw [hready] at hz
      cases hz
    · rename_i hqn
      split at hq
      · cases hq
        exact absurd (hlive.symm.trans hz) (by decide)
      · obtain ⟨hcs, hresume, hpid⟩ := h.zombie q tq hq hz
        refine ⟨hcs, hresume, ?_⟩
        rw [← hk']
        intro hmem
        exact (List.mem_insert_iff.mp hmem).elim hqn hpid
  · exact Or.inl hcleaner
  · exact fun _ => hcleaner
  · intro q tq hq
    rw [htask q] at hq
    split at hq
    · cases hq
      exact hsignals
    · split at hq
      · cases hq
        exact h.quiet p t ht
      · exact h.quiet q tq hq
  · rw [← hk']
    exact h.futexes
  · rw [← hk']
    exact h.pids.insert

theorem Tree.sys_do_fork (hk : Scheduled k) (h : Tree k) (hrunning : k.phase = .running)
    (hcurrent : k.current = some p) (ht : k.tasks p = some t) (flags ctid : Nat) :
    Meets (k.sys_do_fork p t flags ctid) Counted Tree := by
  have hnone : k.tasks k.next_pid = none :=
    Option.map_eq_none_iff.mp (hk.fresh k.next_pid (Nat.le_refl _))
  unfold Kernel.sys_do_fork
  split
  · trivial
  rename_i flags _
  have hspawn := @Tree.spawn _ _ _ {
    tgid := if flags.thread then p else k.next_pid,
    memory_set := if flags.vm then t.memory_set else k.next_memory_set,
    task_status := .Ready,
    parent := some p,
    children := [],
    pending_signals := 0,
    sigmask := t.sigmask,
    exit_code := 0,
    clear_child_tid := if flags.child_cleartid then ctid else 0,
    resume := .user } h (h.running hrunning) ht (hk.executing_alive hrunning hcurrent ht)
    (hk.lt_next_pid ht) hnone rfl rfl rfl rfl (k.next_memory_set + 1) (k.manager.add k.next_pid)
  have hmap : (k.tasks p).map (fun t => { t with children := t.children ++ [k.next_pid] }) =
      some { t with children := t.children ++ [k.next_pid] } := by
    rw [ht]
    rfl
  rw [← hmap] at hspawn
  exact hspawn

theorem Tree.take_last (h : Tree k) : Tree { k.take_last with phase := .switched } := by
  have hswitched : Phase.switched ≠ .switched → k.cleaner = [] := fun hphase => absurd rfl hphase
  unfold Kernel.take_last
  split
  · exact h.reschedule _ _ hswitched
  · rename_i p hcurrent
    split
    · rename_i hready
      have hadd : Tree { k with pid2tcb := k.pid2tcb.insert p } := by
        refine { h with zombie := fun q tq hq hz => ?_, pids := h.pids.insert }
        obtain ⟨hcs, hresume, hpid⟩ := h.zombie q tq hq hz
        refine ⟨hcs, hresume, fun hmem => ?_⟩
        obtain rfl | hmem := List.mem_insert_iff.mp hmem
        · rw [status_of_task (k := k) hq] at hready
          rw [TaskControlBlock.is_zombie, Option.some.inj hready] at hz
          cases hz
        · exact hpid hmem
      exact hadd.reschedule _ _ hswitched
    · exact h.reschedule _ _ hswitched

theorem Tree.put_away (hk : Scheduled k) (h : Tree k) : Meets k.put_away Counted Tree := by
  unfold Kernel.put_away
  split
  · rename_i hphase
    obtain ⟨hlast, hnone⟩ := hk.take_last hphase
    have htree := h.take_last
    have hswitched : k.take_last.phase = .switched := by
      unfold Kernel.take_last
      split
      · exact hphase
      · split <;> exact hphase
    rw [← hswitched] at htree
    generalize k.take_last = k₁ at hlast hnone htree
    show Tree { k₁.recycle_child_threads_res with phase := .idle }
    unfold recycle_child_threads_res
    obtain hnil | ⟨c, tc, hc, htc, hz⟩ := htree.cancelled
    · have hnil : k₁.cleaner = [] := hnil
      have hidle := @Tree.reschedule _ htree k₁.manager k₁.current .idle fun _ => hnil
      rw [hnil, List.foldl_nil, ← hnil]
      exact hidle
    · have hc : k₁.cleaner = [c] := hc
      have hcount := htree.strong_count hc (hlast.zombie_unqueued htc hz).1 (by
        rw [hnone]
        exact fun heq => by cases heq)
      have hreap := htree.reap hc
      rw [hc, List.foldl_cons, List.foldl_nil]
      have hleaf : Kernel.tasks { k₁ with cleaner := [] } c = some tc := htc
      rw [drop_leaf hleaf (htree.zombie c tc htc hz).1 hcount
        (Nat.zero_lt_of_lt (hlast.lt_next_pid htc))]
      exact @Tree.reschedule _ hreap k₁.manager k₁.current .idle fun _ => rfl
  · trivial
  · trivial

theorem Tree.run_task (h : Tree k) (hclean : k.cleaner = []) (manager : TaskManager) (p : Nat) :
    Tree ({ k with manager := manager }.run_task p) := by
  have hmodify := h.modify (p := p) (f := fun t => { t with task_status := .Running })
    (by rw [hclean]; exact List.not_mem_nil) (fun _ => ⟨rfl, rfl, rfl⟩) (fun _ _ hz => by cases hz)
  exact hmodify.reschedule manager (some p) fun _ => hclean

theorem Tree.dispatch (h : Tree k) (now pick : Nat) :
    Meets (k.dispatch now pick) Counted Tree := by
  unfold Kernel.dispatch
  split
  · rename_i hidle
    have hclean : k.cleaner = [] := h.clean (by rw [hidle]; decide)
    have hswitched : Phase.switched ≠ .switched → k.cleaner = [] := fun hphase => absurd rfl hphase
    split
    · exact h.run_task hclean _ _
    · split
      · rename_i p k' hcheck
        have hsame : k' = k := by
          unfold check_futex_interupt_or_expire FutexMap.pop_expired at hcheck
          split at hcheck
          · exact (Prod.mk.inj (Option.some.inj hcheck)).2.symm
          · rw [h.futexes] at hcheck
            cases hcheck
        rw [hsame]
        exact h.reschedule _ _ hswitched
      · split
        · exact h.run_task hclean _ _
        · exact h.reschedule _ _ hswitched
  · trivial
  · trivial

theorem Tree.step (hk : Scheduled k) (h : Tree k) {op : KernelOp} (hop : k.Orderly op) :
    Meets (k.step op) Counted Tree := by
  cases op with
  | suspend sigactions =>
    exact k.user_counted.bind fun r hr => h.suspend hk hr.1 sigactions
  | sys_exit exit_code =>
    apply k.user_counted.bind
    rintro r ⟨hrunning, hcurrent, ht, hresume⟩
    have hnil := hop r.1 hcurrent
    rw [children_of_task ht] at hnil
    exact h.exit hk hrunning hcurrent ht hresume hnil exit_code
  | sys_do_fork flags ctid =>
    exact k.user_counted.bind fun r hr => h.sys_do_fork hk hr.1 hr.2.1 hr.2.2.1 flags ctid
  | sys_exec =>
    apply k.user_counted.bind
    intro r _
    show Meets (k.sys_exec r.1 r.2) _ _
    unfold Kernel.sys_exec
    split
    · exact h
    · trivial
  | sys_wait4 pid sigactions =>
    apply k.user_counted.bind
    intro r hr
    show Meets (k.sys_wait4 r.1 r.2 pid sigactions) _ _
    unfold Kernel.sys_wait4
    split
    · exact h
    · split
      · exact h
      · exact h.wait4_loop hk hr.1 hr.2.1 hr.2.2.1 pid sigactions
  | resume sigactions =>
    show Meets (k.resume sigactions) _ _
    unfold Kernel.resume
    split
    · rename_i p hrunning hcurrent
      apply (k.task_counted p).bind
      intro t ht
      have hlive := hk.executing_alive hrunning hcurrent ht
      split
      · trivial
      · exact h.wait4_loop hk hrunning hcurrent ht _ sigactions
      · refine h.modify (by rw [h.running hrunning]; exact List.not_mem_nil)
          (fun _ => ⟨rfl, rfl, rfl⟩) fun t' ht' hz => ?_
        rw [Option.some.inj (ht'.symm.trans ht)] at hz
        cases hz.symm.trans hlive
    · trivial
  | put_away => exact h.put_away hk
  | dispatch now pick => exact h.dispatch now pick
  | _ => exact hop.elim

end Operations

theorem boot_tree : Tree boot := by
  have htask {p : Nat} {t : TaskControlBlock} (hp : boot.tasks p = some t) :
      p = INITPROC ∧ t = ⟨0, 0, .Ready, none, [], 0, 0, 0, 0, .user⟩ := by
    have hp : Function.update (fun _ => none) INITPROC _ p = some t := hp
    rw [Function.update_apply] at hp
    split at hp
    · rename_i heq
      exact ⟨heq, (Option.some.inj hp).symm⟩
    · cases hp
  have hchildren : boot.children 0 = [] := rfl
  constructor
  · exact fun p t hp hne _ => absurd (htask hp).1 hne
  · intro p _
    show (([0].map fun q => (boot.children q).count p).sum) = 0
    rw [List.map_singleton, List.sum_singleton, hchildren, List.count_nil]
  · intro p t hp hz
    rw [(htask hp).2] at hz
    cases hz
  · exact Or.inl rfl
  · exact fun _ => rfl
  · intro p t hp
    rw [(htask hp).2]
  · rfl
  · exact List.nodup_singleton _

theorem tree_states (ops : List KernelOp) (hops : Guarded step Orderly boot ops) :
    ∀ k ∈ states step boot ops, Scheduled k ∧ Tree k :=
  invariant (fun k => Scheduled k ∧ Tree k)
    (fun _ op _ hk hop hstep => ⟨(hk.1.step op).of_ok hstep, (hk.2.step hk.1 hop).of_ok hstep⟩)
    ⟨boot_scheduled, boot_tree⟩ hops

/-- While no task exits with children; and then no assertion on a strong count fails. -/
theorem process_tree (ops : List KernelOp) (hops : Guarded step Orderly boot ops) :
    ∀ k ∈ states step boot ops, k.IsTree ∧ (k.phase ≠ .switched → k.cleaner = []) ∧
      ∀ op p, k.Orderly op → k.step op ≠ .error (.strongCount p) := by
  intro k hk
  obtain ⟨hscheduled, htree⟩ := tree_states ops hops k hk
  exact ⟨htree.held, htree.clean, fun op p hop herror =>
    (htree.step hscheduled hop).error herror⟩

section Examples

/-- The last task is put away and the next one runs. -/
def reschedule : List KernelOp := [.put_away, .dispatch 0 0]

def no_handlers (_ : Nat) : SigAction := ⟨SIG_DFL, false, 0⟩

/-- A child makes a thread and exits after it; initproc waits. -/
def orderly_run : List KernelOp :=
  reschedule ++ [.sys_do_fork 0 0, .sys_wait4 (-1) no_handlers] ++ reschedule ++
  [.sys_do_fork 65536 0, .suspend no_handlers] ++ reschedule ++ [.resume no_handlers] ++
  reschedule ++ [.sys_exit 0] ++ reschedule ++ [.sys_exit 0] ++ reschedule ++ [.resume no_handlers]

theorem process_tree_orderly : ∃ k, run step boot orderly_run = .ok k ∧
    (k.tasks 1).isNone ∧ (k.tasks 2).isNone ∧ k.IsTree := by
  obtain ⟨k, hk, h₁, h₂⟩ : ∃ k, run step boot orderly_run = .ok k ∧
      (k.tasks 1).isNone ∧ (k.tasks 2).isNone := Meets.exists_ok (by decide +kernel)
  exact ⟨k, hk, h₁, h₂, (process_tree orderly_run (by decide +kernel) k (mem_states_of_run hk)).1⟩

/-- A task exits before its child. -/
def orphan_run : List KernelOp :=
  reschedule ++ [.sys_do_fork 0 0, .suspend no_handlers] ++ reschedule ++
  [.sys_do_fork 0 0, .sys_exit 0] ++ reschedule

def reap_orphan : List KernelOp := [.suspend no_handlers] ++ reschedule ++ [.sys_exit 0] ++ reschedule

/-- The child is in two lists, and initproc cannot reap it. -/
theorem orphan_held_twice : ∃ k, run step boot orphan_run = .ok k ∧ k.phase = .running ∧
    ¬ k.IsTree ∧ ∃ k', run step k reap_orphan = .ok k' ∧
      k'.step (.sys_wait4 2 no_handlers) = .error (.strongCount 2) := by
  obtain ⟨k, hk, hphase, hchild, hclean, hholders, hreap⟩ : ∃ k, run step boot orphan_run = .ok k ∧
      k.phase = .running ∧ (k.tasks 2).isSome ∧ 2 ∉ k.cleaner ∧ k.holders 2 = 2 ∧
      Meets (run step k reap_orphan) (fun _ => False) fun k' =>
        Meets (k'.step (.sys_wait4 2 no_handlers)) (· = .strongCount 2) fun _ => False :=
    Meets.exists_ok (by decide +kernel)
  refine ⟨k, hk, hphase, fun htree => ?_, ?_⟩
  · obtain ⟨t, ht⟩ := Option.isSome_iff_exists.mp hchild
    have hone := (htree 2 t ht (by decide) hclean).1
    omega
  · obtain ⟨k', hk', hwait⟩ := hreap.exists_ok
    refine ⟨k', hk', ?_⟩
    cases hstep : k'.step (.sys_wait4 2 no_handlers) with
    | error e => rw [hwait.error hstep]
    | ok k'' => exact (hwait.of_ok hstep).elim

end Examples

end MyGOS.Task
