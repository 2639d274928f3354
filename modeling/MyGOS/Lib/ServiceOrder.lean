import MyGOS.Lib.StepSystem
import Mathlib.Data.List.Infix
import Mathlib.Data.List.Nodup

/-!
# What a run shows, and in which order

Each step shows a list of things, and a run those of its steps one after the
other. Nothing is shown twice if what is shown once can never be again. A queue
of which each step serves a part from the front is served in its order, so that
what has `i` in front of it is served with the next `i + 1`.
-/

namespace StepSystem

variable {σ α ε β : Type*} {step : σ → α → Except ε σ} {shown : σ → α → List β}

section Gather

variable (step shown) in
/-- What the steps of a run show. -/
def gather : σ → List α → List β
  | _, [] => []
  | s, a :: as => match step s a with
    | .ok t => shown s a ++ gather t as
    | .error _ => []

variable {s t : σ} {a : α} {as : List α} {x : β}

theorem gather_cons (h : step s a = .ok t) (as : List α) :
    gather step shown s (a :: as) = shown s a ++ gather step shown t as := by
  rw [gather, h]

/-- Where a step stops, nothing is shown. -/
theorem gather_stopped {e : ε} (h : step s a = .error e) (as : List α) :
    gather step shown s (a :: as) = [] := by
  rw [gather, h]

theorem map_gather {γ : Type*} (f : β → γ) (as : List α) (s : σ) :
    (gather step shown s as).map f = gather step (fun s a => (shown s a).map f) s as := by
  induction as generalizing s with
  | nil => rfl
  | cons a as ih =>
    cases hu : step s a with
    | error e => rw [gather_stopped hu, gather_stopped hu, List.map_nil]
    | ok u => rw [gather_cons hu, gather_cons hu, List.map_append, ih]

/-- What a run shows, one of its steps shows. -/
theorem exists_of_mem_gather {P : β → σ → Prop}
    (hP : ∀ s a t, step s a = .ok t → ∀ x ∈ shown s a, P x t)
    (hx : x ∈ gather step shown s as) : ∃ t ∈ states step s as, P x t := by
  induction as generalizing s with
  | nil => cases hx
  | cons a as ih =>
    cases hu : step s a with
    | error e =>
      rw [gather_stopped hu] at hx
      cases hx
    | ok u =>
      rw [gather_cons hu] at hx
      simp only [states, hu]
      obtain hx | hx := List.mem_append.mp hx
      · exact ⟨u, List.mem_cons_of_mem _ (mem_states_self u as), hP s a u hu x hx⟩
      · obtain ⟨t, ht, hxt⟩ := ih hx
        exact ⟨t, List.mem_cons_of_mem _ ht, hxt⟩

/-- What holds of all that is shown from a state with the property `P`, which the steps keep. -/
theorem of_mem_gather {P : σ → Prop} {Q : β → Prop}
    (hstep : ∀ s a t, P s → step s a = .ok t → P t ∧ ∀ x ∈ shown s a, Q x) (hs : P s)
    (hx : x ∈ gather step shown s as) : Q x := by
  induction as generalizing s with
  | nil => cases hx
  | cons a as ih =>
    cases hu : step s a with
    | error e =>
      rw [gather_stopped hu] at hx
      cases hx
    | ok u =>
      rw [gather_cons hu] at hx
      obtain ⟨hu', hshown⟩ := hstep s a u hs hu
      exact (List.mem_append.mp hx).elim (hshown x) (ih hu')

/-- What a whole run has shown is spent when it ends. -/
theorem spent_of_mem_gather {P : σ → Prop} {S : σ → β → Prop}
    (hstep : ∀ s a t, P s → step s a = .ok t →
      P t ∧ (∀ x ∈ shown s a, S t x) ∧ ∀ x, S s x → S t x)
    (hs : P s) (hrun : run step s as = .ok t) (hx : x ∈ gather step shown s as) : S t x := by
  have hkeep : ∀ (as : List α) (s : σ), P s → S s x → run step s as = .ok t → S t x := by
    intro as
    induction as with
    | nil =>
      intro s _ hx hrun
      cases hrun
      exact hx
    | cons a as ih =>
      intro s hs hx hrun
      rw [run_cons] at hrun
      obtain ⟨u, hu, hrun⟩ := Outcome.bind_eq_ok.mp hrun
      obtain ⟨hu', -, hmono⟩ := hstep s a u hs hu
      exact ih u hu' (hmono x hx) hrun
  induction as generalizing s with
  | nil => cases hx
  | cons a as ih =>
    rw [run_cons] at hrun
    obtain ⟨u, hu, hrun⟩ := Outcome.bind_eq_ok.mp hrun
    obtain ⟨hu', hshown, -⟩ := hstep s a u hs hu
    rw [gather_cons hu] at hx
    obtain hx | hx := List.mem_append.mp hx
    · exact hkeep as u hu' (hshown x hx) hrun
    · exact ih hu' hrun hx

/-- Nothing is shown twice that is spent once it was shown. -/
theorem gather_nodup {P : σ → Prop} {S : σ → β → Prop}
    (hstep : ∀ s a t, P s → step s a = .ok t → P t ∧ (shown s a).Nodup ∧
      (∀ x ∈ shown s a, S t x) ∧ ∀ x, S s x → S t x ∧ x ∉ shown s a)
    (hs : P s) : (gather step shown s as).Nodup := by
  induction as generalizing s with
  | nil => exact List.nodup_nil
  | cons a as ih =>
    cases hu : step s a with
    | error e =>
      rw [gather_stopped hu]
      exact List.nodup_nil
    | ok u =>
      obtain ⟨hu', hnodup, hspent, -⟩ := hstep s a u hs hu
      rw [gather_cons hu]
      refine hnodup.append (ih hu') fun x hx hx' => ?_
      refine of_mem_gather (P := fun s => P s ∧ S s x) (Q := (· ≠ x)) ?_
        ⟨hu', hspent x hx⟩ hx' rfl
      rintro s a t ⟨hs, hx⟩ ht
      obtain ⟨ht', -, -, hkeep⟩ := hstep s a t hs ht
      obtain ⟨hxt, hnot⟩ := hkeep x hx
      exact ⟨⟨ht', hxt⟩, fun y hy heq => hnot (heq ▸ hy)⟩

end Gather

section Queue

variable {queue : σ → List β} {served : σ → α → List β}

variable (step queue served) in
/-- Nothing is served before what is in front of it. -/
def InOrder : Prop := ∀ s a t, step s a = .ok t → queue s <+: served s a ++ queue t

variable {s t : σ} {as : List α} {i : Nat} {x : β}

theorem InOrder.along (h : InOrder step queue served) (hrun : run step s as = .ok t) :
    queue s <+: gather step served s as ++ queue t := by
  induction as generalizing s with
  | nil =>
    cases hrun
    exact List.prefix_rfl
  | cons a as ih =>
    rw [run_cons] at hrun
    obtain ⟨u, hu, hrun⟩ := Outcome.bind_eq_ok.mp hrun
    have hrest := (List.prefix_append_right_inj (served s a)).mpr (ih hrun)
    rw [gather_cons hu, List.append_assoc]
    exact (h s a u hu).trans hrest

/-- What waits is served in its turn, and until then it comes closer to the front. -/
theorem InOrder.waits (h : InOrder step queue served) (hrun : run step s as = .ok t)
    (hx : (queue s)[i]? = some x) :
    (gather step served s as)[i]? = some x ∨
      (gather step served s as).length ≤ i ∧
        (queue t)[i - (gather step served s as).length]? = some x := by
  obtain ⟨rest, hrest⟩ := h.along hrun
  have hlt : i < (queue s).length := (List.getElem?_eq_some_iff.mp hx).1
  have happend : (gather step served s as ++ queue t)[i]? = some x := by
    rw [← hrest, List.getElem?_append_left hlt, hx]
  obtain hserved | hle := lt_or_ge i (gather step served s as).length
  · rw [List.getElem?_append_left hserved] at happend
    exact .inl happend
  · rw [List.getElem?_append_right hle] at happend
    exact .inr ⟨hle, happend⟩

end Queue

end StepSystem
