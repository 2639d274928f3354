import MyGOS.Lib.Outcome

/-!
# Runs of a system that takes one step after another

A step may stop; the run then ends in the state before it. `invariant` is the
one induction over runs: what every permitted step preserves holds in every
state a run of permitted steps passes through.
-/

namespace StepSystem

variable {σ α ε : Type*} (step : σ → α → Except ε σ)

/-- The state after a whole run. -/
def run (s : σ) (as : List α) : Except ε σ := as.foldlM step s

/-- The states a run passes through, its first state included. -/
def states : σ → List α → List σ
  | s, [] => [s]
  | s, a :: as => s :: match step s a with
    | .ok t => states t as
    | .error _ => []

/-- Each step the run takes is one that `C` permits in the state before it. -/
def Guarded (C : σ → α → Prop) : σ → List α → Prop
  | _, [] => True
  | s, a :: as => C s a ∧ match step s a with
    | .ok t => Guarded C t as
    | .error _ => True

variable {step}

instance Guarded.decidable {C : σ → α → Prop} [∀ s a, Decidable (C s a)] :
    ∀ s as, Decidable (Guarded step C s as)
  | _, [] => inferInstanceAs (Decidable True)
  | s, a :: as =>
    match h : step s a with
    | .ok t =>
      have : Decidable (Guarded step C t as) := Guarded.decidable t as
      decidable_of_iff (C s a ∧ Guarded step C t as) (by simp [Guarded, h])
    | .error _ => decidable_of_iff (C s a) (by simp [Guarded, h])

@[simp] theorem run_nil (s : σ) : run step s [] = .ok s := rfl

theorem run_cons (s : σ) (a : α) (as : List α) :
    run step s (a :: as) = step s a >>= fun t => run step t as := by
  simp [run]

/-- A run goes on where its first part ended. -/
theorem run_append {as : List α} {s t : σ} (h : run step s as = .ok t) (bs : List α) :
    run step s (as ++ bs) = run step t bs := by
  rw [run, List.foldlM_append, ← run, h]
  rfl

theorem mem_states_self (s : σ) (as : List α) : s ∈ states step s as := by
  cases as <;> simp [states]

/-- The last state of a run is one of its states. -/
theorem mem_states_of_run {as : List α} {s t : σ} (h : run step s as = .ok t) :
    t ∈ states step s as := by
  induction as generalizing s with
  | nil =>
    cases h
    exact mem_states_self _ []
  | cons a as ih =>
    rw [run_cons] at h
    obtain ⟨u, hu, h⟩ := Outcome.bind_eq_ok.mp h
    simp only [states, hu]
    exact List.mem_cons_of_mem _ (ih h)

theorem Guarded.of_forall {C : σ → α → Prop} (h : ∀ s a, C s a) (as : List α) (s : σ) :
    Guarded step C s as := by
  induction as generalizing s with
  | nil => trivial
  | cons a as ih =>
    refine ⟨h s a, ?_⟩
    cases step s a with
    | error e => trivial
    | ok t => exact ih t

theorem Guarded.of_prefix {C : σ → α → Prop} {as bs : List α} {s : σ}
    (hC : Guarded step C s as) (h : bs <+: as) : Guarded step C s bs := by
  induction bs generalizing s as with
  | nil => trivial
  | cons b bs ih =>
    obtain ⟨cs, rfl⟩ := h
    refine ⟨hC.1, ?_⟩
    have hrest := hC.2
    cases hs : step s b with
    | error e => trivial
    | ok t =>
      simp only [hs] at hrest
      exact ih hrest ⟨cs, rfl⟩

/-- What is left of a permitted run is permitted where its first part ended. -/
theorem Guarded.of_append {C : σ → α → Prop} {as bs : List α} {s t : σ}
    (hC : Guarded step C s (as ++ bs)) (h : run step s as = .ok t) : Guarded step C t bs := by
  induction as generalizing s with
  | nil =>
    cases h
    exact hC
  | cons a as ih =>
    rw [run_cons] at h
    obtain ⟨u, hu, h⟩ := Outcome.bind_eq_ok.mp h
    have hrest := hC.2
    simp only [hu] at hrest
    exact ih hrest h

theorem Guarded.mono {C D : σ → α → Prop} (h : ∀ s a, C s a → D s a) {as : List α} {s : σ}
    (hC : Guarded step C s as) : Guarded step D s as := by
  induction as generalizing s with
  | nil => trivial
  | cons a as ih =>
    simp only [Guarded] at hC ⊢
    refine ⟨h s a hC.1, ?_⟩
    cases hs : step s a with
    | error e => trivial
    | ok t => exact ih (by simpa [hs] using hC.2)

theorem Guarded.and {C D : σ → α → Prop} {as : List α} {s : σ} (hC : Guarded step C s as)
    (hD : Guarded step D s as) : Guarded step (fun s a => C s a ∧ D s a) s as := by
  induction as generalizing s with
  | nil => trivial
  | cons a as ih =>
    simp only [Guarded] at hC hD ⊢
    refine ⟨⟨hC.1, hD.1⟩, ?_⟩
    cases hs : step s a with
    | error e => trivial
    | ok t =>
      rw [hs] at hC hD
      exact ih hC.2 hD.2

/-- What permitted steps preserve holds in every state of a permitted run. -/
theorem invariant {C : σ → α → Prop} (Inv : σ → Prop)
    (hstep : ∀ s a t, Inv s → C s a → step s a = .ok t → Inv t) {as : List α} {s : σ}
    (hs : Inv s) (hC : Guarded step C s as) : ∀ t ∈ states step s as, Inv t := by
  induction as generalizing s with
  | nil =>
    intro t ht
    rw [List.mem_singleton.mp ht]
    exact hs
  | cons a as ih =>
    intro t ht
    simp only [states, List.mem_cons] at ht
    rcases ht with rfl | ht
    · exact hs
    · simp only [Guarded] at hC
      cases hu : step s a with
      | error e => simp [hu] at ht
      | ok u =>
        simp only [hu] at ht hC
        exact ih (hstep s a u hs hC.1 hu) hC.2 t ht

/-- The converse reading: if a property of the states forces the guard of each step taken
from them, a run through states with the property is a permitted one. -/
theorem guarded_of_states {C : σ → α → Prop} {P : σ → Prop}
    (hC : ∀ s a, P s → (∀ t, step s a = .ok t → P t) → C s a) {as : List α} {s : σ}
    (hP : ∀ t ∈ states step s as, P t) : Guarded step C s as := by
  induction as generalizing s with
  | nil => trivial
  | cons a as ih =>
    simp only [Guarded]
    have hs : P s := hP s (mem_states_self s _)
    cases hu : step s a with
    | error e => exact ⟨hC s a hs (by simp [hu]), trivial⟩
    | ok u =>
      have hP' : ∀ t ∈ states step u as, P t := by
        intro t ht
        exact hP t (by simp [states, hu, ht])
      refine ⟨hC s a hs ?_, ih hP'⟩
      intro t ht
      cases hu.symm.trans ht
      exact hP' _ (mem_states_self _ _)

section Observation

variable {σ τ α ε ω : Type*}

/-- A run that also collects what each step shows. -/
def observe (step : σ → α → Except ε (σ × ω)) : σ → List α → Except ε (σ × List ω)
  | s, [] => .ok (s, [])
  | s, a :: as => do
    let (t, o) ← step s a
    let (u, os) ← observe step t as
    return (u, o :: os)

/-- The step without what it shows. -/
def silent (step : σ → α → Except ε (σ × ω)) (s : σ) (a : α) : Except ε σ :=
  (step s a).map Prod.fst

/-- `y` shows what `x` shows and ends in a related state, and stops when `x` stops for a
reason outside `E`. -/
def Follows (E : ε → Prop) (R : σ → τ → Prop) (x : Except ε (σ × ω)) (y : Except ε (τ × ω)) :
    Prop :=
  match x with
  | .ok (s, o) => ∃ t, y = .ok (t, o) ∧ R s t
  | .error e => E e ∨ y = .error e

@[simp] theorem follows_ok_ok {E : ε → Prop} {R : σ → τ → Prop} {s : σ} {t : τ} {o o' : ω} :
    Follows E R (.ok (s, o)) (.ok (t, o')) ↔ o = o' ∧ R s t := by
  constructor
  · rintro ⟨t', heq, hR⟩
    cases heq
    exact ⟨rfl, hR⟩
  · rintro ⟨rfl, hR⟩
    exact ⟨t, rfl, hR⟩

@[simp] theorem follows_error_ok {R : σ → τ → Prop} {e : ε} {r : τ × ω} :
    Follows (fun _ => False) R (.error e) (.ok r) ↔ False := by
  simp [Follows]

theorem Follows.of_meets {E : ε → Prop} {R : σ → τ → Prop} {x : Except ε (σ × ω)}
    {y : Except ε (τ × ω)}
    (h : Outcome.Meets x E fun r => ∃ t, y = .ok (t, r.2) ∧ R r.1 t) : Follows E R x y := by
  cases x with
  | error e => exact Or.inl h
  | ok r => exact h

theorem Follows.mono {E : ε → Prop} {R R' : σ → τ → Prop} {x : Except ε (σ × ω)}
    {y : Except ε (τ × ω)} (h : Follows E R x y) (hR : ∀ s t, R s t → R' s t) :
    Follows E R' x y := by
  cases x with
  | error e => exact h
  | ok r =>
    obtain ⟨t, hy, ht⟩ := h
    exact ⟨t, hy, hR r.1 t ht⟩

variable {step : σ → α → Except ε (σ × ω)} {step' : τ → α → Except ε (τ × ω)}

/-- The one induction for simulations: steps that follow each other make runs that do. -/
theorem Follows.observe {E : ε → Prop} {R : σ → τ → Prop} {C : σ → α → Prop}
    (hstep : ∀ s t a, R s t → C s a → Follows E R (step s a) (step' t a)) {as : List α}
    {s : σ} {t : τ} (hR : R s t) (hC : Guarded (silent step) C s as) :
    Follows E R (observe step s as) (observe step' t as) := by
  induction as generalizing s t with
  | nil => exact ⟨t, rfl, hR⟩
  | cons a as ih =>
    obtain ⟨hC, hrest⟩ := hC
    have ha := hstep s t a hR hC
    cases hs : step s a with
    | error e =>
      rw [hs] at ha
      simp only [StepSystem.observe, hs]
      rcases ha with hE | ha
      · exact Or.inl hE
      · exact Or.inr (by rw [ha]; rfl)
    | ok p =>
      obtain ⟨s', o⟩ := p
      rw [hs] at ha
      obtain ⟨t', ht, hR'⟩ := ha
      have hrest' : Guarded (silent step) C s' as := by
        simpa [silent, hs, Except.map] using hrest
      have hf := ih hR' hrest'
      simp only [StepSystem.observe, hs, ht, bind, Except.bind]
      cases hr : StepSystem.observe step s' as with
      | error e =>
        rw [hr] at hf
        rcases hf with hE | hf
        · exact Or.inl hE
        · exact Or.inr (by rw [hf])
      | ok q =>
        rw [hr] at hf
        obtain ⟨t'', ht'', hR''⟩ := hf
        rw [ht'']
        exact ⟨t'', rfl, hR''⟩

/-- Runs of a step that never stops. -/
theorem observe_total (h : ∀ s a, ∃ r, step s a = .ok r) (as : List α) (s : σ) :
    ∃ r, observe step s as = .ok r := by
  induction as generalizing s with
  | nil => exact ⟨_, rfl⟩
  | cons a as ih =>
    obtain ⟨⟨t, o⟩, ht⟩ := h s a
    obtain ⟨⟨u, os⟩, hu⟩ := ih t
    exact ⟨(u, o :: os), by simp [observe, ht, hu, bind, Except.bind, pure, Except.pure]⟩

theorem observe_cons (s : σ) (a : α) (as : List α) :
    StepSystem.observe step s (a :: as) = (do
      let (t, o) ← step s a
      let (u, os) ← StepSystem.observe step t as
      return (u, o :: os)) := rfl

/-- Where the second step never stops, the runs agree from state to state exactly as long as
each step is one that agrees. -/
theorem Follows.observe_iff {view : σ → τ} {C : σ → α → Prop}
    (hstep : ∀ s a, Follows (fun _ => False) (fun s t => view s = t) (step s a)
      (step' (view s) a) ↔ C s a)
    (htotal : ∀ t a, ∃ r, step' t a = .ok r) {as : List α} {s : σ} :
    (∀ bs, bs <+: as → Follows (fun _ => False) (fun s t => view s = t)
      (StepSystem.observe step s bs) (StepSystem.observe step' (view s) bs)) ↔
      Guarded (silent step) C s as := by
  constructor
  · intro h
    induction as generalizing s with
    | nil => trivial
    | cons a as ih =>
      have ha := h [a] ⟨as, rfl⟩
      cases hs : step s a with
      | error e =>
        obtain ⟨r, hr⟩ := htotal (view s) a
        simp [hs, hr, Follows, StepSystem.observe, bind, Except.bind, pure, Except.pure] at ha
      | ok p =>
        obtain ⟨s', o⟩ := p
        obtain ⟨⟨t', o'⟩, ht⟩ := htotal (view s) a
        have hone : o' = o ∧ view s' = t' := by
          simpa [hs, ht, Follows, StepSystem.observe, bind, Except.bind, pure, Except.pure,
            and_comm, eq_comm] using ha
        obtain ⟨rfl, rfl⟩ := hone
        refine ⟨(hstep s a).mp ?_, ?_⟩
        · rw [hs, ht]
          exact ⟨_, rfl, rfl⟩
        · simp only [silent, hs, Except.map]
          apply ih
          intro bs hbs
          have hrest := h (a :: bs) ((List.cons_prefix_cons).mpr ⟨rfl, hbs⟩)
          obtain ⟨⟨u', os'⟩, hu⟩ := @observe_total _ _ _ _ step' htotal bs (view s')
          rw [hu]
          rw [observe_cons, observe_cons, hs, ht] at hrest
          simp only [bind, Except.bind, hu] at hrest
          cases hr : StepSystem.observe step s' bs with
          | error e => simp [hr, Follows, pure, Except.pure] at hrest
          | ok q =>
            rw [hr] at hrest
            obtain ⟨t, heq, hR⟩ := hrest
            cases heq
            exact ⟨_, rfl, hR⟩
  · intro hC bs hbs
    refine Follows.observe (fun s t a hR ha => ?_) rfl (hC.of_prefix hbs)
    subst hR
    exact (hstep s a).mpr ha

end Observation

end StepSystem
