import Mathlib.Data.List.Basic

/-!
# Computations that may stop

A partial function of a program is an `Except` value: it returns or it stops
with a reason. `Meets` is the two-sided postcondition of such a value, one
predicate for the results and one for the reasons it may stop.
-/

namespace Outcome

universe u v w

variable {ε : Type u} {α β σ : Type v} {ι : Type w}

theorem bind_eq_ok {x : Except ε α} {f : α → Except ε β} {b : β} :
    x >>= f = .ok b ↔ ∃ a, x = .ok a ∧ f a = .ok b := by
  cases x with
  | error e => simp [bind, Except.bind]
  | ok a => simp [bind, Except.bind]

theorem ok_bind (a : α) (f : α → Except ε β) : (Except.ok a >>= f) = f a := rfl

theorem map_bind_map {α' β' : Type v} {x : Except ε α} {p : α → α'} {q : β → β'}
    {f : α → Except ε β} {f' : α' → Except ε β'} (h : ∀ a, f' (p a) = q <$> f a) :
    (p <$> x) >>= f' = q <$> (x >>= f) := by
  cases x with
  | error e => rfl
  | ok a => exact h a

theorem map_eq_ok {x : Except ε α} {f : α → β} {b : β} :
    f <$> x = .ok b ↔ ∃ a, x = .ok a ∧ f a = b := by
  cases x with
  | error e => simp [Functor.map, Except.map]
  | ok a => simp [Functor.map, Except.map]

/-- Results satisfy `Q`, and stopping is only for a reason in `E`. -/
def Meets (x : Except ε α) (E : ε → Prop) (Q : α → Prop) : Prop :=
  match x with
  | .ok a => Q a
  | .error e => E e

instance (x : Except ε α) (E : ε → Prop) (Q : α → Prop) [DecidablePred E] [DecidablePred Q] :
    Decidable (Meets x E Q) :=
  match x with
  | .ok a => inferInstanceAs (Decidable (Q a))
  | .error e => inferInstanceAs (Decidable (E e))

variable {E : ε → Prop} {Q R : α → Prop}

@[simp] theorem meets_ok (a : α) : Meets (.ok a) E Q ↔ Q a := Iff.rfl

@[simp] theorem meets_pure (a : α) : Meets (pure a : Except ε α) E Q ↔ Q a := Iff.rfl

@[simp] theorem meets_error (e : ε) : Meets (.error e : Except ε α) E Q ↔ E e := Iff.rfl

theorem Meets.mono {x : Except ε α} (h : Meets x E Q) (hQ : ∀ a, Q a → R a) : Meets x E R := by
  cases x with
  | error e => exact h
  | ok a => exact hQ a h

theorem Meets.mono_error {F : ε → Prop} {x : Except ε α} (h : Meets x E Q)
    (hE : ∀ e, E e → F e) : Meets x F Q := by
  cases x with
  | error e => exact hE e h
  | ok a => exact h

/-- What holds of every result may be added to a postcondition. -/
theorem Meets.and_ok {x : Except ε α} (h : Meets x E Q) (hR : ∀ a, x = .ok a → R a) :
    Meets x E fun a => Q a ∧ R a := by
  cases x with
  | error e => exact h
  | ok a => exact ⟨h, hR a rfl⟩

theorem Meets.of_ok {x : Except ε α} {a : α} (h : Meets x E Q) (hx : x = .ok a) : Q a := by
  subst hx
  exact h

theorem Meets.exists_ok {x : Except ε α} (h : Meets x (fun _ => False) Q) :
    ∃ a, x = .ok a ∧ Q a := by
  cases x with
  | error e => exact h.elim
  | ok a => exact ⟨a, rfl, h⟩

theorem Meets.error {x : Except ε α} {e : ε} (h : Meets x E Q) (hx : x = .error e) : E e := by
  subst hx
  exact h

/-- The rule for sequencing: the first part meets a midcondition under which the rest
meets the postcondition. -/
theorem Meets.bind {x : Except ε α} {f : α → Except ε β} {S : β → Prop}
    (hx : Meets x E Q) (hf : ∀ a, Q a → Meets (f a) E S) : Meets (x >>= f) E S := by
  cases x with
  | error e => exact hx
  | ok a => exact hf a hx

/-- The loop rule: an invariant indexed by the elements still to come. -/
theorem Meets.foldlM {f : σ → ι → Except ε σ} {I : List ι → σ → Prop}
    (hstep : ∀ x xs s, I (x :: xs) s → Meets (f s x) E (I xs)) :
    ∀ xs s, I xs s → Meets (xs.foldlM f s) E (I []) := by
  intro xs
  induction xs with
  | nil => exact fun s h => h
  | cons x xs ih =>
    intro s h
    rw [List.foldlM_cons]
    exact (hstep x xs s h : Meets _ _ _).bind fun t ht => ih t ht

/-- The loop rule for runs that return. -/
theorem foldlM_ok {f : σ → ι → Except ε σ} {I : List ι → σ → Prop}
    (hstep : ∀ x xs s t, I (x :: xs) s → f s x = .ok t → I xs t) :
    ∀ {xs : List ι} {s t : σ}, I xs s → xs.foldlM f s = .ok t → I [] t := by
  intro xs
  induction xs with
  | nil =>
    intro s t h hf
    cases hf
    exact h
  | cons x xs ih =>
    intro s t h hf
    rw [List.foldlM_cons] at hf
    obtain ⟨u, hu, hf⟩ := bind_eq_ok.mp hf
    exact ih (hstep x xs s u h hu) hf

theorem foldlM_range_succ (f : σ → Nat → Except ε σ) (s : σ) (n : Nat) :
    (List.range (n + 1)).foldlM f s = (List.range n).foldlM f s >>= fun t => f t n := by
  rw [List.range_succ, List.foldlM_append]
  simp

theorem mapM_length {f : ι → Except ε α} {xs : List ι} {ys : List α} (h : xs.mapM f = .ok ys) :
    ys.length = xs.length := by
  induction xs generalizing ys with
  | nil =>
    cases h
    rfl
  | cons x xs ih =>
    rw [List.mapM_cons] at h
    obtain ⟨y, _, h⟩ := bind_eq_ok.mp h
    obtain ⟨ys, hys, h⟩ := bind_eq_ok.mp h
    cases h
    simp [ih hys]

theorem mapM_eq_ok {f : ι → Except ε α} {g : ι → α} {xs : List ι} (h : ∀ x ∈ xs, f x = .ok (g x)) :
    xs.mapM f = .ok (xs.map g) := by
  induction xs with
  | nil => rfl
  | cons x xs ih =>
    obtain ⟨hx, hxs⟩ := List.forall_mem_cons.mp h
    rw [List.mapM_cons, hx, ih hxs]
    rfl

/-- A loop whose body leaves the state alone on every element leaves it alone. -/
theorem foldlM_eq_self {f : σ → ι → Except ε σ} {xs : List ι} {s : σ}
    (h : ∀ x ∈ xs, f s x = .ok s) : xs.foldlM f s = .ok s := by
  induction xs with
  | nil => rfl
  | cons x xs ih =>
    rw [List.foldlM_cons, h x List.mem_cons_self]
    exact ih fun y hy => h y (List.mem_cons_of_mem _ hy)

end Outcome
