import Mathlib

/-!
# Computations that may fail part of the way

A `Transaction` works on a state and may fail. An error ends it, and does not undo what was done to the
state before it: `outcome` gives the result together with the state that is left in either case.

`ofExcept` runs a check that does not touch the state, and `onCopy` works on a copy that replaces the
state when nothing failed. Their triples, with those of the standard operations, decide what an error
leaves behind: `outcome_of_triple` reads a triple as a statement on outcomes.
-/

set_option autoImplicit false
set_option relaxedAutoImplicit false
set_option mvcgen.warning false

open Std.Do

/-- A computation on a state that may fail. -/
abbrev Transaction (σ ε α : Type) : Type := ExceptT ε (StateM σ) α

namespace Transaction

variable {σ ε α β : Type}

/-- The result of a computation from a state, and the state that it leaves. -/
def outcome (m : Transaction σ ε α) (s : σ) : Except ε α × σ :=
  Id.run (StateT.run (ExceptT.run m) s)

/-- A check that does not touch the state. -/
def ofExcept (r : Except ε α) : Transaction σ ε α :=
  match r with
  | .ok a => pure a
  | .error e => throw e

/-- Works on a copy, which replaces the state when nothing failed. -/
def onCopy (m : Transaction σ ε α) : Transaction σ ε α := do
  let s ← get
  match m.outcome s with
  | (.ok a, copy) =>
    set copy
    pure a
  | (.error e, _) => throw e

/-! ### Outcomes -/

section Outcomes

variable (s : σ)

@[simp] theorem outcome_pure (a : α) :
    outcome (pure a : Transaction σ ε α) s = (.ok a, s) := rfl

@[simp] theorem outcome_throw (e : ε) :
    outcome (throw e : Transaction σ ε α) s = (.error e, s) := rfl

@[simp] theorem outcome_get : outcome (get : Transaction σ ε σ) s = (.ok s, s) := rfl

@[simp] theorem outcome_set (t : σ) :
    outcome (set t : Transaction σ ε PUnit) s = (.ok ⟨⟩, t) := rfl

@[simp] theorem outcome_modify (f : σ → σ) :
    outcome (modify f : Transaction σ ε PUnit) s = (.ok ⟨⟩, f s) := rfl

/-- An error ends the computation in the state reached; a value is passed on. -/
theorem outcome_bind (m : Transaction σ ε α) (f : α → Transaction σ ε β) :
    outcome (m >>= f) s =
      match outcome m s with
      | (.ok a, t) => outcome (f a) t
      | (.error e, t) => (.error e, t) := by
  unfold outcome
  rw [ExceptT.run_bind, StateT.run_bind, Id.run_bind]
  rcases Id.run (StateT.run (ExceptT.run m) s) with ⟨r, t⟩
  cases r <;> rfl

theorem outcome_get_bind (f : σ → Transaction σ ε α) :
    outcome (get >>= f) s = outcome (f s) s := by
  rw [outcome_bind, outcome_get]

@[simp] theorem outcome_ofExcept (r : Except ε α) : outcome (ofExcept r) s = (r, s) := by
  cases r <;> rfl

/-- A check that fails ends the computation, and one that passes leaves the state to the rest. -/
theorem outcome_ofExcept_bind (r : Except ε α) (f : α → Transaction σ ε β) :
    outcome (ofExcept r >>= f) s =
      match r with
      | .ok a => outcome (f a) s
      | .error e => (.error e, s) := by
  rw [outcome_bind, outcome_ofExcept]
  cases r <;> rfl

theorem outcome_onCopy (m : Transaction σ ε α) :
    outcome (onCopy m) s =
      match outcome m s with
      | (.ok a, copy) => (.ok a, copy)
      | (.error e, _) => (.error e, s) := by
  rw [onCopy, outcome_bind, outcome_get]
  change outcome (match outcome m s with
    | (.ok a, copy) => do
      set copy
      pure a
    | (.error e, _) => throw e) s = _
  rcases outcome m s with ⟨r, t⟩
  cases r <;> rfl

end Outcomes

theorem outcome_eq_ok {m : Transaction σ ε α} {s : σ} (h : (outcome m s).1.isOk = true) :
    ∃ a, outcome m s = (.ok a, (outcome m s).2) := by
  cases hrun : (outcome m s).1 with
  | ok a => exact ⟨a, Prod.ext hrun rfl⟩
  | error e =>
    rw [hrun] at h
    exact absurd h Bool.false_ne_true

theorem outcome_eq_error {m : Transaction σ ε α} {s : σ} (h : (outcome m s).1.isOk = false) :
    ∃ e, outcome m s = (.error e, (outcome m s).2) := by
  cases hrun : (outcome m s).1 with
  | error e => exact ⟨e, Prod.ext hrun rfl⟩
  | ok a =>
    rw [hrun] at h
    exact absurd h.symm Bool.false_ne_true

/-! ### Triples -/

/-- The weakest precondition of a computation, at a state, is what its outcome satisfies. -/
theorem wp_apply (m : Transaction σ ε α) (Q : PostCond α (.except ε (.arg σ .pure))) (s : σ) :
    wp⟦m⟧ Q s =
      match outcome m s with
      | (.ok a, t) => Q.1 a t
      | (.error e, t) => Q.2.1 e t := by
  simp only [WP.wp, PredTrans.apply_pushExcept, PredTrans.apply_pushArg,
    PredTrans.apply_Pure_pure]
  unfold outcome
  rcases Id.run (StateT.run (ExceptT.run m) s) with ⟨r, t⟩
  cases r <;> rfl

/-- A triple from a given state is a statement on the outcome from it. -/
theorem outcome_of_triple {m : Transaction σ ε α} {s : σ} {Q : α → σ → Prop} {E : ε → σ → Prop}
    (h : ⦃fun t ↦ ⌜t = s⌝⦄ m ⦃post⟨fun a t ↦ ⌜Q a t⌝, fun e t ↦ ⌜E e t⌝⟩⦄) :
    (∀ a t, outcome m s = (.ok a, t) → Q a t) ∧ ∀ e t, outcome m s = (.error e, t) → E e t := by
  have hwp := h s rfl
  rw [wp_apply] at hwp
  constructor
  · intro a t hrun
    rw [hrun] at hwp
    exact hwp
  · intro e t hrun
    rw [hrun] at hwp
    exact hwp

/-- A known outcome is a triple from its state. -/
theorem triple_of_outcome {m : Transaction σ ε α} {s t : σ} {a : α} (h : outcome m s = (.ok a, t)) :
    ⦃fun u ↦ ⌜u = s⌝⦄ m ⦃post⟨fun b u ↦ ⌜b = a ∧ u = t⌝, fun _ _ ↦ ⌜False⌝⟩⦄ := by
  rintro u rfl
  rw [wp_apply, h]
  exact ⟨rfl, rfl⟩

@[spec] theorem ofExcept_spec (s : σ) (r : Except ε α) :
    ⦃fun t ↦ ⌜t = s⌝⦄ (ofExcept r : Transaction σ ε α)
    ⦃post⟨fun a t ↦ ⌜t = s ∧ r = .ok a⌝, fun e t ↦ ⌜t = s ∧ r = .error e⌝⟩⦄ := by
  mvcgen [ofExcept]

/-- An error on the copy leaves the state as it was. -/
@[spec] theorem onCopy_spec (s : σ) (m : Transaction σ ε α) :
    ⦃fun t ↦ ⌜t = s⌝⦄ onCopy m
    ⦃post⟨fun a t ↦ ⌜outcome m s = (.ok a, t)⌝,
      fun e t ↦ ⌜t = s ∧ (outcome m s).1 = .error e⌝⟩⦄ := by
  mvcgen [onCopy]
  · rename_i _ heq _ _ hrun
    exact heq ▸ hrun
  · rename_i _ heq _ _ hrun
    exact ⟨heq, by rw [← heq, hrun]⟩

end Transaction
