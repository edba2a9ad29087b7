import Mathlib

/-!
# The join of an observed-remove set

A replica knows one of three things about an add event: it has not seen it, it holds it live, or it
saw it and dropped it. `Status` is that knowledge and `Status.join` combines the knowledge of two
replicas: what only one of them saw is kept as it stands there, and what one of them dropped is
dropped. The join is associative and idempotent, and commutative on replicas that agree on the entry
of a live event.

A concrete set stores the live entries and a record of what was seen. `survivor` is the rule by
which two such sets are merged, one event at a time, and `status_survivor` says that the rule computes
the join of the statuses whenever a live event counts as seen.
-/

set_option autoImplicit false
set_option relaxedAutoImplicit false

namespace ObservedRemove

variable {E : Type*}

/-- What a replica knows about an add event. -/
inductive Status (E : Type*)
  | unseen
  | live (entry : E)
  | dropped

/-- The combined knowledge of two replicas. -/
def Status.join : Status E → Status E → Status E
  | .unseen, s => s
  | s, .unseen => s
  | .live _, .live entry => .live entry
  | .dropped, _ => .dropped
  | _, .dropped => .dropped

theorem Status.join_assoc (r s t : Status E) : (r.join s).join t = r.join (s.join t) := by
  cases r <;> cases s <;> cases t <;> rfl

theorem Status.join_self (s : Status E) : s.join s = s := by
  cases s <;> rfl

/-- Assumes: the two replicas agree on the entry of an event live on both. -/
theorem Status.join_comm {r s : Status E}
    (hagree : ∀ e e', r = .live e → s = .live e' → e = e') : r.join s = s.join r := by
  cases r with
  | unseen => cases s <;> rfl
  | dropped => cases s <;> rfl
  | live e =>
    cases s with
    | unseen => rfl
    | dropped => rfl
    | live e' =>
      rw [hagree e e' rfl rfl]

/-- The status of an event from the live entry stored for it and whether it counts as seen. -/
def status (live : Option E) (seen : Bool) : Status E :=
  match live with
  | some entry => .live entry
  | none => if seen then .dropped else .unseen

theorem status_eq_live_iff {live : Option E} {seen : Bool} {entry : E} :
    status live seen = .live entry ↔ live = some entry := by
  cases live <;> cases seen <;> simp [status]

/-- The status determines the live entry. -/
theorem live_eq_of_status_eq {live live' : Option E} {seen seen' : Bool}
    (h : status live seen = status live' seen') : live = live' := by
  cases live <;> cases live' <;> cases seen <;> cases seen' <;> simp_all [status]

/-- The merge rule for one event: an event live on both sides stays, with the entry of the second;
an event live on one side stays unless the other side has seen it. -/
def survivor (live : Option E) (seen : Bool) (live' : Option E) (seen' : Bool) : Option E :=
  match live, live' with
  | _, some entry => if live.isSome || !seen then some entry else none
  | some entry, none => if seen' then none else some entry
  | none, none => none

/-- Assumes: an event live on a side counts as seen there. The merge rule computes the join. -/
theorem status_survivor {live live' : Option E} {seen seen' : Bool}
    (hseen : live.isSome = true → seen = true) (hseen' : live'.isSome = true → seen' = true) :
    status (survivor live seen live' seen') (seen || seen') =
      (status live seen).join (status live' seen') := by
  cases live <;> cases live' <;> cases seen <;> cases seen' <;>
    simp_all [status, survivor, Status.join]

end ObservedRemove
