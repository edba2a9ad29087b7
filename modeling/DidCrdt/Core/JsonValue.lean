import DidCrdt.Core.CanonicalJson
import DidCrdt.Library.Records

/-!
# Arbitrary values

Arbitrary values are kept with the members of every object collected into a map (`Json.toValue`).
-/

set_option autoImplicit false
set_option relaxedAutoImplicit false

namespace DidCrdt

open Records

namespace Json

/-- What holds of the parts of values, from the parts up, holds of all values. -/
@[elab_as_elim]
theorem induction {P : Json → Prop} (null : P .null) (bool : ∀ b, P (.bool b))
    (integer : ∀ n, P (.integer n)) (float : ∀ bits, P (.float bits)) (string : ∀ s, P (.string s))
    (array : ∀ items, (∀ v ∈ items, P v) → P (.array items))
    (object : ∀ members : List (String × Json), (∀ m ∈ members, P m.2) → P (.object members))
    (v : Json) : P v := by
  -- the motives of the nested lists say that the property holds of their parts
  refine @Json.rec P (fun items ↦ ∀ v ∈ items, P v) (fun members ↦ ∀ m ∈ members, P m.2)
    (fun m ↦ P m.2) null bool integer float string array object ?_ ?_ ?_ ?_ ?_ v
  · exact fun v hv ↦ absurd hv List.not_mem_nil
  · exact fun v items hv hitems ↦ List.forall_mem_cons.mpr ⟨hv, hitems⟩
  · exact fun m hm ↦ absurd hm List.not_mem_nil
  · exact fun m members hm hmembers ↦ List.forall_mem_cons.mpr ⟨hm, hmembers⟩
  · exact fun k v hv ↦ hv

mutual

/-- A value with the members of its objects collected into maps. -/
def toValue : Json → Json
  | .array items => .array (valueItems items)
  | .object members => .object (ofEntries (valueMembers members))
  | v => v

def valueItems : List Json → List Json
  | [] => []
  | v :: items => toValue v :: valueItems items

def valueMembers : List (String × Json) → List (String × Json)
  | [] => []
  | (k, v) :: members => (k, toValue v) :: valueMembers members

end

theorem toValue_array (items : List Json) : toValue (.array items) = .array (items.map toValue) := by
  have hitems : ∀ l, valueItems l = l.map toValue := by
    intro l
    induction l with
    | nil => rfl
    | cons v items ih => rw [valueItems, ih, List.map_cons]
  rw [toValue, hitems]

theorem toValue_object (members : List (String × Json)) :
    toValue (.object members) = .object (ofEntries (members.map fun m ↦ (m.1, toValue m.2))) := by
  have hmembers : ∀ l, valueMembers l = l.map fun m ↦ (m.1, toValue m.2) := by
    intro l
    induction l with
    | nil => rfl
    | cons m members ih => rw [valueMembers, ih, List.map_cons]
  rw [toValue, hmembers]

/-- The members of every object are those of a map. -/
def IsValue (v : Json) : Prop := v.toValue = v

end Json

end DidCrdt
