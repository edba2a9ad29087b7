import DidCrdt.Core.Delta
import DidCrdt.Library.JsonText

/-!
# Identifiers

A `did:crdt` identifier is the method prefix and 64 hexadecimal digits. Texts are parsed where they come in
(`Did.fromStr`), so that an identifier is always well formed. Digits of either case are accepted, and the text
is kept as it is.
-/

set_option autoImplicit false
set_option relaxedAutoImplicit false

namespace DidCrdt

open JsonText (hexValue)

namespace Did

/-- The method name. -/
def method : String := "crdt"

/-- What every identifier begins with. -/
def methodPrefix : String := "did:crdt:"

/-- The text after a prefix. -/
def afterPrefix (start text : List Char) : Option (List Char) :=
  if start.isPrefixOf text then some (text.drop start.length) else none

/-- The identifier of a text. -/
def fromStr (s : String) : Except String Did :=
  match afterPrefix methodPrefix.toList s.toList with
  | none => .error s!"invalid did:crdt identifier: {s}"
  | some id =>
    if id.length ≠ 64 || !id.all fun c ↦ (hexValue c).isSome then
      .error s!"invalid did:crdt identifier: {s}"
    else .ok ⟨s⟩

/-- The hexadecimal digits of an identifier. -/
def methodSpecificId (did : Did) : List Char :=
  (afterPrefix methodPrefix.toList did.toString.toList).getD []

/-- The identifier is the prefix and 64 hexadecimal digits. -/
def WellFormed (did : Did) : Prop :=
  ∃ id : List Char, did.toString.toList = methodPrefix.toList ++ id ∧ id.length = 64 ∧
    ∀ c ∈ id, (hexValue c).isSome

theorem afterPrefix_eq_some_iff {start text rest : List Char} :
    afterPrefix start text = some rest ↔ text = start ++ rest := by
  unfold afterPrefix
  split_ifs with hprefix
  · obtain ⟨tail, rfl⟩ := List.isPrefixOf_iff_prefix.mp hprefix
    simp
  · simp only [false_iff]
    rintro rfl
    exact hprefix (List.isPrefixOf_iff_prefix.mpr (List.prefix_append start rest))

/-- A text is parsed when it is well formed, and is kept as it is. -/
theorem fromStr_eq_ok_iff {s : String} {did : Did} :
    fromStr s = .ok did ↔ did = ⟨s⟩ ∧ did.WellFormed := by
  unfold fromStr WellFormed
  cases hafter : afterPrefix methodPrefix.toList s.toList with
  | none =>
    simp only [reduceCtorEq, false_iff]
    rintro ⟨rfl, id, htext, -, -⟩
    exact Option.some_ne_none _ ((afterPrefix_eq_some_iff.mpr htext).symm.trans hafter)
  | some id =>
    have htext := afterPrefix_eq_some_iff.mp hafter
    simp only
    split_ifs with hbad
    · simp only [false_iff]
      rintro ⟨rfl, id', htext', hlength, hdigits⟩
      obtain rfl : id = id' := List.append_cancel_left (htext.symm.trans htext')
      have hgood : id.all (fun c ↦ (hexValue c).isSome) = true := List.all_eq_true.mpr hdigits
      simp [hlength, hgood] at hbad
    · simp only [ne_eq, Bool.or_eq_true, decide_eq_true_eq, Bool.not_eq_true', not_or, not_not,
        Bool.not_eq_false] at hbad
      simp only [Except.ok.injEq]
      constructor
      · rintro rfl
        exact ⟨rfl, id, htext, hbad.1, List.all_eq_true.mp hbad.2⟩
      · rintro ⟨rfl, -⟩
        rfl

/-- A well-formed identifier is parsed from its text. -/
theorem fromStr_toString {did : Did} (h : did.WellFormed) : fromStr did.toString = .ok did :=
  fromStr_eq_ok_iff.mpr ⟨rfl, h⟩

end Did

end DidCrdt
