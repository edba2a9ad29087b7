import DidCrdt.Core.Delta
import DidCrdt.Library.JsonText
import Mathlib.Data.List.Sort

/-!
# Canonical JSON

The bytes that are signed are the canonical JSON of the payload: the members of every object in the order
of their keys, and no white space. A value is written member by member, and the written members of an object
are then sorted by key; since the sort is stable and looks at keys only, that is the same as sorting the
members first (`canonicalText_object`). The text of a float is a parameter.
-/

set_option autoImplicit false
set_option relaxedAutoImplicit false

namespace DidCrdt

open JsonText

/-! ### Values -/

/-- Members of an object are sorted by key. -/
def byKey {α : Type} (m n : String × α) : Prop := m.1 ≤ n.1

instance {α : Type} : DecidableRel (@byKey α) := fun m n ↦ inferInstanceAs (Decidable (m.1 ≤ n.1))

instance {α : Type} : Std.Total (@byKey α) := ⟨fun m n ↦ le_total m.1 n.1⟩

instance {α : Type} : IsTrans (String × α) byKey := ⟨fun _ _ _ h h' ↦ le_trans (α := String) h h'⟩

/-- Writing the values of members does not change their order. -/
theorem map_insertionSort_byKey {α β : Type} (f : α → β) (members : List (String × α)) :
    (members.map fun m ↦ (m.1, f m.2)).insertionSort byKey =
      (members.insertionSort byKey).map fun m ↦ (m.1, f m.2) :=
  (List.map_insertionSort byKey byKey (fun m ↦ (m.1, f m.2)) members fun _ _ _ _ ↦ Iff.rfl).symm

section Canonical

variable (floatText : U64 → List Char)

mutual

/-- The canonical text of a value. -/
def canonicalText : Json → List Char
  | .null => ['n', 'u', 'l', 'l']
  | .bool true => ['t', 'r', 'u', 'e']
  | .bool false => ['f', 'a', 'l', 's', 'e']
  | .integer n => decimal n
  | .float bits => floatText bits
  | .string s => quote s
  | .array items => '[' :: (commaSeparated (itemTexts items) ++ [']'])
  | .object members =>
    '\x7b' :: (commaSeparated
      (((memberTexts members).insertionSort byKey).map fun m ↦ member m.1 m.2) ++ ['\x7d'])

/-- The canonical texts of the items of an array. -/
def itemTexts : List Json → List (List Char)
  | [] => []
  | v :: items => canonicalText v :: itemTexts items

/-- The members of an object with the canonical texts of their values. -/
def memberTexts : List (String × Json) → List (String × List Char)
  | [] => []
  | (k, v) :: members => (k, canonicalText v) :: memberTexts members

end

theorem itemTexts_eq_map (items : List Json) :
    itemTexts floatText items = items.map (canonicalText floatText) := by
  induction items with
  | nil => rfl
  | cons v items ih => rw [itemTexts, ih, List.map_cons]

theorem memberTexts_eq_map (members : List (String × Json)) :
    memberTexts floatText members = members.map fun m ↦ (m.1, canonicalText floatText m.2) := by
  induction members with
  | nil => rfl
  | cons m members ih => rw [memberTexts, ih, List.map_cons]

theorem canonicalText_array (items : List Json) :
    canonicalText floatText (.array items) =
      '[' :: (commaSeparated (items.map (canonicalText floatText)) ++ [']']) := by
  rw [canonicalText, itemTexts_eq_map]

/-- The members of an object are sorted by key and then written. -/
theorem canonicalText_object (members : List (String × Json)) :
    canonicalText floatText (.object members) =
      '\x7b' :: (commaSeparated ((members.insertionSort byKey).map fun m ↦
        member m.1 (canonicalText floatText m.2)) ++ ['\x7d']) := by
  rw [canonicalText, memberTexts_eq_map, map_insertionSort_byKey, List.map_map]
  rfl

/-- Serialises a value to its canonical form. -/
def canonicalJson (v : Json) : String := String.ofList (canonicalText floatText v)

end Canonical

/-! ### Encodings -/

/-- The name of a suite. -/
def SuiteType.serialised : SuiteType → String
  | ed25519Signature2020 => "Ed25519Signature2020"
  | ecdsaSecp256k1Signature2019 => "EcdsaSecp256k1Signature2019"

/-- The name of a relationship. -/
def VerificationRelationship.serialised : VerificationRelationship → String
  | authentication => "Authentication"
  | assertionMethod => "AssertionMethod"
  | keyAgreement => "KeyAgreement"
  | capabilityInvocation => "CapabilityInvocation"
  | capabilityDelegation => "CapabilityDelegation"

/-- Values are made of the parts of a text as they are listed. -/
def Json.builder : Builder Json where
  null := .null
  bool := .bool
  integer := .integer
  string := .string
  array := .array
  object := .object

/-- An array of strings. -/
def Json.strings (texts : List String) : Json := .array (texts.map .string)

namespace DeltaOp

/-- The tag of an operation. -/
def tag : DeltaOp → String
  | addVerificationMethod .. => "add_verification_method"
  | addServiceEndpoint .. => "add_service_endpoint"
  | removeServiceEndpoint _ => "remove_service_endpoint"
  | setAlsoKnownAs _ => "set_also_known_as"
  | setDocumentData .. => "set_document_data"
  | rotateKey .. => "rotate_key"
  | revokeCredential _ => "revoke_credential"
  | revokeVerificationMethod _ => "revoke_verification_method"
  | deactivate => "deactivate"

/-- The fields of an operation. -/
def fields : DeltaOp → List (String × Json)
  | addVerificationMethod id publicKeyMultibase suiteType relationships =>
    [("id", .string id), ("public_key_multibase", .string publicKeyMultibase),
      ("suite_type", .string suiteType.serialised),
      ("relationships", .strings (relationships.map VerificationRelationship.serialised))]
  | addServiceEndpoint id serviceType endpoint =>
    [("id", .string id), ("service_type", .string serviceType), ("endpoint", .string endpoint)]
  | removeServiceEndpoint id => [("id", .string id)]
  | setAlsoKnownAs uris => [("uris", .strings uris)]
  | setDocumentData key value => [("key", .string key), ("value", value)]
  | rotateKey seq keyRef => [("seq", .integer seq.val), ("key_ref", .string keyRef)]
  | revokeCredential credentialId => [("credential_id", .string credentialId)]
  | revokeVerificationMethod keyId => [("key_id", .string keyId)]
  | deactivate => []

/-- The encoding of an operation: its tag among its fields. -/
def toJson (op : DeltaOp) : Json := .object (("type", .string op.tag) :: op.fields)

end DeltaOp

/-- The encoding of a timestamp. -/
def HlcTimestamp.toJson (t : HlcTimestamp) : Json :=
  .object [("wall_ms", .integer t.wallMs.val), ("logical", .integer t.logical.val),
    ("node_id", .integer t.nodeId.val)]

/-- The encoding of a payload. -/
def SigningPayload.toJson (p : SigningPayload) : Json :=
  .object [("did", .string p.did.toString), ("op", p.op.toJson),
    ("parents", .strings (p.parents.map DeltaHash.toString)), ("timestamp", p.timestamp.toJson)]

/-- The bytes that are signed, and hashed for the content identity. -/
def SignedDelta.signingInputBytes (floatText : U64 → List Char) (d : SignedDelta) : ByteArray :=
  (canonicalJson floatText d.signingInput.toJson).toUTF8

end DidCrdt
