import DidCrdt.Core.Document

/-!
# Stored documents

A document is stored as one object. It is written field by field from the document, without its DAG,
and read by another record, which looks up the same names, has a default for some of them, and
rebuilds the DAG. `DocumentRepr.ofFields_toFields` compares the two lists of fields: what one writes
the other reads. An encoding of objects that loses nothing so gives an encoding of documents that
loses nothing (`Codec.ofObjects_lossless`).
-/

set_option autoImplicit false
set_option relaxedAutoImplicit false

namespace DidCrdt

/-- The values of the fields of a stored document. -/
inductive StoredValue
  | did (value : Did)
  | methods (value : VerificationMethods)
  | services (value : ServiceEndpointsRepr)
  | data (value : DocumentData)
  | aliases (value : AlsoKnownAs)
  | key (value : ActiveKey)
  | ids (value : GSet String)
  | flag (value : Bool)
  | time (value : Option U64)
  | log (value : List SignedDelta)

namespace StoredValue

def did? : StoredValue → Option Did
  | .did value => some value
  | _ => none

def methods? : StoredValue → Option VerificationMethods
  | .methods value => some value
  | _ => none

def services? : StoredValue → Option ServiceEndpointsRepr
  | .services value => some value
  | _ => none

def data? : StoredValue → Option DocumentData
  | .data value => some value
  | _ => none

def aliases? : StoredValue → Option AlsoKnownAs
  | .aliases value => some value
  | _ => none

def key? : StoredValue → Option ActiveKey
  | .key value => some value
  | _ => none

def ids? : StoredValue → Option (GSet String)
  | .ids value => some value
  | _ => none

def flag? : StoredValue → Option Bool
  | .flag value => some value
  | _ => none

def time? : StoredValue → Option (Option U64)
  | .time value => some value
  | _ => none

def log? : StoredValue → Option (List SignedDelta)
  | .log value => some value
  | _ => none

end StoredValue

/-- The fields of an object, by name. -/
abbrev StoredFields : Type := List (String × StoredValue)

namespace StoredFields

variable {α : Type}

/-- Reads a field, which takes the default when it is absent. -/
def readOr (fields : StoredFields) (name : String) (absent : Except String α)
    (read : StoredValue → Option α) : Except String α :=
  match fields.lookup name with
  | none => absent
  | some value =>
    match read value with
    | some a => .ok a
    | none => .error s!"invalid type of field {name}"

/-- Reads a field that has no default. -/
def read (fields : StoredFields) (name : String) (read : StoredValue → Option α) :
    Except String α :=
  fields.readOr name (.error s!"missing field {name}") read

end StoredFields

namespace DocumentRepr

/-- The fields that a document writes. -/
def toFields (r : DocumentRepr) : StoredFields :=
  [("did", .did r.did),
    ("verification_methods", .methods r.verificationMethods),
    ("service_endpoints", .services r.serviceEndpoints),
    ("document_data", .data r.documentData),
    ("also_known_as", .aliases r.alsoKnownAs),
    ("active_key", .key r.activeKey),
    ("revocations", .ids r.revocations),
    ("revoked_verification_methods", .ids r.revokedVerificationMethods),
    ("deactivated", .flag r.deactivated),
    ("created_ms", .time r.createdMs),
    ("updated_ms", .time r.updatedMs),
    ("delta_log", .log r.deltaLog)]

/-- Reads the fields of a stored document. The alias set, the times and the log have defaults. -/
def ofFields (fields : StoredFields) : Except String DocumentRepr := do
  let did ← fields.read "did" StoredValue.did?
  let verificationMethods ← fields.read "verification_methods" StoredValue.methods?
  let serviceEndpoints ← fields.read "service_endpoints" StoredValue.services?
  let documentData ← fields.read "document_data" StoredValue.data?
  let alsoKnownAs ← fields.readOr "also_known_as" (.ok .new) StoredValue.aliases?
  let activeKey ← fields.read "active_key" StoredValue.key?
  let revocations ← fields.read "revocations" StoredValue.ids?
  let revokedVerificationMethods ← fields.read "revoked_verification_methods" StoredValue.ids?
  let deactivated ← fields.read "deactivated" StoredValue.flag?
  let createdMs ← fields.readOr "created_ms" (.ok none) StoredValue.time?
  let updatedMs ← fields.readOr "updated_ms" (.ok none) StoredValue.time?
  let deltaLog ← fields.readOr "delta_log" (.ok []) StoredValue.log?
  pure
    { did := did
      verificationMethods := verificationMethods
      serviceEndpoints := serviceEndpoints
      documentData := documentData
      alsoKnownAs := alsoKnownAs
      activeKey := activeKey
      revocations := revocations
      revokedVerificationMethods := revokedVerificationMethods
      deactivated := deactivated
      createdMs := createdMs
      updatedMs := updatedMs
      deltaLog := deltaLog }

/-- Every field that is written is read back under its name. -/
theorem ofFields_toFields (r : DocumentRepr) : ofFields r.toFields = .ok r := by
  simp only [ofFields, toFields, StoredFields.read, StoredFields.readOr, List.lookup]
  rfl

end DocumentRepr

/-- An encoding of objects whose members are strings, integers, booleans and JSON values. -/
class ObjectCodec where
  Bytes : Type
  encode : StoredFields → Bytes
  decode : Bytes → Except String StoredFields

/-- What is encoded is decoded again. -/
def ObjectCodec.Lossless [ObjectCodec] : Prop :=
  ∀ fields, ObjectCodec.decode (ObjectCodec.encode fields) = .ok fields

/-- The encoding that keeps objects as they are. -/
@[reducible]
def ObjectCodec.verbatim : ObjectCodec := ⟨StoredFields, id, .ok⟩

/-- Reads a stored document from an encoded object. -/
def ObjectCodec.decodeRepr [ObjectCodec] (bytes : ObjectCodec.Bytes) : Except String DocumentRepr :=
  match ObjectCodec.decode bytes with
  | .error e => .error e
  | .ok fields => DocumentRepr.ofFields fields

/-- The encoding of stored documents as objects. -/
@[reducible]
def Codec.ofObjects [ObjectCodec] : Codec where
  Bytes := ObjectCodec.Bytes
  encode r := ObjectCodec.encode r.toFields
  decode := ObjectCodec.decodeRepr

theorem Codec.ofObjects_lossless [ObjectCodec] (h : ObjectCodec.Lossless) :
    @Codec.Lossless Codec.ofObjects := by
  intro r
  change ObjectCodec.decodeRepr (ObjectCodec.encode r.toFields) = .ok r
  rw [ObjectCodec.decodeRepr, h r.toFields]
  exact r.ofFields_toFields

end DidCrdt
