import DidCrdt.Core.Hlc

/-!
# Signed deltas

Every mutation of a document is a `SignedDelta`: a target DID, a timestamp, an operation, the content
hashes of its causal predecessors, and a proof. The proof is outside the signed payload, and so
outside the content hash: `contentHash` reads the payload alone (`contentHash_congr`).

Hashing, signature checks and encodings come from other crates. They are the fields of `Primitives`,
over which the whole development is parametric. A field that stands for a digest of some value is a
function of that value; where a result needs that two values do not collide, it says of which.
-/

set_option autoImplicit false
set_option relaxedAutoImplicit false

namespace DidCrdt

/-! ### The payload -/

/-- A `did:crdt` identifier. -/
structure Did where
  toString : String
deriving DecidableEq, Repr

/-- The content identity of a delta. -/
structure DeltaHash where
  toString : String
deriving DecidableEq, Repr

theorem DeltaHash.toString_injective : Function.Injective DeltaHash.toString := by
  rintro ⟨s⟩ ⟨t⟩ h
  exact congrArg DeltaHash.mk h

instance : LinearOrder DeltaHash := LinearOrder.lift' _ DeltaHash.toString_injective

instance DeltaHash.transOrd : Std.TransOrd DeltaHash := inferInstance

theorem Did.toString_injective : Function.Injective Did.toString := by
  rintro ⟨s⟩ ⟨t⟩ h
  exact congrArg Did.mk h

instance : LinearOrder Did := LinearOrder.lift' _ Did.toString_injective

instance Did.transOrd : Std.TransOrd Did := inferInstance

/-- Signature suites. -/
inductive SuiteType
  | ed25519Signature2020
  | ecdsaSecp256k1Signature2019
deriving DecidableEq, Repr

namespace SuiteType

/-- The suite of a key that names none. -/
protected def default : SuiteType := ed25519Signature2020

/-- The verification method type of a suite. -/
def verificationMethodType : SuiteType → String
  | ed25519Signature2020 => "Ed25519VerificationKey2020"
  | ecdsaSecp256k1Signature2019 => "EcdsaSecp256k1VerificationKey2019"

/-- The position of a variant in its declaration, by which variants are ordered. -/
def index : SuiteType → Fin 2
  | ed25519Signature2020 => 0
  | ecdsaSecp256k1Signature2019 => 1

theorem index_injective : Function.Injective index := by
  intro s t h
  cases s <;> cases t <;> first | rfl | exact absurd h (by decide)

instance : LinearOrder SuiteType := LinearOrder.lift' index index_injective

end SuiteType

/-- The uses of a verification method. -/
inductive VerificationRelationship
  | authentication
  | assertionMethod
  | keyAgreement
  | capabilityInvocation
  | capabilityDelegation
deriving DecidableEq, Repr

namespace VerificationRelationship

/-- The position of a variant in its declaration, by which variants are ordered. -/
def index : VerificationRelationship → Fin 5
  | authentication => 0
  | assertionMethod => 1
  | keyAgreement => 2
  | capabilityInvocation => 3
  | capabilityDelegation => 4

theorem index_injective : Function.Injective index := by
  intro s t h
  cases s <;> cases t <;> first | rfl | exact absurd h (by decide)

instance : LinearOrder VerificationRelationship := LinearOrder.lift' index index_injective

end VerificationRelationship

/-- The relationships of a key that names none. -/
def defaultRelationships : List VerificationRelationship :=
  [.authentication]

/-- JSON values. A number that is not an integer is kept as the bits of its double. -/
inductive Json
  | null
  | bool (value : Bool)
  | integer (value : ℤ)
  | float (bits : U64)
  | string (value : String)
  | array (items : List Json)
  | object (members : List (String × Json))

/-- The operation carried by a delta. -/
inductive DeltaOp
  | addVerificationMethod (id publicKeyMultibase : String) (suiteType : SuiteType)
      (relationships : List VerificationRelationship)
  | addServiceEndpoint (id serviceType endpoint : String)
  | removeServiceEndpoint (id : String)
  | setAlsoKnownAs (uris : List String)
  | setDocumentData (key : String) (value : Json)
  | rotateKey (seq : U64) (keyRef : String)
  | revokeCredential (credentialId : String)
  | revokeVerificationMethod (keyId : String)
  | deactivate

/-- A linked-data proof. -/
structure DeltaProof where
  suite : SuiteType
  verificationMethod : String
  created : String
  proofValue : String
deriving DecidableEq, Repr

/-- What the signature covers and the content hash is taken of. -/
structure SigningPayload where
  did : Did
  op : DeltaOp
  parents : List DeltaHash
  timestamp : HlcTimestamp

/-- A mutation of a document, with its causal position and its proof. -/
structure SignedDelta where
  did : Did
  timestamp : HlcTimestamp
  op : DeltaOp
  parents : List DeltaHash
  proof : DeltaProof

/-- The largest serialised delta that is admitted, in bytes. -/
def maxDeltaSize : ℕ := 65536

/-! ### Primitives -/

/-- The functions that come from other crates. -/
class Primitives where
  /-- The hex BLAKE3 digest of the canonical JSON of a payload. -/
  payloadDigest : SigningPayload → String
  /-- The hex BLAKE3 digest of the JSON of a genesis timestamp, operation and key. -/
  seedDigest : HlcTimestamp × DeltaOp × String → String
  /-- The BLAKE3 digest of a key reference. -/
  keyDigest : String → Blake3Hash
  /-- The first eight bytes of the BLAKE3 digest of a public key. -/
  nodeDigest : List UInt8 → U64
  /-- Unpadded base64url decoding. -/
  base64Decode : String → Option (List UInt8)
  /-- Unpadded base64url encoding. -/
  base64Encode : List UInt8 → String
  /-- Ed25519: whether the key is a point and the signature of the payload verifies under it. -/
  ed25519Verifies : List UInt8 → SigningPayload → List UInt8 → Bool
  /-- ECDSA over secp256k1: whether key and signature decode and the signature verifies. -/
  secp256k1Verifies : List UInt8 → SigningPayload → List UInt8 → Bool
  /-- The length of the compact JSON of a delta, in bytes. -/
  serialisedSize : SignedDelta → ℕ
  /-- Whether a character that is not ASCII is printed between quotes as it is. -/
  printable : Char → Bool

/-- Primitives that can be evaluated: a delta is named after its timestamp, a document after its key,
a node after the first byte of its key, and a signature is the key itself. -/
@[reducible]
def Primitives.readable : Primitives where
  payloadDigest p :=
    s!"{p.timestamp.wallMs.val}.{p.timestamp.logical.val}.{p.timestamp.nodeId.val}"
  seedDigest seed := seed.2.2
  keyDigest keyRef := Fin.ofNat _ (keyRef.toList.foldl (fun n c ↦ 256 * n + c.toNat) 0)
  nodeDigest bytes := Fin.ofNat _ (bytes.headD 0).toNat
  base64Decode text := some (text.toList.map fun c ↦ UInt8.ofNat c.toNat)
  base64Encode bytes := String.ofList (bytes.map fun b ↦ Char.ofNat b.toNat)
  ed25519Verifies key _ signature := key = signature
  secp256k1Verifies key _ signature := key = signature
  serialisedSize _ := 512
  printable _ := true

/-- A delta under the readable primitives, signed with a key; its hash is `wall.0.node`. -/
@[reducible]
def SignedDelta.readable (did signer key : String) (wall node : U64) (op : DeltaOp)
    (parents : List String) : SignedDelta where
  did := ⟨did⟩
  timestamp := ⟨wall, 0, node⟩
  op := op
  parents := parents.map DeltaHash.mk
  proof := ⟨.ecdsaSecp256k1Signature2019, signer, "", key⟩

/-! ### Calendar -/

/-- The date and time of a number of seconds since 1970-01-01, by days since the civil epoch. -/
def secsToCivil (secs : ℕ) : ℕ × ℕ × ℕ × ℕ × ℕ × ℕ :=
  let days := secs / 86400
  let time := secs % 86400
  let h := time / 3600
  let mi := (time % 3600) / 60
  let s := time % 60
  let z := days + 719468
  let era := z / 146097
  let doe := z - era * 146097
  let yoe := (doe - doe / 1460 + doe / 36524 - doe / 146096) / 365
  let y := yoe + era * 400
  let doy := doe - (365 * yoe + yoe / 4 - yoe / 100)
  let mp := (5 * doy + 2) / 153
  let day := doy - (153 * mp + 2) / 5 + 1
  let month := if mp < 10 then mp + 3 else mp - 9
  let year := if month ≤ 2 then y + 1 else y
  (year, month, day, h, mi, s)

/-- A number in decimal, padded with zeros to a width. -/
def zeroPadded (width n : ℕ) : String :=
  String.ofList (List.replicate (width - (Nat.toDigits 10 n).length) '0' ++ Nat.toDigits 10 n)

/-- The ISO 8601 text of a time in milliseconds. -/
def msToIso8601 (wallMs : U64) : String :=
  let secs := wallMs.val / 1000
  let ms := wallMs.val % 1000
  let (y, mo, d, h, mi, s) := secsToCivil secs
  s!"{zeroPadded 4 y}-{zeroPadded 2 mo}-{zeroPadded 2 d}T{zeroPadded 2 h}:{zeroPadded 2 mi}:" ++
    s!"{zeroPadded 2 s}.{zeroPadded 3 ms}Z"

/-! ### Identity -/

namespace SignedDelta

/-- The payload whose canonical JSON is signed. -/
def signingInput (d : SignedDelta) : SigningPayload :=
  { did := d.did, op := d.op, parents := d.parents, timestamp := d.timestamp }

/-- The id of the verification method that the proof names. -/
def signer (d : SignedDelta) : String :=
  d.proof.verificationMethod

/-- A delta without signature and without predecessors. -/
def unsigned (did : Did) (op : DeltaOp) (timestamp : HlcTimestamp) (verificationMethod : String) :
    SignedDelta where
  did := did
  timestamp := timestamp
  op := op
  parents := []
  proof :=
    { suite := .ed25519Signature2020
      verificationMethod := verificationMethod
      created := msToIso8601 timestamp.wallMs
      proofValue := "" }

variable [Primitives]

/-- The content identity: the digest of the signed payload. -/
def contentHash (d : SignedDelta) : DeltaHash :=
  ⟨Primitives.payloadDigest d.signingInput⟩

/-- The proof is not part of the identity. -/
theorem contentHash_congr {d e : SignedDelta} (h : d.signingInput = e.signingInput) :
    d.contentHash = e.contentHash := by
  rw [contentHash, contentHash, h]

end SignedDelta

variable [Primitives]

/-- No two of the deltas with different payloads have the same content hash. -/
def CollisionFree (deltas : Set SignedDelta) : Prop :=
  ∀ d ∈ deltas, ∀ e ∈ deltas, d.contentHash = e.contentHash → d.signingInput = e.signingInput

namespace CollisionFree

variable {deltas : Set SignedDelta} {d e : SignedDelta}

theorem mono {others : Set SignedDelta} (h : CollisionFree deltas) (hsub : others ⊆ deltas) :
    CollisionFree others :=
  fun d hd e he ↦ h d (hsub hd) e (hsub he)

theorem op_eq (h : CollisionFree deltas) (hd : d ∈ deltas) (he : e ∈ deltas)
    (heq : d.contentHash = e.contentHash) : d.op = e.op :=
  congrArg SigningPayload.op (h d hd e he heq)

theorem parents_eq (h : CollisionFree deltas) (hd : d ∈ deltas) (he : e ∈ deltas)
    (heq : d.contentHash = e.contentHash) : d.parents = e.parents :=
  congrArg SigningPayload.parents (h d hd e he heq)

theorem timestamp_eq (h : CollisionFree deltas) (hd : d ∈ deltas) (he : e ∈ deltas)
    (heq : d.contentHash = e.contentHash) : d.timestamp = e.timestamp :=
  congrArg SigningPayload.timestamp (h d hd e he heq)

/-- Deltas listed with distinct content hashes do not collide. -/
theorem of_nodup {l : List SignedDelta} (h : (l.map SignedDelta.contentHash).Nodup) :
    CollisionFree {d | d ∈ l} := by
  intro d hd e he heq
  rw [List.inj_on_of_nodup_map h hd he heq]

/-- A delta with the payload of one of the collection collides with none. -/
theorem insert (h : CollisionFree deltas) (he : e ∈ deltas) (hsame : d.signingInput = e.signingInput) :
    CollisionFree (insert d deltas) := by
  have hhash := SignedDelta.contentHash_congr hsame
  rintro a hina b hinb heq
  rcases Set.mem_insert_iff.mp hina with rfl | ha
  · rcases Set.mem_insert_iff.mp hinb with rfl | hb
    · rfl
    · exact hsame.trans (h e he b hb (hhash.symm.trans heq))
  · rcases Set.mem_insert_iff.mp hinb with rfl | hb
    · exact (h a ha e he (heq.trans hhash)).trans hsame.symm
    · exact h a ha b hb heq

end CollisionFree

/-! ### Errors -/

/-- Why a causal verdict is final. -/
inductive RejectReason
  | deactivated
  | genesisOpNotAllowed
  | signerNotAuthorised
  | revoked
deriving DecidableEq, Repr

/-- The name of a reason, as it is printed in errors. -/
def RejectReason.debug : RejectReason → String
  | .deactivated => "Deactivated"
  | .genesisOpNotAllowed => "GenesisOpNotAllowed"
  | .signerNotAuthorised => "SignerNotAuthorised"
  | .revoked => "Revoked"

/-- Errors of the core. -/
inductive Error
  | invalidSignature
  | unauthorised (text : String)
  | deltaRejected (text : String)
  | deltaPending (missing : List DeltaHash)
  | deltaTooLarge (size max : ℕ)
deriving DecidableEq, Repr

/-- The text of an error. -/
def Error.message : Error → String
  | .invalidSignature => "invalid signature"
  | .unauthorised text => s!"authorisation denied: {text}"
  | .deltaRejected text => s!"delta rejected: {text}"
  | .deltaPending missing =>
    s!"delta pending: {missing.length} causal predecessor(s) not yet available"
  | .deltaTooLarge size max => s!"delta too large: {size} bytes exceeds maximum {max} bytes"

/-- A character of a quoted string: quotes, backslashes, control characters and characters that are not
printable are escaped. -/
def debugChar (c : Char) : String :=
  if c = '"' then "\\\""
  else if c = '\\' then "\\\\"
  else if c = '\n' then "\\n"
  else if c = '\r' then "\\r"
  else if c = '\t' then "\\t"
  else if c.toNat = 0 then "\\0"
  else if c.toNat < 32 ∨ c.toNat = 127 ∨ (127 < c.toNat ∧ Primitives.printable c = false) then
    "\\u\x7b" ++ String.ofList (Nat.toDigits 16 c.toNat) ++ "\x7d"
  else String.singleton c

/-- A string in quotes, as it is printed in errors. -/
def debugString (s : String) : String :=
  "\"" ++ String.join (s.toList.map debugChar) ++ "\""

theorem debugChar_of_plain {c : Char} (h : 31 < c.toNat ∧ c.toNat < 127 ∧ c ≠ '"' ∧ c ≠ '\\') :
    debugChar c = String.singleton c := by
  obtain ⟨hlow, hhigh, hquote, hslash⟩ := h
  have hcontrol : ∀ other : Char, other.toNat ≤ 31 → c ≠ other := by
    rintro other hother rfl
    exact absurd hother (Nat.not_le.mpr hlow)
  rw [debugChar, if_neg hquote, if_neg hslash, if_neg (hcontrol '\n' (by decide)),
    if_neg (hcontrol '\r' (by decide)), if_neg (hcontrol '\t' (by decide)), if_neg (by omega),
    if_neg (by omega)]

/-- Printable ASCII characters other than quotes and backslashes are not escaped. -/
theorem toList_debugString_of_plain {s : String}
    (h : ∀ c ∈ s.toList, 31 < c.toNat ∧ c.toNat < 127 ∧ c ≠ '"' ∧ c ≠ '\\') :
    (debugString s).toList = '"' :: s.toList ++ ['"'] := by
  have hplain : s.toList.map debugChar = s.toList.map String.singleton :=
    List.map_congr_left fun c hc ↦ debugChar_of_plain (h c hc)
  have hjoin : (String.join (s.toList.map String.singleton)).toList = s.toList := by
    simp [String.toList_join, List.flatMap_map]
  rw [debugString, hplain, String.toList_append, String.toList_append, hjoin]
  rfl

end DidCrdt
