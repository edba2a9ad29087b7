import DidCrdt.Core.Document

/-!
# Authoring

A delta is built on a set of parents and signed: the parents are put in canonical order, and the signature
covers the payload with them (`SignedDelta.newWithParents`). Authors pass the frontier of their replica
(`Document.author`). The private keys, and what is done with them, come from the signature crates.
-/

set_option autoImplicit false
set_option relaxedAutoImplicit false

namespace DidCrdt

/-- The private keys of the two suites, with their public keys and signatures. -/
class PrivateKeys where
  Ed25519 : Type
  Secp256k1 : Type
  ed25519Public : Ed25519 → List UInt8
  ed25519Sign : Ed25519 → SigningPayload → List UInt8
  secp256k1Public : Secp256k1 → List UInt8
  secp256k1Sign : Secp256k1 → SigningPayload → List UInt8

/-- Private keys that can be evaluated, of one suite: public key and signature are the private key itself. -/
@[reducible]
def PrivateKeys.readable : PrivateKeys where
  Ed25519 := Empty
  Secp256k1 := List UInt8
  ed25519Public := Empty.elim
  ed25519Sign key _ := key.elim
  secp256k1Public := id
  secp256k1Sign key _ := key

/-- A signing key. -/
inductive SigningKey [PrivateKeys]
  | ed25519 (key : PrivateKeys.Ed25519)
  | secp256k1 (key : PrivateKeys.Secp256k1)

namespace SigningKey

variable [PrivateKeys]

/-- The suite of the proofs that the key makes. -/
def suiteType : SigningKey → SuiteType
  | ed25519 _ => .ed25519Signature2020
  | secp256k1 _ => .ecdsaSecp256k1Signature2019

/-- The bytes of the public key. -/
def publicKey : SigningKey → List UInt8
  | ed25519 key => PrivateKeys.ed25519Public key
  | secp256k1 key => PrivateKeys.secp256k1Public key

/-- The bytes of the signature of a payload. -/
def sign : SigningKey → SigningPayload → List UInt8
  | ed25519 key, payload => PrivateKeys.ed25519Sign key payload
  | secp256k1 key, payload => PrivateKeys.secp256k1Sign key payload

end SigningKey

/-- The signatures of the crates verify, have the lengths of their suites, and their encoding is decoded
again. -/
structure PrivateKeys.Sound [Primitives] [PrivateKeys] : Prop where
  ed25519Key : ∀ key, (PrivateKeys.ed25519Public key).length = 32
  ed25519Signature : ∀ key payload, (PrivateKeys.ed25519Sign key payload).length = 64
  ed25519Verifies : ∀ key payload, Primitives.ed25519Verifies (PrivateKeys.ed25519Public key) payload
    (PrivateKeys.ed25519Sign key payload) = true
  secp256k1Verifies : ∀ key payload, Primitives.secp256k1Verifies (PrivateKeys.secp256k1Public key) payload
    (PrivateKeys.secp256k1Sign key payload) = true
  decodes : ∀ bytes, Primitives.base64Decode (Primitives.base64Encode bytes) = some bytes

variable [Primitives] [PrivateKeys]

/-- Sorts the parents and removes duplicates. -/
def canonicaliseParents (parents : List DeltaHash) : List DeltaHash := OrderedMaps.sortDedup parents

/-- A signed delta on some parents. -/
def SignedDelta.newWithParents (did : Did) (op : DeltaOp) (timestamp : HlcTimestamp)
    (parents : List DeltaHash) (verificationMethod : String) (key : SigningKey) : SignedDelta :=
  let parents := canonicaliseParents parents
  { did := did
    timestamp := timestamp
    op := op
    parents := parents
    proof :=
      { suite := key.suiteType
        verificationMethod := verificationMethod
        created := msToIso8601 timestamp.wallMs
        proofValue := "u" ++ Primitives.base64Encode (key.sign ⟨did, op, parents, timestamp⟩) } }

/-- A signed delta without parents. -/
def SignedDelta.newGenesis (did : Did) (op : DeltaOp) (timestamp : HlcTimestamp)
    (verificationMethod : String) (key : SigningKey) : SignedDelta :=
  .newWithParents did op timestamp [] verificationMethod key

/-- A signed delta on the frontier of a document. -/
def Document.author (doc : Document) (op : DeltaOp) (timestamp : HlcTimestamp) (verificationMethod : String)
    (key : SigningKey) : SignedDelta :=
  .newWithParents doc.did op timestamp doc.frontier verificationMethod key

section Signed

variable {did : Did} {op : DeltaOp} {timestamp : HlcTimestamp} {parents : List DeltaHash}
  {verificationMethod : String} {key : SigningKey}

omit [Primitives] [PrivateKeys] in
/-- Parents in canonical order pass the check of the order. -/
theorem isCanonicalParents_canonicaliseParents (parents : List DeltaHash) :
    isCanonicalParents (canonicaliseParents parents) = true := by
  have hcheck : ∀ l : List DeltaHash, l.Pairwise (· < ·) → isCanonicalParents l = true := by
    intro l hl
    induction l with
    | nil => rfl
    | cons p l ih =>
      cases l with
      | nil => rfl
      | cons q rest =>
        obtain ⟨hfirst, hrest⟩ := List.pairwise_cons.mp hl
        have hhead : decide (p < q) = true := decide_eq_true (hfirst q List.mem_cons_self)
        change (decide (p < q) && isCanonicalParents (q :: rest)) = true
        rw [hhead, ih hrest]
        rfl
  exact hcheck _ (OrderedMaps.pairwise_sortDedup parents)

/-- The signature of a new delta verifies under its key, when the timestamp is bound to the key. -/
theorem signedUnder_newWithParents (hsound : PrivateKeys.Sound) {publicKeyMultibase : String}
    (hkey : decodeMultibaseU publicKeyMultibase = .ok key.publicKey) :
    SignedUnder (.newWithParents did op timestamp parents verificationMethod key) publicKeyMultibase ↔
      timestamp.nodeId = Primitives.nodeDigest key.publicKey := by
  let d := SignedDelta.newWithParents did op timestamp parents verificationMethod key
  let sigBytes := key.sign d.signingInput
  have htext : d.proof.proofValue.toList = 'u' :: (Primitives.base64Encode sigBytes).toList :=
    String.toList_append
  have hdecode : decodeMultibaseU d.proof.proofValue = .ok sigBytes := by
    rw [decodeMultibaseU, htext]
    simp only [String.ofList_toList, hsound.decodes]
  have hnonempty : d.proof.proofValue.isEmpty = false := by
    refine String.isEmpty_eq_false_iff.mpr fun hempty ↦ ?_
    rw [hempty] at htext
    exact absurd htext (by simp)
  have hunder : verifyUnderKey d sigBytes publicKeyMultibase = .ok () ↔
      timestamp.nodeId = Primitives.nodeDigest key.publicKey := by
    have htime : d.timestamp = timestamp := rfl
    have hsuite : d.proof.suite = key.suiteType := rfl
    rw [verifyUnderKey, hkey]
    simp only [htime, hsuite]
    by_cases hnode : timestamp.nodeId = Primitives.nodeDigest key.publicKey
    · simp only [hnode, iff_true, ne_eq, not_true_eq_false, ↓reduceIte]
      cases key with
      | ed25519 key =>
        have hkeyLength : (SigningKey.ed25519 key).publicKey.length = 32 := hsound.ed25519Key key
        have hsigLength : sigBytes.length = 64 := hsound.ed25519Signature key d.signingInput
        have hverifies : Primitives.ed25519Verifies (SigningKey.ed25519 key).publicKey d.signingInput
          sigBytes = true := hsound.ed25519Verifies key d.signingInput
        simp [SigningKey.suiteType, hkeyLength, hsigLength, hverifies]
      | secp256k1 key =>
        have hverifies : Primitives.secp256k1Verifies (SigningKey.secp256k1 key).publicKey d.signingInput
          sigBytes = true := hsound.secp256k1Verifies key d.signingInput
        simp [SigningKey.suiteType, hverifies]
    · simp [hnode]
  constructor
  · rintro ⟨-, sigBytes', hdecode', hverifies⟩
    obtain rfl : sigBytes = sigBytes' := Except.ok.inj (hdecode.symm.trans hdecode')
    exact hunder.mp hverifies
  · exact fun hnode ↦ ⟨hnonempty, sigBytes, hdecode, hunder.mpr hnode⟩

end Signed

end DidCrdt
