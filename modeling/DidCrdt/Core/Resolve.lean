import DidCrdt.Core.Document

/-!
# Resolution and content hash

`resolve` projects the fields of a document to what a resolver returns: a DID document, unless the
document is deactivated, and its metadata with the version identifier. `contentHash` is the digest by
which replicas compare their states. Each of the two digests is taken of a tuple of fields written out
in the source. Neither reads the log or the DAG, so both are functions of the replicated fields.
-/

set_option autoImplicit false
set_option relaxedAutoImplicit false

namespace DidCrdt

open Std (ExtTreeMap)
open LastWriter (LWWReg)

/-! ### The resolved document -/

/-- A verification method of a resolved document. -/
structure VerificationMethod where
  id : String
  type : String
  controller : String
  publicKeyMultibase : Option String
  publicKeyJwk : Option Json

/-- A service of a resolved document. -/
structure ServiceEndpoint where
  id : String
  type : String
  endpoint : Json

/-- A resolved document. -/
structure DidDocument where
  context : List Json
  id : String
  alsoKnownAs : List String
  verificationMethod : List VerificationMethod
  authentication : List Json
  assertionMethod : List Json
  keyAgreement : List Json
  capabilityInvocation : List Json
  capabilityDelegation : List Json
  service : List ServiceEndpoint
  extra : ExtTreeMap String Json compare

/-- The metadata of a resolved document. -/
structure DidDocumentMetadata where
  deactivated : Bool
  versionId : String
  created : Option String
  updated : Option String
  genesisPublicKeyMultibase : Option String
  signedClosure : Option ClosureBundle

/-- What a resolver returns. -/
structure ResolutionResult where
  contentType : String
  didDocument : Option DidDocument
  didDocumentMetadata : DidDocumentMetadata

/-- The type of a projected twin. -/
def jsonWebKeyType : String := "JsonWebKey"

/-- The fragment prefix of a projected twin. -/
def jwkFragmentPrefix : String := "#jwk-"

namespace DidDocument

/-- The contexts of every document. -/
def baseContext : List Json :=
  [.string "https://www.w3.org/ns/did/v1", .string "https://w3id.org/security/suites/ed25519-2020/v1"]

/-- The document without content. -/
def empty (did : Did) : DidDocument where
  context := baseContext
  id := did.toString
  alsoKnownAs := []
  verificationMethod := []
  authentication := []
  assertionMethod := []
  keyAgreement := []
  capabilityInvocation := []
  capabilityDelegation := []
  service := []
  extra := ∅

/-- Places a key reference into the array of a relationship. -/
def place (keyRef : Json) (doc : DidDocument) : VerificationRelationship → DidDocument
  | .authentication => { doc with authentication := doc.authentication ++ [keyRef] }
  | .assertionMethod => { doc with assertionMethod := doc.assertionMethod ++ [keyRef] }
  | .keyAgreement => { doc with keyAgreement := doc.keyAgreement ++ [keyRef] }
  | .capabilityInvocation =>
    { doc with capabilityInvocation := doc.capabilityInvocation ++ [keyRef] }
  | .capabilityDelegation =>
    { doc with capabilityDelegation := doc.capabilityDelegation ++ [keyRef] }

/-- Adds a verification method with its relationships. -/
def addMethod (did : Did) (doc : DidDocument) (entry : VerificationMethodEntry) : DidDocument :=
  entry.relationships.foldl (place (.string entry.id))
    { doc with
        verificationMethod := doc.verificationMethod ++
          [⟨entry.id, entry.suiteType.verificationMethodType, did.toString,
            some entry.publicKeyMultibase, none⟩] }

/-- Adds a projected twin, which asserts. -/
def addTwin (doc : DidDocument) (twin : VerificationMethod) : DidDocument :=
  { doc with
      assertionMethod := doc.assertionMethod ++ [.string twin.id]
      verificationMethod := doc.verificationMethod ++ [twin] }

/-- The methods that assert, ordered by id. -/
def asserting (doc : DidDocument) : List VerificationMethod :=
  (doc.verificationMethod.filter fun m ↦
    doc.assertionMethod.any fun r ↦
      match r with
      | .string s => s = m.id
      | _ => false).insertionSort fun a b ↦ a.id ≤ b.id

end DidDocument

/-! ### The digests -/

/-- The content of the version identifier. -/
structure VersionContent where
  did : String
  verificationMethods : List VerificationMethodEntry
  serviceEndpoints : List ServiceEntry
  documentData : List (String × Json)
  alsoKnownAs : List String
  revocations : List String
  revokedVerificationMethods : List String
  activeKey : Option String
  activeSeq : U64
  deactivated : Bool

/-- The content of the content hash. -/
structure StateContent where
  did : Did
  verificationMethods : VerificationMethods
  serviceEndpoints : ServiceEndpoints
  documentData : DocumentData
  activeKey : ActiveKey
  revocations : GSet String
  revokedVerificationMethods : GSet String
  deactivated : Bool
  createdMs : Option U64
  updatedMs : Option U64

/-- The BLAKE3 digests of the JSON of the two tuples. -/
class StateDigests where
  version : VersionContent → String
  content : StateContent → Blake3Hash

/-- Digests that can be evaluated: aliases and services, and the update time. -/
@[reducible]
def StateDigests.readable : StateDigests where
  version c := String.intercalate "," (c.alsoKnownAs ++ c.serviceEndpoints.map ServiceEntry.id)
  content c := Fin.ofNat _ (c.updatedMs.elim 0 fun wall ↦ wall.val + 1)

variable [Primitives]

/-- The JWK of a multibase Ed25519 key. -/
def jwkFromMultibase (multibase : String) : Option Json :=
  match multibase.toList with
  | 'u' :: rest =>
    match Primitives.base64Decode (String.ofList rest) with
    | some raw =>
      if raw.length ≠ 32 then none
      else
        some (.object [("crv", .string "Ed25519"), ("kty", .string "OKP"),
          ("x", .string (Primitives.base64Encode raw))])
    | none => none
  | _ => none

/-- The twins of the asserting methods whose keys can be rendered, numbered by position. -/
def DidDocument.twins (did : Did) (doc : DidDocument) : List VerificationMethod :=
  doc.asserting.zipIdx.filterMap fun (method, index) ↦
    method.publicKeyMultibase.bind fun multibase ↦
      (jwkFromMultibase multibase).map fun jwk ↦
        ⟨s!"{did.toString}{jwkFragmentPrefix}{index}", jsonWebKeyType, did.toString, none, some jwk⟩

namespace CrdtState

/-- The key from which the DID was derived. -/
def genesisPublicKeyMultibase (s : CrdtState) : Option String :=
  ((GSet.entries s.verificationMethods).find? fun e ↦ deriveDid e.publicKeyMultibase = s.did).map
    VerificationMethodEntry.publicKeyMultibase

/-- The pairs of the document data. -/
def dataEntries (s : CrdtState) : List (String × Json) :=
  s.documentData.toList.map fun entry ↦ (entry.1, entry.2.val)

/-- The methods of the document that are not revoked. -/
def authorisedMethods (s : CrdtState) : List VerificationMethodEntry :=
  (GSet.entries s.verificationMethods).filter fun entry ↦
    !s.revokedVerificationMethods.contains entry.id

/-- The resolved document. -/
def didDocument (s : CrdtState) : DidDocument :=
  let doc := s.authorisedMethods.foldl (DidDocument.addMethod s.did) (.empty s.did)
  let doc := (doc.twins s.did).foldl DidDocument.addTwin doc
  { doc with
      service := s.serviceEndpoints.entries.map fun entry ↦
        ⟨entry.id, entry.serviceType, .string entry.endpoint⟩
      alsoKnownAs := s.alsoKnownAs.entries
      extra := (s.dataEntries.filter fun entry ↦ !isReservedDocumentProperty entry.1).foldl
        (fun extra entry ↦ extra.insert entry.1 entry.2) ∅ }

/-- The tuple that the version identifier is the digest of. -/
def versionContent (s : CrdtState) : VersionContent where
  did := s.did.toString
  verificationMethods := GSet.entries s.verificationMethods
  serviceEndpoints := s.serviceEndpoints.entries
  documentData := s.dataEntries
  alsoKnownAs := s.alsoKnownAs.entries
  revocations := GSet.entries s.revocations
  revokedVerificationMethods := GSet.entries s.revokedVerificationMethods
  activeKey := s.activeKey.current
  activeSeq := s.activeKey.seq
  deactivated := s.deactivated

/-- The tuple that the content hash is the digest of. -/
def stateContent (s : CrdtState) : StateContent where
  did := s.did
  verificationMethods := s.verificationMethods
  serviceEndpoints := s.serviceEndpoints
  documentData := s.documentData
  activeKey := s.activeKey
  revocations := s.revocations
  revokedVerificationMethods := s.revokedVerificationMethods
  deactivated := s.deactivated
  createdMs := s.createdMs
  updatedMs := s.updatedMs

end CrdtState

namespace Document

variable [StateDigests]

/-- Projects the fields to what a resolver returns. -/
def resolve (doc : Document) : ResolutionResult where
  contentType := "application/did+ld+json"
  didDocument := if doc.isDeactivated then none else some doc.toCrdtState.didDocument
  didDocumentMetadata :=
    { deactivated := doc.isDeactivated
      versionId := StateDigests.version doc.toCrdtState.versionContent
      created := doc.createdMs.map msToIso8601
      updated := doc.updatedMs.map msToIso8601
      genesisPublicKeyMultibase := doc.toCrdtState.genesisPublicKeyMultibase
      signedClosure := none }

/-- The digest of the state. -/
def contentHash (doc : Document) : Blake3Hash :=
  StateDigests.content doc.toCrdtState.stateContent

/-- The fields determine what is resolved. -/
theorem resolve_congr {doc doc' : Document} (h : doc.toCrdtState = doc'.toCrdtState) :
    doc.resolve = doc'.resolve := by
  rw [resolve, resolve, isDeactivated, isDeactivated, h]

end Document

end DidCrdt
