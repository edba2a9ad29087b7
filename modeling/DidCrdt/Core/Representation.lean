import DidCrdt.Core.JsonValue
import DidCrdt.Core.Resolve

/-!
# Representations

What a resolver returns, as JSON. The document data of a resolved document is written among its other members.
-/

set_option autoImplicit false
set_option relaxedAutoImplicit false

namespace DidCrdt

open Records (written)

/-- The encoding of a proof. -/
def DeltaProof.toJson (p : DeltaProof) : Json :=
  .object [("type", .string p.suite.serialised), ("verification_method", .string p.verificationMethod),
    ("created", .string p.created), ("proof_value", .string p.proofValue)]

/-- The encoding of a delta. -/
def SignedDelta.toJson (d : SignedDelta) : Json :=
  .object [("did", .string d.did.toString), ("timestamp", d.timestamp.toJson), ("op", d.op.toJson),
    ("parents", .strings (d.parents.map DeltaHash.toString)), ("proof", d.proof.toJson)]

/-- The array of some items, which is left out when there are none. -/
def Json.nonEmpty (items : List Json) : Option Json := if items.isEmpty then none else some (.array items)

/-- The encoding of a bundle. -/
def ClosureBundle.toJson (bundle : ClosureBundle) : Json :=
  .object [("target", .string bundle.target.toString),
    ("deltas", .array (bundle.deltas.map SignedDelta.toJson))]

/-- The members of a verification method. -/
def VerificationMethod.parts (m : VerificationMethod) : List (String × Option Json) :=
  [("id", some (.string m.id)), ("type", some (.string m.type)), ("controller", some (.string m.controller)),
    ("publicKeyMultibase", m.publicKeyMultibase.map .string), ("publicKeyJwk", m.publicKeyJwk)]

/-- The encoding of a verification method. -/
def VerificationMethod.toJson (m : VerificationMethod) : Json := .object (written m.parts)

/-- The encoding of a service. -/
def ServiceEndpoint.toJson (s : ServiceEndpoint) : Json :=
  .object [("id", .string s.id), ("type", .string s.type), ("serviceEndpoint", s.endpoint)]

/-- The members of a document, without the document data. -/
def DidDocument.parts (doc : DidDocument) : List (String × Option Json) :=
  [("@context", some (.array doc.context)), ("id", some (.string doc.id)),
    ("alsoKnownAs", Json.nonEmpty (doc.alsoKnownAs.map .string)),
    ("verificationMethod", Json.nonEmpty (doc.verificationMethod.map VerificationMethod.toJson)),
    ("authentication", Json.nonEmpty doc.authentication),
    ("assertionMethod", Json.nonEmpty doc.assertionMethod),
    ("keyAgreement", Json.nonEmpty doc.keyAgreement),
    ("capabilityInvocation", Json.nonEmpty doc.capabilityInvocation),
    ("capabilityDelegation", Json.nonEmpty doc.capabilityDelegation),
    ("service", Json.nonEmpty (doc.service.map ServiceEndpoint.toJson))]

/-- The encoding of a document. -/
def DidDocument.toJson (doc : DidDocument) : Json := .object (written doc.parts ++ doc.extra.toList)

/-- The members of the metadata of a document. -/
def DidDocumentMetadata.parts (m : DidDocumentMetadata) : List (String × Option Json) :=
  [("deactivated", some (.bool m.deactivated)), ("versionId", some (.string m.versionId)),
    ("created", m.created.map .string), ("updated", m.updated.map .string),
    ("genesisPublicKeyMultibase", m.genesisPublicKeyMultibase.map .string),
    ("signedClosure", m.signedClosure.map ClosureBundle.toJson)]

/-- The encoding of the metadata of a document. -/
def DidDocumentMetadata.toJson (m : DidDocumentMetadata) : Json := .object (written m.parts)

/-- The encoding of what a resolver returns. -/
def ResolutionResult.toJson (r : ResolutionResult) : Json :=
  .object [("didResolutionMetadata", .object [("contentType", .string r.contentType)]),
    ("didDocument", (r.didDocument.map DidDocument.toJson).getD .null),
    ("didDocumentMetadata", r.didDocumentMetadata.toJson)]

end DidCrdt
