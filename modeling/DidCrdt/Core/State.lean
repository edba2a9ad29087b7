import DidCrdt.Core.Crdt
import DidCrdt.Core.Causal

/-!
# The state of a document

A `Document` holds its replicated fields, the log of the deltas it applied and the DAG over them.
The replicated fields alone are its `CrdtState`: what is resolved and hashed. `applyOp` is the effect
of an operation on them; a removal of a service endpoint looks back into the DAG for the additions
in its causal past.
-/

set_option autoImplicit false
set_option relaxedAutoImplicit false

namespace DidCrdt

open LastWriter (LWWReg)

/-- The replicated fields of a document. -/
@[ext]
structure CrdtState where
  did : Did
  verificationMethods : VerificationMethods
  serviceEndpoints : ServiceEndpoints
  documentData : DocumentData
  alsoKnownAs : AlsoKnownAs
  activeKey : ActiveKey
  revocations : GSet String
  revokedVerificationMethods : GSet String
  deactivated : Bool
  createdMs : Option U64
  updatedMs : Option U64

/-- A document: its replicated fields, its log, and the DAG over the log. -/
structure Document extends CrdtState where
  deltaLog : List SignedDelta
  dag : DeltaDag

namespace CrdtState

/-- The state of a document to which nothing was applied. -/
def empty (did : Did) (wall : U64) : CrdtState where
  did := did
  verificationMethods := ∅
  serviceEndpoints := .new
  documentData := ∅
  alsoKnownAs := .new
  activeKey := .new
  revocations := ∅
  revokedVerificationMethods := ∅
  deactivated := false
  createdMs := some wall
  updatedMs := some wall

/-- The latest wall time of the applied deltas. -/
def touch (updated : Option U64) (wall : U64) : Option U64 :=
  match updated with
  | some prev => if prev < wall then some wall else some prev
  | none => some wall

variable [Primitives]

/-- The effect of an operation, given the dots of the additions that a removal observed. -/
def apply (s : CrdtState) (op : DeltaOp) (timestamp : HlcTimestamp) (observed : List Dot) :
    CrdtState :=
  let s := { s with updatedMs := touch s.updatedMs timestamp.wallMs }
  match op with
  | .addVerificationMethod id publicKeyMultibase suiteType relationships =>
    { s with verificationMethods :=
        s.verificationMethods.insert ⟨id, publicKeyMultibase, suiteType, relationships⟩ }
  | .addServiceEndpoint id serviceType endpoint =>
    { s with serviceEndpoints := s.serviceEndpoints.applyAdd ⟨id, serviceType, endpoint⟩ timestamp }
  | .removeServiceEndpoint _ =>
    { s with serviceEndpoints := s.serviceEndpoints.applyRemove observed timestamp }
  | .setAlsoKnownAs uris => { s with alsoKnownAs := s.alsoKnownAs.set uris timestamp }
  | .setDocumentData key value =>
    { s with documentData := s.documentData.set key value timestamp }
  | .rotateKey seq keyRef => { s with activeKey := s.activeKey.rotate seq keyRef }
  | .revokeCredential credentialId => { s with revocations := s.revocations.insert credentialId }
  | .revokeVerificationMethod keyId =>
    { s with revokedVerificationMethods := s.revokedVerificationMethods.insert keyId }
  | .deactivate => { s with deactivated := true }

end CrdtState

namespace Document

/-- The dots of the additions of an id in the closure of the parents. -/
def observedAdds (dag : DeltaDag) (id : String) (parents : List DeltaHash) : List Dot :=
  dag.closureCollect parents fun d ↦
    match d.op with
    | .addServiceEndpoint added _ _ => if added = id then some d.timestamp else none
    | _ => none

/-- The dots that an operation removes. -/
def observedDots (dag : DeltaDag) (op : DeltaOp) (parents : List DeltaHash) : List Dot :=
  match op with
  | .removeServiceEndpoint id => observedAdds dag id parents
  | _ => []

/-- Applies an operation to the fields. -/
def applyOp [Primitives] (doc : Document) (op : DeltaOp) (timestamp : HlcTimestamp)
    (parents : List DeltaHash) : Document :=
  { doc with toCrdtState := doc.toCrdtState.apply op timestamp (observedDots doc.dag op parents) }

/-- Whether the credential is revoked. -/
def isRevoked (doc : Document) (credentialId : String) : Bool := doc.revocations.contains credentialId

/-- Whether the verification method is revoked. -/
def isVmRevoked (doc : Document) (keyId : String) : Bool :=
  doc.revokedVerificationMethods.contains keyId

/-- Whether the document is deactivated. -/
def isDeactivated (doc : Document) : Bool := doc.deactivated

/-- The frontier of the DAG. -/
def frontier (doc : Document) : List DeltaHash := doc.dag.frontier

/-- The content hashes of the log. -/
def logHashes [Primitives] (doc : Document) : List DeltaHash := doc.deltaLog.map SignedDelta.contentHash

end Document

end DidCrdt
