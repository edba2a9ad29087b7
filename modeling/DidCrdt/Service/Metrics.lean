import DidCrdt.Core.Did
import DidCrdt.Service.Resolution

/-!
# Metrics

The handlers count what they answer. A submission that is refused is counted under a reason, and the reason
for a refusal by the core is read off the text of its error (`rejectionReason`). What a peer delivers is not
counted.
-/

set_option autoImplicit false
set_option relaxedAutoImplicit false

namespace DidCrdt

/-! ### Counters -/

/-- How large a document is. -/
inductive DocumentSizeBucket
  | small
  | medium
  | large
deriving DecidableEq, Repr

/-- What became of a delta. -/
inductive DeltaOutcome
  | accepted
  | rejected
deriving DecidableEq, Repr

/-- Why a delta was rejected. -/
inductive RejectionReason
  | unknownDid
  | pending
  | invalidSignature
  | deactivatedDid
  | staleRotation
  | unauthorised
  | rejected
deriving DecidableEq, Repr

/-- One more under a label. -/
def increment {κ : Type} [DecidableEq κ] (counter : κ → ℕ) (label : κ) : κ → ℕ :=
  Function.update counter label (counter label + 1)

/-- The metrics that the handlers record: the number of resolutions by size, the deltas by outcome, the
rejections by reason, and the size of the stored state by identifier. -/
structure Metrics where
  resolutions : DocumentSizeBucket → ℕ
  deltasMerged : DeltaOutcome → ℕ
  deltaRejections : RejectionReason → ℕ
  stateSize : String → Option ℤ

namespace Metrics

/-- Nothing recorded. -/
def new : Metrics := ⟨fun _ ↦ 0, fun _ ↦ 0, fun _ ↦ 0, fun _ ↦ none⟩

/-- Records a resolution of a document with so many fields. -/
def observeResolution (metrics : Metrics) (fieldCount : ℕ) : Metrics :=
  let bucket : DocumentSizeBucket :=
    if fieldCount < 10 then .small else if fieldCount < 100 then .medium else .large
  { metrics with resolutions := increment metrics.resolutions bucket }

/-- Records an accepted delta and the size of the state after it. -/
def recordDeltaAccepted (metrics : Metrics) (didTruncated : String) (stateBytes : ℤ) : Metrics :=
  { metrics with
    deltasMerged := increment metrics.deltasMerged .accepted
    stateSize := Function.update metrics.stateSize didTruncated (some stateBytes) }

/-- Records a rejected delta. -/
def recordDeltaRejected (metrics : Metrics) (reason : RejectionReason) : Metrics :=
  { metrics with
    deltasMerged := increment metrics.deltasMerged .rejected
    deltaRejections := increment metrics.deltaRejections reason }

end Metrics

/-- The first digits of an identifier, which label its metrics. -/
def truncateDid (didStr : String) : String :=
  let id := (Did.afterPrefix Did.methodPrefix.toList didStr.toList).getD didStr.toList
  String.ofList (id.take 16)

/-- Whether a text contains a word. -/
def containsWord (text word : String) : Bool := word.toList <:+: text.toList

/-- The reason under which a refusal by the core is counted. -/
def rejectionReason (err : Error) : RejectionReason :=
  match err with
  | .deltaRejected text =>
    if containsWord text "deactivated" then .deactivatedDid
    else if containsWord text "seq" then .staleRotation
    else .rejected
  | .unauthorised _ => .unauthorised
  | _ => .rejected

/-- The number of fields of a resolved document. -/
def ResolutionResult.fieldCount (result : ResolutionResult) : ℕ :=
  match result.didDocument with
  | some document =>
    document.verificationMethod.length + document.service.length + document.extra.size
  | none => 0

/-! ### Handlers -/

/-- The documents and the metrics of a service. -/
structure AppState where
  docs : Docs
  metrics : Metrics

namespace AppState

/-- A service that starts over no documents. -/
def new : AppState := ⟨∅, .new⟩

variable [Primitives] (storedSize : Document → ℤ)

/-- Creates a document from a public key. -/
def createDid [StateDigests] (state : AppState) (publicKeyMultibase : String) : AppState × Response :=
  let (doc, _) := Document.new publicKeyMultibase
  let did := doc.did
  let metrics := state.metrics.recordDeltaAccepted (truncateDid did.toString) (storedSize doc)
  (⟨state.docs.insert did doc, metrics⟩, ⟨.created, .document did.toString doc.resolve⟩)

/-- Accepts a delta for the document of the path. A delta that is too large or that names another document
than the path is not counted. -/
def submitDelta (state : AppState) (didStr : String) (delta : SignedDelta) : AppState × Response :=
  let reject := fun (docs : Docs) (reason : RejectionReason) ↦
    AppState.mk docs (state.metrics.recordDeltaRejected reason)
  let size := Primitives.serialisedSize delta
  if maxDeltaSize < size then
    (state, ⟨.payloadTooLarge, .text
      s!"delta too large: {size} bytes exceeds maximum {maxDeltaSize} bytes"⟩)
  else if delta.did.toString ≠ didStr then
    (state, ⟨.badRequest, .text "DID in path does not match DID in delta"⟩)
  else
    let did := delta.did
    match state.docs[did]? with
    | none => (reject state.docs .unknownDid, ⟨.notFound, .empty⟩)
    | some doc =>
      let missing := doc.missingParents delta
      if !missing.isEmpty then (reject state.docs .pending, pendingResponse missing)
      else
        match verifySignature delta doc with
        | .error err => (reject state.docs .invalidSignature, ⟨.forbidden, .text err.message⟩)
        | .ok () =>
          match doc.merge delta with
          | (doc, .ok ()) =>
            (⟨state.docs.insert did doc,
              state.metrics.recordDeltaAccepted (truncateDid didStr) (storedSize doc)⟩,
              ⟨.accepted, .empty⟩)
          | (doc, .error (.deltaPending missing)) =>
            (reject (state.docs.insert did doc) .pending, pendingResponse missing)
          | (doc, .error err) =>
            (reject (state.docs.insert did doc) (rejectionReason err), coreErrorResponse err)

/-- Resolves an identifier. Only an answer that carries a result is counted. -/
def resolveDid [StateDigests] (state : AppState) (didStr : String) (includeClosure : Option String) :
    AppState × ResolutionAnswer :=
  let answer := DidCrdt.resolveDid state.docs didStr includeClosure
  match answer.result with
  | none => (state, answer)
  | some result =>
    ({ state with metrics := state.metrics.observeResolution result.fieldCount }, answer)

/-- Merges a delivered payload, which no metric records. -/
def mergeInbound (state : AppState) (msg : SyncMessage) (policy : BootstrapPolicy) : AppState :=
  { state with docs := (DidCrdt.mergeInbound state.docs msg policy).1 }

end AppState

end DidCrdt
