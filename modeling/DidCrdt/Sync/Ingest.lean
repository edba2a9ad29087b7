import DidCrdt.Library.Transactions
import DidCrdt.Sync.Gossip

/-!
# Ingestion, step by step

The operations that admit input mutate a document in place, and the encoders that they call between
two mutations may fail. This module states them as such: as computations that mutate the document (or
the documents of a replica) one step at a time, and that stop at the first error with whatever was
done before it.

An `Encoder` says which values cannot be encoded; where it does not fail, the primitives give the
result. `Document.merge` and its siblings are these computations over an encoder that never fails.
-/

set_option autoImplicit false
set_option relaxedAutoImplicit false

namespace DidCrdt

open Std (ExtTreeMap ExtTreeSet)

/-! ### Encoders that may fail -/

/-- Why a value cannot be encoded, if it cannot. -/
class Encoder where
  /-- The JSON of a delta. -/
  deltaFailure : SignedDelta → Option String
  /-- The canonical JSON of a payload, which is signed and hashed. -/
  payloadFailure : SigningPayload → Option String
  /-- The JSON of a genesis timestamp, operation and key. -/
  seedFailure : HlcTimestamp × DeltaOp × String → Option String

/-- The encoder that never fails. -/
@[reducible]
def Encoder.reliable : Encoder := ⟨fun _ ↦ none, fun _ ↦ none, fun _ ↦ none⟩

/-- Errors of ingestion: those of the core, and failures of the encoder. -/
inductive IngestError
  | core (err : Error)
  | serialisation (text : String)
deriving DecidableEq, Repr

/-- The text of an error. -/
def IngestError.message : IngestError → String
  | .core err => err.message
  | .serialisation text => s!"serialisation error: {text}"

/-- A computation that mutates a document. -/
abbrev Ingest (α : Type) : Type := Transaction Document IngestError α

namespace Ingest

variable {α : Type}

/-- A check of the core. -/
def check (r : Except Error α) : Ingest α := Transaction.ofExcept (r.mapError .core)

/-- A call of an encoder. -/
def encode (failure : Option String) : Except IngestError Unit :=
  match failure with
  | none => .ok ()
  | some text => .error (.serialisation text)

variable [Encoder] [Primitives]

/-- The content hash of a delta, if its payload can be encoded. -/
def contentHash (d : SignedDelta) : Except IngestError DeltaHash :=
  (encode (Encoder.payloadFailure d.signingInput)).map fun _ ↦ d.contentHash

/-- Verifies the proof of a delta. The payload is encoded after the signature is decoded. -/
def verifySignature (d : SignedDelta) (doc : Document) : Except IngestError Unit :=
  let verdict := (DidCrdt.verifySignature d doc).mapError .core
  if d.proof.proofValue.isEmpty then verdict
  else
    match decodeMultibaseU d.proof.proofValue with
    | .error _ => verdict
    | .ok _ =>
      match encode (Encoder.payloadFailure d.signingInput) with
      | .error err => .error err
      | .ok () => verdict

/-! ### Deltas -/

/-- Applies an operation to the fields. -/
def applyOp (op : DeltaOp) (timestamp : HlcTimestamp) (parents : List DeltaHash) : Ingest Unit :=
  modify fun doc ↦ doc.applyOp op timestamp parents

/-- Inserts a delta into the DAG, which hashes it. -/
def insertDag (d : SignedDelta) : Ingest Unit := do
  let _ ← Transaction.ofExcept (contentHash d)
  modify fun doc ↦ { doc with dag := doc.dag.insert d }

/-- Appends a delta to the log. -/
def pushLog (d : SignedDelta) : Ingest Unit :=
  modify fun doc ↦ { doc with deltaLog := doc.deltaLog ++ [d] }

/-- Refuses parents that are not strictly ascending. -/
def canonicalGate (d : SignedDelta) : Except Error Unit :=
  if isCanonicalParents d.parents then .ok ()
  else .error (.deltaRejected "delta parents are not sorted and deduplicated")

/-- Validates and applies a delta. -/
def merge (d : SignedDelta) : Ingest Unit := do
  Transaction.ofExcept (encode (Encoder.deltaFailure d))
  let doc ← get
  check (doc.staticGates d)
  let h ← Transaction.ofExcept (contentHash d)
  if doc.dag.contains h then pure ()
  else
    check (canonicalGate d)
    check (doc.causalGate d)
    check (doc.stateImportFloor d)
    applyOp d.op d.timestamp d.parents
    insertDag d
    pushLog d

/-- Holds a delta with missing predecessors back. -/
def pendingGate (doc : Document) (d : SignedDelta) : Except Error Unit :=
  match verifyCausal d doc.dag with
  | .unknown missing => .error (.deltaPending missing)
  | _ => .ok ()

/-- Merges a delta from an untrusted peer. -/
def mergeVerifiedDelta (d : SignedDelta) : Ingest Unit := do
  let h ← Transaction.ofExcept (contentHash d)
  let doc ← get
  if doc.dag.contains h then pure ()
  else
    check (pendingGate doc d)
    Transaction.ofExcept (verifySignature d doc)
    merge d

/-! ### States -/

/-- Joins the fields with those of another replica. -/
def mergeFields (other : Document) : Ingest Unit := do
  modify fun doc ↦
    { doc with verificationMethods := GSet.merge doc.verificationMethods other.verificationMethods }
  modify fun doc ↦
    { doc with serviceEndpoints := doc.serviceEndpoints.merge other.serviceEndpoints }
  modify fun doc ↦
    { doc with documentData := DocumentData.merge doc.documentData other.documentData }
  modify fun doc ↦
    { doc with alsoKnownAs := AlsoKnownAs.merge doc.alsoKnownAs other.alsoKnownAs }
  modify fun doc ↦ { doc with activeKey := ActiveKey.merge doc.activeKey other.activeKey }
  modify fun doc ↦ { doc with revocations := GSet.merge doc.revocations other.revocations }
  modify fun doc ↦
    { doc with
        revokedVerificationMethods :=
          GSet.merge doc.revokedVerificationMethods other.revokedVerificationMethods }
  modify fun doc ↦ { doc with deactivated := doc.deactivated || other.deactivated }
  modify fun doc ↦ { doc with createdMs := Document.mergeCreated doc.createdMs other.createdMs }
  modify fun doc ↦ { doc with updatedMs := Document.mergeUpdated doc.updatedMs other.updatedMs }

/-- Adds the deltas of another log, but for those that cannot be hashed and those seen before. A
failure of the insertion is ignored. -/
def mergeLog (seen : ExtTreeSet DeltaHash compare) : List SignedDelta → Ingest Unit
  | [] => pure ()
  | d :: log =>
    match contentHash d with
    | .error _ => mergeLog seen log
    | .ok h =>
      if seen.contains h then mergeLog seen log
      else do
        tryCatch (insertDag d) fun _ ↦ pure ()
        pushLog d
        mergeLog (seen.insert h) log

/-- The hashes of the deltas of a log that can be hashed. -/
def logHashes (log : List SignedDelta) : List DeltaHash :=
  log.filterMap fun d ↦ (contentHash d).toOption

/-- Refuses a document of another DID. -/
def sameDidGate (doc other : Document) : Except Error Unit :=
  if other.did ≠ doc.did then
    .error (.deltaRejected
      (s!"cannot merge documents with different DIDs: {doc.did.toString} vs " ++
        other.did.toString))
  else .ok ()

/-- Joins the state and the history of another replica. -/
def mergeState (other : Document) : Ingest Unit := do
  let doc ← get
  check (sameDidGate doc other)
  mergeFields other
  let doc ← get
  mergeLog (OrderedMaps.insertAll ∅ (logHashes doc.deltaLog)) other.deltaLog

/-! ### Bundles -/

/-- Indexes deltas by content hash. -/
def indexBundle (byHash : BundleIndex) : List SignedDelta → Except IngestError BundleIndex
  | [] => .ok byHash
  | d :: deltas =>
    match contentHash d with
    | .error err => .error err
    | .ok h => indexBundle (byHash.insert h d) deltas

/-- Refuses an index without the target. -/
def targetGate (byHash : BundleIndex) (target : DeltaHash) : Except Error Unit :=
  if byHash.contains target then .ok ()
  else .error (.deltaRejected s!"bundle does not contain its target {target.toString}")

/-- Refuses a parent that is neither in the bundle nor held. -/
def danglingGate (byHash : BundleIndex) (doc : Document) (deltas : List SignedDelta) :
    Except Error Unit :=
  match (deltas.flatMap SignedDelta.parents).find? fun p ↦
    !byHash.contains p && !doc.dag.contains p with
  | some p =>
    .error (.deltaRejected
      s!"bundle has a dangling parent {p.toString}: tampered or incomplete")
  | none => .ok ()

/-- Replays the deltas of an index in an order. -/
def replay (byHash : BundleIndex) : List DeltaHash → Ingest Unit
  | [] => pure ()
  | h :: order => do
    let working ← get
    if working.dag.contains h then replay byHash order
    else
      match byHash[h]? with
      | none => replay byHash order
      | some d =>
        Transaction.ofExcept (verifySignature d working)
        merge d
        replay byHash order

/-- Replays a bundle on a working copy and commits it as a whole. -/
def mergeVerifiedBundle (bundle : ClosureBundle) : Ingest ℕ := do
  let byHash ← Transaction.ofExcept (indexBundle ∅ bundle.deltas)
  check (targetGate byHash bundle.target)
  let doc ← get
  check (danglingGate byHash doc bundle.deltas)
  let order ← check (topoOrderBundle byHash)
  Transaction.onCopy do
    replay byHash order
    let working ← get
    pure (working.deltaLog.length - doc.deltaLog.length)

/-! ### Documents of a replica -/

/-- Creates a document from a public key, if what is hashed can be encoded. -/
def newDocument (publicKeyMultibase : String) : Except IngestError (Document × SignedDelta) :=
  let protoOp : DeltaOp :=
    .addVerificationMethod "#key-0" publicKeyMultibase .default defaultRelationships
  match encode (Encoder.seedFailure (.default, protoOp, publicKeyMultibase)) with
  | .error err => .error err
  | .ok () =>
    match contentHash (Document.genesis publicKeyMultibase) with
    | .error err => .error err
    | .ok _ => .ok (Document.new publicKeyMultibase)

/-- One delta of a pass over a batch. What a refused delta leaves is kept. -/
def passStep (pass : Pass) (d : SignedDelta) : Pass :=
  match (mergeVerifiedDelta d).outcome pass.doc with
  | (.error (.core (.deltaPending _)), doc) =>
    { pass with doc := doc, still := pass.still ++ [d] }
  | (_, doc) => { pass with doc := doc, progressed := true }

/-- Passes over a batch, within a bound on their number. -/
def mergeLoop : ℕ → Document → List SignedDelta → Document
  | 0, doc, _ => doc
  | fuel + 1, doc, pending =>
    let pass := pending.foldl passStep ⟨doc, false, []⟩
    if pass.still.isEmpty || !pass.progressed then pass.doc
    else mergeLoop fuel pass.doc pass.still

/-- A computation that mutates the documents of a replica. -/
abbrev Bootstrap (α : Type) : Type := Transaction Docs BootstrapError α

/-- The error of a bootstrap in which a call failed. -/
def failed (call : String) (err : IngestError) : BootstrapError :=
  .bootstrapFailed s!"{call} failed: {err.message}"

/-- The key of the only delta of a batch that has no parents, if that delta adds a key. -/
def genesisOf (deltas : List SignedDelta) : Except BootstrapError (SignedDelta × String) :=
  match deltas.filter fun d ↦ d.parents.isEmpty with
  | [] => .error .partialHistory
  | [genesis] =>
    match genesis.op with
    | .addVerificationMethod _ publicKeyMultibase _ _ => .ok (genesis, publicKeyMultibase)
    | _ => .error (.bootstrapFailed "genesis op is not AddVerificationMethod")
  | _ => .error (.bootstrapFailed "multiple genesis-like deltas")

/-- Starts a document from a batch that holds its creation delta, then merges the rest of the batch
into it. -/
def genesisBootstrap (did : Did) (deltas : List SignedDelta) : Bootstrap Unit := do
  let (genesis, publicKeyMultibase) ← Transaction.ofExcept (genesisOf deltas)
  let (reconstructed, computedGenesis) ←
    Transaction.ofExcept ((newDocument publicKeyMultibase).mapError (failed "Document::new"))
  if reconstructed.did ≠ did then
    throw (.bootstrapFailed (s!"DID mismatch: reconstructed={reconstructed.did.toString} " ++
      s!"claimed={did.toString}"))
  else
    let received ←
      Transaction.ofExcept ((contentHash genesis).mapError (failed "content_hash"))
    let computed ←
      Transaction.ofExcept ((contentHash computedGenesis).mapError (failed "content_hash"))
    if received ≠ computed then throw (.bootstrapFailed "genesis delta hash mismatch")
    else
      modify fun docs ↦ docs.insert did reconstructed
      let remaining := deltas.filter fun d ↦ !d.parents.isEmpty
      modify fun docs ↦
        docs.alter did (Option.map fun doc ↦ mergeLoop (remaining.length + 1) doc remaining)

end Ingest

end DidCrdt
