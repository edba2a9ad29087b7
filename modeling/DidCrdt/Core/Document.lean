import DidCrdt.Core.Validate

/-!
# Documents

A document is created from a public key and grows by deltas. `merge` admits a delta on the strength
of its causal past, `mergeVerifiedDelta` and `mergeVerifiedBundle` check its signature as well, and
`mergeState` joins the fields and the log of another replica of the same document. Every operation
returns the document after it together with its result, so that what an error leaves behind is part
of the model. `fromBytes` rebuilds a stored document.
-/

set_option autoImplicit false
set_option relaxedAutoImplicit false

namespace DidCrdt

open Std (ExtTreeMap ExtTreeSet)

/-! ### Reserved names -/

/-- The properties of a DID document that document data may not set. -/
def reservedDocumentProperties : List String :=
  ["@context", "id", "alsoKnownAs", "controller", "verificationMethod", "authentication",
    "assertionMethod", "keyAgreement", "capabilityInvocation", "capabilityDelegation", "service"]

/-- Whether a key is reserved. -/
def isReservedDocumentProperty (key : String) : Bool :=
  reservedDocumentProperties.contains key

/-! ### Bundles -/

/-- The deltas of a closure, and the head it was extracted for. -/
structure ClosureBundle where
  target : DeltaHash
  deltas : List SignedDelta

/-- Whether a list of parents is strictly ascending. -/
def isCanonicalParents (parents : List DeltaHash) : Bool :=
  (parents.zip parents.tail).all fun pair ↦ pair.1 < pair.2

/-- The deltas of a bundle by content hash; a later delta replaces an earlier one. -/
abbrev BundleIndex : Type := ExtTreeMap DeltaHash SignedDelta compare

namespace TopoOrder

/-- The in-degree of every delta within the bundle, and the children of every delta. -/
structure Edges where
  indeg : ExtTreeMap DeltaHash ℕ compare
  children : ExtTreeMap DeltaHash (List DeltaHash) compare

/-- One in-bundle parent of a delta. -/
def Edges.add (edges : Edges) (h p : DeltaHash) : Edges where
  indeg := edges.indeg.modify h (· + 1)
  children := edges.children.alter p fun cs ↦ some (cs.getD [] ++ [h])

/-- The edges of a bundle. Parents outside it count for nothing. -/
def edges (byHash : BundleIndex) : Edges :=
  byHash.toList.foldl
    (fun es entry ↦
      entry.2.parents.foldl
        (fun es p ↦ if byHash.contains p then es.add entry.1 p else es) es)
    ⟨byHash.map fun _ _ ↦ 0, ∅⟩

/-- Takes one edge off a child; the child is unlocked when that was the last. -/
def release (state : ExtTreeMap DeltaHash ℕ compare × List DeltaHash) (c : DeltaHash) :
    ExtTreeMap DeltaHash ℕ compare × List DeltaHash :=
  let n := (state.1[c]?).getD 0 - 1
  (state.1.insert c n, if n = 0 then state.2 ++ [c] else state.2)

/-- Kahn's algorithm. The head of `ready` is popped next, and every delta is popped once. -/
def kahn (children : ExtTreeMap DeltaHash (List DeltaHash) compare) :
    ℕ → ExtTreeMap DeltaHash ℕ compare → List DeltaHash → List DeltaHash
  | 0, _, _ => []
  | _ + 1, _, [] => []
  | fuel + 1, indeg, h :: ready =>
    let (indeg, unlocked) := ((children[h]?).getD []).foldl release (indeg, [])
    h :: kahn children fuel indeg ((unlocked.insertionSort (· ≤ ·)).reverse ++ ready)

end TopoOrder

/-- Orders the deltas of a bundle so that every delta follows its in-bundle parents. -/
def topoOrderBundle (byHash : BundleIndex) : Except Error (List DeltaHash) :=
  let edges := TopoOrder.edges byHash
  let ready := ((edges.indeg.toList.filter fun entry ↦ entry.2 = 0).map Prod.fst).insertionSort
    (· ≤ ·)
  let order := TopoOrder.kahn edges.children byHash.size edges.indeg ready.reverse
  if order.length ≠ byHash.size then
    .error (.deltaRejected "bundle has a parent cycle: tampered")
  else .ok order

/-! ### Construction -/

section Construction

variable [Primitives]

/-- The identifier of the document created from a key. -/
def deriveDid (publicKeyMultibase : String) : Did :=
  let timestamp := HlcTimestamp.default
  let protoOp : DeltaOp :=
    .addVerificationMethod "#key-0" publicKeyMultibase .default defaultRelationships
  ⟨"did:crdt:" ++ Primitives.seedDigest (timestamp, protoOp, publicKeyMultibase)⟩

namespace Document

/-- The operation of the creation delta. -/
def genesisOp (publicKeyMultibase : String) : DeltaOp :=
  .addVerificationMethod s!"{(deriveDid publicKeyMultibase).toString}#key-0" publicKeyMultibase
    .default defaultRelationships

/-- The creation delta. -/
def genesis (publicKeyMultibase : String) : SignedDelta :=
  .unsigned (deriveDid publicKeyMultibase) (genesisOp publicKeyMultibase) .default
    publicKeyMultibase

/-- Creates a document from a public key, with its creation delta. -/
def new (publicKeyMultibase : String) : Document × SignedDelta :=
  let timestamp := HlcTimestamp.default
  let start : Document :=
    { CrdtState.empty (deriveDid publicKeyMultibase) timestamp.wallMs with
      deltaLog := []
      dag := .new }
  let doc := start.applyOp (genesisOp publicKeyMultibase) timestamp []
  let creationDelta := genesis publicKeyMultibase
  ({ doc with
      deltaLog := doc.deltaLog ++ [creationDelta]
      dag := doc.dag.insert creationDelta }, creationDelta)

/-! ### Delta-based merge -/

/-- The checks of a delta that come before deduplication: size, DID, aliases and reserved names. -/
def staticGates (doc : Document) (d : SignedDelta) : Except Error Unit :=
  let serialisedSize := Primitives.serialisedSize d
  if maxDeltaSize < serialisedSize then .error (.deltaTooLarge serialisedSize maxDeltaSize)
  else if d.did ≠ doc.did then
    .error (.deltaRejected
      s!"delta DID {d.did.toString} does not match document DID {doc.did.toString}")
  else
    match d.op with
    | .setAlsoKnownAs uris => recogniseAlsoKnownAs uris
    | .setDocumentData key _ =>
      if isReservedDocumentProperty key then
        .error (.deltaRejected
          s!"documentData key {debugString key} is a reserved DID Core property")
      else .ok ()
    | _ => .ok ()

/-- The causal check. A signer that no held delta adds is left to the floor. -/
def causalGate (doc : Document) (d : SignedDelta) : Except Error Unit :=
  match verifyCausal d doc.dag with
  | .unknown missing => .error (.deltaPending missing)
  | .valid => .ok ()
  | .invalid reason =>
    if reason = .signerNotAuthorised && !d.parents.isEmpty &&
        !doc.dag.hasAuthorisingDelta d.signer then .ok ()
    else
      .error (.unauthorised (s!"delta is causally unauthorised ({reason.debug}): its signer's " ++
        "authorisation is not present in its causal past"))

/-- The check of facts that reached the state without their deltas. -/
def stateImportFloor (doc : Document) (d : SignedDelta) : Except Error Unit :=
  if doc.deactivated && !doc.dag.hasDeactivateDelta then
    .error (.deltaRejected
      "document is deactivated (state-imported); no further mutations accepted")
  else if !doc.dag.hasAuthorisingDelta d.signer &&
      !(GSet.entries doc.verificationMethods).isEmpty &&
      !VerificationMethods.containsId doc.verificationMethods d.signer then
    .error (.unauthorised s!"signer key {d.signer} is not an authorised verification method")
  else if doc.revokedVerificationMethods.contains d.signer &&
      !doc.dag.hasRevokingDelta d.signer then
    .error (.unauthorised s!"signer key {d.signer} has been revoked (state-imported)")
  else .ok ()

/-- The document after an admitted delta. -/
def record (doc : Document) (d : SignedDelta) : Document :=
  let doc := doc.applyOp d.op d.timestamp d.parents
  { doc with dag := doc.dag.insert d, deltaLog := doc.deltaLog ++ [d] }

/-- Validates and applies a delta. -/
def merge (doc : Document) (d : SignedDelta) : Document × Except Error Unit :=
  match staticGates doc d with
  | .error e => (doc, .error e)
  | .ok () =>
    if doc.dag.contains d.contentHash then (doc, .ok ())
    else if !isCanonicalParents d.parents then
      (doc, .error (.deltaRejected "delta parents are not sorted and deduplicated"))
    else
      match causalGate doc d with
      | .error e => (doc, .error e)
      | .ok () =>
        match stateImportFloor doc d with
        | .error e => (doc, .error e)
        | .ok () => (doc.record d, .ok ())

/-- Merges a delta from an untrusted peer: its signature is verified once its past is complete. -/
def mergeVerifiedDelta (doc : Document) (d : SignedDelta) : Document × Except Error Unit :=
  if doc.dag.contains d.contentHash then (doc, .ok ())
  else
    match verifyCausal d doc.dag with
    | .unknown missing => (doc, .error (.deltaPending missing))
    | _ =>
      match verifySignature d doc with
      | .error e => (doc, .error e)
      | .ok () => doc.merge d

/-! ### State-based merge -/

/-- The earliest creation time. -/
def mergeCreated (a b : Option U64) : Option U64 :=
  match a, b with
  | some a, some b => some (min a b)
  | none, some b => some b
  | a, _ => a

/-- The latest update time. -/
def mergeUpdated (a b : Option U64) : Option U64 :=
  match a, b with
  | some a, some b => some (max a b)
  | none, some b => some b
  | a, _ => a

/-- The join of the fields. The DID is the one of the first. -/
def mergeFields (s other : CrdtState) : CrdtState where
  did := s.did
  verificationMethods := GSet.merge s.verificationMethods other.verificationMethods
  serviceEndpoints := s.serviceEndpoints.merge other.serviceEndpoints
  documentData := DocumentData.merge s.documentData other.documentData
  alsoKnownAs := AlsoKnownAs.merge s.alsoKnownAs other.alsoKnownAs
  activeKey := ActiveKey.merge s.activeKey other.activeKey
  revocations := GSet.merge s.revocations other.revocations
  revokedVerificationMethods :=
    GSet.merge s.revokedVerificationMethods other.revokedVerificationMethods
  deactivated := s.deactivated || other.deactivated
  createdMs := mergeCreated s.createdMs other.createdMs
  updatedMs := mergeUpdated s.updatedMs other.updatedMs

/-- The log and the DAG while another log is merged into them, with the hashes seen so far. -/
structure LogMerge where
  seen : ExtTreeSet DeltaHash compare
  log : List SignedDelta
  dag : DeltaDag

/-- Adds a delta of the other log, unless its hash was seen. -/
def LogMerge.add (m : LogMerge) (d : SignedDelta) : LogMerge :=
  let h := d.contentHash
  if m.seen.contains h then m
  else { seen := m.seen.insert h, log := m.log ++ [d], dag := m.dag.insert d }

/-- Joins the state and the history of another replica. -/
def mergeState (doc other : Document) : Document × Except Error Unit :=
  if other.did ≠ doc.did then
    (doc, .error (.deltaRejected
      (s!"cannot merge documents with different DIDs: {doc.did.toString} vs " ++
        other.did.toString)))
  else
    let seen := OrderedMaps.insertAll ∅ doc.logHashes
    let merged := other.deltaLog.foldl LogMerge.add ⟨seen, doc.deltaLog, doc.dag⟩
    ({ mergeFields doc.toCrdtState other.toCrdtState with
        deltaLog := merged.log
        dag := merged.dag }, .ok ())

/-! ### Verified bundles -/

/-- The deltas of a list by content hash. -/
def indexBundle (deltas : List SignedDelta) : BundleIndex :=
  deltas.foldl (fun m d ↦ m.insert d.contentHash d) ∅

/-- Replays the deltas of an index in an order, up to the first that is refused. The hashes of the
order are keys of the index. -/
def replay (byHash : BundleIndex) (working : Document) : List DeltaHash → Except Error Document
  | [] => .ok working
  | h :: order =>
    if working.dag.contains h then replay byHash working order
    else
      match byHash[h]? with
      | none => replay byHash working order
      | some d =>
        match verifySignature d working with
        | .error e => .error e
        | .ok () =>
          match working.merge d with
          | (_, .error e) => .error e
          | (working, .ok ()) => replay byHash working order

/-- Replays a bundle on a working copy and commits it as a whole. -/
def mergeVerifiedBundle (doc : Document) (bundle : ClosureBundle) : Document × Except Error ℕ :=
  let byHash := indexBundle bundle.deltas
  if !byHash.contains bundle.target then
    (doc, .error (.deltaRejected
      s!"bundle does not contain its target {bundle.target.toString}"))
  else
    match (bundle.deltas.flatMap SignedDelta.parents).find? fun p ↦
      !byHash.contains p && !doc.dag.contains p with
    | some p =>
      (doc, .error (.deltaRejected
        s!"bundle has a dangling parent {p.toString}: tampered or incomplete"))
    | none =>
      match topoOrderBundle byHash with
      | .error e => (doc, .error e)
      | .ok order =>
        match replay byHash doc order with
        | .error e => (doc, .error e)
        | .ok working => (working, .ok (working.deltaLog.length - doc.deltaLog.length))

/-- The predecessors of a delta that are not held. -/
def missingParents (doc : Document) (d : SignedDelta) : List DeltaHash :=
  match verifyCausal d doc.dag with
  | .unknown missing => missing
  | _ => []

end Document

end Construction

/-! ### Storage -/

/-- The stored form of the service endpoints: their maps as lists of pairs. -/
structure ServiceEndpointsRepr where
  live : List (Dot × ServiceEntry)
  context : List (U64 × Dot)

namespace ServiceEndpoints

/-- The stored form. -/
def toRepr (s : ServiceEndpoints) : ServiceEndpointsRepr := ⟨s.live.toList, s.context.toList⟩

/-- The maps of a stored form. -/
def ofRepr (r : ServiceEndpointsRepr) : ServiceEndpoints where
  live := r.live.foldl (fun m entry ↦ m.insert entry.1 entry.2) ∅
  context := r.context.foldl (fun m entry ↦ m.insert entry.1 entry.2) ∅

theorem ofRepr_toRepr (s : ServiceEndpoints) : ofRepr s.toRepr = s :=
  ServiceEndpoints.ext (OrderedMaps.foldl_insert_toList s.live)
    (OrderedMaps.foldl_insert_toList s.context)

end ServiceEndpoints

/-- The stored form of a document: everything but the DAG. -/
structure DocumentRepr where
  did : Did
  verificationMethods : VerificationMethods
  serviceEndpoints : ServiceEndpointsRepr
  documentData : DocumentData
  alsoKnownAs : AlsoKnownAs
  activeKey : ActiveKey
  revocations : GSet String
  revokedVerificationMethods : GSet String
  deactivated : Bool
  createdMs : Option U64
  updatedMs : Option U64
  deltaLog : List SignedDelta

/-- The JSON encoding of stored documents. -/
class Codec where
  Bytes : Type
  encode : DocumentRepr → Bytes
  decode : Bytes → Except String DocumentRepr

/-- The record is decoded again from what is encoded of it. -/
def Codec.ReadsBack [Codec] (r : DocumentRepr) : Prop :=
  Codec.decode (Codec.encode r) = .ok r

/-- Every record is decoded again. -/
def Codec.Lossless [Codec] : Prop :=
  ∀ r, Codec.ReadsBack r

/-- What is encoded of a record is decoded to that record, if it is decoded. -/
def Codec.Faithful [Codec] : Prop :=
  ∀ r r', Codec.decode (Codec.encode r) = .ok r' → r' = r

/-- The encoding that keeps the stored form as it is. -/
@[reducible]
def Codec.verbatim : Codec := ⟨DocumentRepr, id, .ok⟩

namespace Document

/-- The stored form. -/
def toRepr (doc : Document) : DocumentRepr where
  did := doc.did
  verificationMethods := doc.verificationMethods
  serviceEndpoints := doc.serviceEndpoints.toRepr
  documentData := doc.documentData
  alsoKnownAs := doc.alsoKnownAs
  activeKey := doc.activeKey
  revocations := doc.revocations
  revokedVerificationMethods := doc.revokedVerificationMethods
  deactivated := doc.deactivated
  createdMs := doc.createdMs
  updatedMs := doc.updatedMs
  deltaLog := doc.deltaLog

/-- Serialises a document. -/
def toBytes [Codec] (doc : Document) : Codec.Bytes := Codec.encode doc.toRepr

variable [Primitives]

/-- Rebuilds a document, with its DAG, from the stored form. State without a log is refused. -/
def tryFrom (r : DocumentRepr) : Except String Document :=
  if r.deltaLog.isEmpty && !(GSet.entries r.verificationMethods).isEmpty then
    .error ("document has CRDT state but no delta log: unsupported pre-DAG " ++
      "serialisation (cannot reconstruct the frontier; recreate the document)")
  else
    .ok
      { did := r.did
        verificationMethods := r.verificationMethods
        serviceEndpoints := .ofRepr r.serviceEndpoints
        documentData := r.documentData
        alsoKnownAs := r.alsoKnownAs
        activeKey := r.activeKey
        revocations := r.revocations
        revokedVerificationMethods := r.revokedVerificationMethods
        deactivated := r.deactivated
        createdMs := r.createdMs
        updatedMs := r.updatedMs
        deltaLog := r.deltaLog
        dag := .rebuild r.deltaLog }

/-- Deserialises a document. -/
def fromBytes [Codec] (bytes : Codec.Bytes) : Except String Document :=
  match Codec.decode bytes with
  | .error e => .error e
  | .ok r => tryFrom r

/-- A document that has a log, and the DAG of its log, is rebuilt from its stored form. -/
theorem tryFrom_toRepr {doc : Document} (hlog : doc.deltaLog ≠ [])
    (hdag : doc.dag = .rebuild doc.deltaLog) : tryFrom doc.toRepr = .ok doc := by
  obtain ⟨state, log, dag⟩ := doc
  simp only at hlog hdag
  subst hdag
  rw [tryFrom, if_neg (by simp [toRepr, hlog])]
  simp only [toRepr, ServiceEndpoints.ofRepr_toRepr]

/-- Assumes: the stored form is read back. Storing a document that has a log, and the DAG of its log, and
loading it again gives it back. -/
theorem fromBytes_toBytes [Codec] {doc : Document} (hcodec : Codec.ReadsBack doc.toRepr)
    (hlog : doc.deltaLog ≠ []) (hdag : doc.dag = .rebuild doc.deltaLog) :
    fromBytes doc.toBytes = .ok doc := by
  rw [fromBytes, toBytes, hcodec]
  exact tryFrom_toRepr hlog hdag

/-- What is loaded of a stored document that has a log, and the DAG of its log, is that document. -/
theorem eq_of_fromBytes_toBytes [Codec] {doc loaded : Document} (hcodec : Codec.Faithful)
    (hlog : doc.deltaLog ≠ []) (hdag : doc.dag = .rebuild doc.deltaLog)
    (hload : fromBytes doc.toBytes = .ok loaded) : loaded = doc := by
  unfold fromBytes toBytes at hload
  cases hdecode : Codec.decode (Codec.encode doc.toRepr) with
  | error e => simp [hdecode] at hload
  | ok r =>
    simp only [hdecode, hcodec _ _ hdecode, tryFrom_toRepr hlog hdag] at hload
    exact (Except.ok.inj hload).symm

end Document

end DidCrdt
