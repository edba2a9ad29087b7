import DidCrdt.Core.Recon
import DidCrdt.Core.Resolve

/-!
# Gossip

Replicas announce the content hashes of their documents, request what they lack by their frontier, and
answer with deltas. `GossipState.handle` decides what a replica sends in response to a message, and
`mergeInbound` merges a delivered payload: delta by delta, trying again those whose predecessors were
missing until a pass makes no progress. A payload for a document that is not held is ignored unless
the policy wants the document; then the document is rebuilt from its creation delta.
-/

set_option autoImplicit false
set_option relaxedAutoImplicit false

namespace DidCrdt

open Std (ExtTreeMap)

/-! ### Messages and policies -/

/-- The messages exchanged by replicas. -/
inductive SyncMessage
  | announce (did : Did) (hash : Blake3Hash) (clock : HlcTimestamp)
  | request (did : Did) (frontier : List DeltaHash)
  | deltas (did : Did) (deltas : List SignedDelta)

/-- The documents of a replica. -/
abbrev Docs : Type := ExtTreeMap Did Document compare

/-- Which documents a replica is willing to start from received deltas. -/
structure BootstrapPolicy where
  wanted : GSet Did
  replicateAll : Bool

namespace BootstrapPolicy

/-- Only solicited documents. -/
def solicitedOnly : BootstrapPolicy := ⟨∅, false⟩

/-- Every document. -/
def replicateEvery : BootstrapPolicy := ⟨∅, true⟩

/-- Whether the document may be started. -/
def wants (policy : BootstrapPolicy) (did : Did) : Bool :=
  policy.replicateAll || policy.wanted.contains did

/-- Registers a pending request. -/
def addWanted (policy : BootstrapPolicy) (did : Did) : BootstrapPolicy :=
  { policy with wanted := policy.wanted.insert did }

/-- Withdraws a pending request. -/
def removeWanted (policy : BootstrapPolicy) (did : Did) : BootstrapPolicy :=
  { policy with wanted := policy.wanted.erase did }

end BootstrapPolicy

/-- Why a document could not be started. -/
inductive BootstrapError
  | partialHistory
  | bootstrapFailed (text : String)
deriving DecidableEq, Repr

/-- The text of an error. -/
def BootstrapError.message : BootstrapError → String
  | .partialHistory => "no genesis delta in batch"
  | .bootstrapFailed text => s!"genesis bootstrap failed: {text}"

/-- What a merge of a payload did. -/
inductive MergeOutcome
  | noop
  | merged
  | bootstrapped (did : Did)
  | bootstrapError
  | ignoredUnsolicited
deriving DecidableEq, Repr

section

variable [Primitives]

/-! ### Merging a batch -/

/-- A pass over a batch: the document so far, whether a delta was decided, and the undecided ones. -/
structure Pass where
  doc : Document
  progressed : Bool
  still : List SignedDelta

/-- One delta of a pass. Every result but a pending one is final. -/
def Pass.step (pass : Pass) (d : SignedDelta) : Pass :=
  match pass.doc.mergeVerifiedDelta d with
  | (doc, .error (.deltaPending _)) => { pass with doc := doc, still := pass.still ++ [d] }
  | (doc, _) => { pass with doc := doc, progressed := true }

/-- Passes over a batch until none is left or nothing is decided, within a bound on their number. -/
def mergeLoop : ℕ → Document → List SignedDelta → Document
  | 0, doc, _ => doc
  | fuel + 1, doc, pending =>
    let pass := pending.foldl Pass.step ⟨doc, false, []⟩
    if pass.still.isEmpty || !pass.progressed then pass.doc
    else mergeLoop fuel pass.doc pass.still

/-- The passes over a batch end with a document. -/
inductive LoopsTo : Document → List SignedDelta → Document → Prop
  | stop {doc : Document} {pending : List SignedDelta} {pass : Pass} :
      pending.foldl Pass.step ⟨doc, false, []⟩ = pass →
      (pass.still.isEmpty || !pass.progressed) = true → LoopsTo doc pending pass.doc
  | again {doc last : Document} {pending : List SignedDelta} {pass : Pass} :
      pending.foldl Pass.step ⟨doc, false, []⟩ = pass →
      (pass.still.isEmpty || !pass.progressed) = false → LoopsTo pass.doc pass.still last →
      LoopsTo doc pending last

/-- Merges a batch. Every pass but the last decides a delta, so the bound is not met. -/
def Document.mergeBatch (doc : Document) (deltas : List SignedDelta) : Document :=
  mergeLoop (deltas.length + 1) doc deltas

/-- Starts a document from a batch that holds its creation delta. -/
def genesisBootstrap (docs : Docs) (did : Did) (deltas : List SignedDelta) :
    Except BootstrapError Docs :=
  match deltas.filter fun d ↦ d.parents.isEmpty with
  | [] => .error .partialHistory
  | [genesis] =>
    match genesis.op with
    | .addVerificationMethod _ publicKeyMultibase _ _ =>
      let (reconstructed, computedGenesis) := Document.new publicKeyMultibase
      if reconstructed.did ≠ did then
        .error (.bootstrapFailed (s!"DID mismatch: reconstructed={reconstructed.did.toString} " ++
          s!"claimed={did.toString}"))
      else if genesis.contentHash ≠ computedGenesis.contentHash then
        .error (.bootstrapFailed "genesis delta hash mismatch")
      else
        .ok (docs.insert did
          (reconstructed.mergeBatch (deltas.filter fun d ↦ !d.parents.isEmpty)))
    | _ => .error (.bootstrapFailed "genesis op is not AddVerificationMethod")
  | _ => .error (.bootstrapFailed "multiple genesis-like deltas")

/-- Merges a delivered payload. -/
def mergeInbound (docs : Docs) (msg : SyncMessage) (policy : BootstrapPolicy) : Docs × MergeOutcome :=
  match msg with
  | .deltas did deltas =>
    match docs[did]? with
    | none =>
      if !policy.wants did then (docs, .ignoredUnsolicited)
      else
        match genesisBootstrap docs did deltas with
        | .ok docs => (docs, .bootstrapped did)
        | .error _ => (docs, .bootstrapError)
    | some doc => (docs.insert did (doc.mergeBatch deltas), .merged)
  | _ => (docs, .noop)

/-! ### Routing -/

/-- The pairs of document and content hash that were seen. -/
structure GossipState where
  seen : GSet (Did ×ₗ Blake3Hash)

namespace GossipState

/-- Nothing seen. -/
def new : GossipState := ⟨∅⟩

/-- Whether a pair was seen. -/
def hasSeen (state : GossipState) (did : Did) (hash : Blake3Hash) : Bool :=
  state.seen.contains (toLex (did, hash))

/-- Records a pair, and says whether it is new. -/
def markSeen (state : GossipState) (did : Did) (hash : Blake3Hash) : GossipState × Bool :=
  (⟨state.seen.insert (toLex (did, hash))⟩, !state.hasSeen did hash)

/-- What to broadcast in response to a message, and the payload to merge. -/
def handle (state : GossipState) (msg : SyncMessage) (docs : Docs) (policy : BootstrapPolicy) :
    GossipState × List SyncMessage × Option SyncMessage :=
  match msg with
  | .announce did hash _ =>
    let (state, isNew) := state.markSeen did hash
    if !isNew then (state, [], none)
    else
      match docs[did]? with
      | some doc => (state, [.request did doc.frontier], none)
      | none =>
        if policy.wants did then (state, [.request did []], none)
        else (state, [], none)
  | .request did frontier =>
    match docs[did]? with
    | none => (state, [], none)
    | some doc =>
      match doc.dag.deltasForPeer frontier with
      | .ok deltas =>
        if deltas.isEmpty then (state, [], none)
        else (state, [.deltas did deltas], none)
      | .error _ => (state, [], none)
  | other => (state, [], some other)

/-- Announces a document, unless the pair was seen. -/
def announce [StateDigests] (state : GossipState) (doc : Document) (clock : HlcTimestamp) :
    GossipState × List SyncMessage :=
  let hash := doc.contentHash
  let (state, isNew) := state.markSeen doc.did hash
  if !isNew then (state, [])
  else (state, [.announce doc.did hash clock])

end GossipState

end

end DidCrdt
