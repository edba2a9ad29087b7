import DidCrdt.Service.Handlers
import DidCrdt.Sync.Store

/-!
# Nodes

A node serves writes concurrently over one store of documents and one store of snapshots. A write
merges under the lock of the documents, clones its document under the lock, saves the clone, and is
answered; other writes may take steps in between (`NodeEvent.apply`). A process that starts over the
snapshots has no writes in progress.
-/

set_option autoImplicit false
set_option relaxedAutoImplicit false

namespace DidCrdt

/-- A write in progress: the document it was for, and the content hashes of the deltas it merged. A
write that has cloned its document carries the clone. -/
inductive Task
  | merged (did : Did) (written : List DeltaHash)
  | cloned (did : Did) (written : List DeltaHash) (snapshot : Document)
  | saved (did : Did) (written : List DeltaHash)
  | answered (did : Did) (written : List DeltaHash)

/-- What an answered write was for, and what it merged. -/
def Task.answer : Task → Option (Did × List DeltaHash)
  | .answered did written => some (did, written)
  | _ => none

/-- The documents, the snapshots and the writes of a process. -/
structure Node [Codec] where
  docs : Docs
  store : BlobStore
  tasks : List Task

/-- A step of a node: the merge of a write, the next step of a write in progress, or a restart. -/
inductive NodeEvent
  | createDid (publicKeyMultibase : String)
  | submitDelta (didStr : String) (delta : SignedDelta)
  | mergeInbound (msg : SyncMessage) (policy : BootstrapPolicy)
  | advance (index : ℕ)
  | restart

namespace Node

variable [Codec]

/-- A process over no documents. -/
def start : Node := ⟨∅, .empty, []⟩

/-- The answers given so far. -/
def answers (node : Node) : List (Did × List DeltaHash) := node.tasks.filterMap Task.answer

/-- The next step of a write in progress. -/
def advanceTask [BlobDigest] (node : Node) (index : ℕ) : Task → Node
  | .merged did written =>
    match node.docs[did]? with
    | some doc => { node with tasks := node.tasks.set index (.cloned did written doc) }
    | none => { node with tasks := node.tasks.set index (.saved did written) }
  | .cloned did written snapshot =>
    { node with
      store := (node.store.save snapshot).1
      tasks := node.tasks.set index (.saved did written) }
  | .saved did written => { node with tasks := node.tasks.set index (.answered did written) }
  | .answered _ _ => node

variable [Primitives]

/-- The deltas of a batch that are held for a document. -/
def heldOf (docs : Docs) (did : Did) (deltas : List SignedDelta) : List DeltaHash :=
  match docs[did]? with
  | none => []
  | some doc => (deltas.map SignedDelta.contentHash).filter fun h ↦ doc.dag.contains h

/-- The merge of a creation. -/
def createDid [StateDigests] (node : Node) (publicKeyMultibase : String) : Node :=
  let (doc, creationDelta) := Document.new publicKeyMultibase
  { node with
    docs := (DidCrdt.createDid node.docs publicKeyMultibase).1
    tasks := node.tasks ++ [.merged doc.did [creationDelta.contentHash]] }

/-- The merge of a submission. Only an accepted one is persisted. -/
def submitDelta (node : Node) (didStr : String) (delta : SignedDelta) : Node :=
  let (docs, response) := DidCrdt.submitDelta node.docs didStr delta
  { node with
    docs := docs
    tasks :=
      if response.status = .accepted then node.tasks ++ [.merged delta.did [delta.contentHash]]
      else node.tasks }

/-- The merge of a delivered payload. It is persisted when it was merged into a document. -/
def mergeInbound (node : Node) (msg : SyncMessage) (policy : BootstrapPolicy) : Node :=
  let (docs, outcome) := DidCrdt.mergeInbound node.docs msg policy
  match msg, outcome with
  | .deltas did deltas, .merged | .deltas did deltas, .bootstrapped _ =>
    { node with docs := docs, tasks := node.tasks ++ [.merged did (heldOf docs did deltas)] }
  | _, _ => { node with docs := docs }

/-- A process that starts over the snapshots. Only the answers given are remembered. -/
def restart (node : Node) : Node where
  docs := .recover node.store
  store := node.store
  tasks := node.tasks.filter fun task ↦ task.answer.isSome

end Node

variable [Codec] [BlobDigest] [Primitives] [StateDigests]

/-- The node after a step. -/
def NodeEvent.apply (node : Node) : NodeEvent → Node
  | .createDid publicKeyMultibase => node.createDid publicKeyMultibase
  | .submitDelta didStr delta => node.submitDelta didStr delta
  | .mergeInbound msg policy => node.mergeInbound msg policy
  | .advance index =>
    match node.tasks[index]? with
    | some task => node.advanceTask index task
    | none => node
  | .restart => node.restart

end DidCrdt
