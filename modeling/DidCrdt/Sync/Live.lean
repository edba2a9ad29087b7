import DidCrdt.Library.Broadcast
import DidCrdt.Service.Handlers

/-!
# Live nodes

A node keeps the routing state of its engine and its documents. The receive path routes a message and
merges what routing delivers (`LiveNode.receive`); every message it sends is a broadcast. Nodes create
documents and accept deltas (`GossipRun.create`, `GossipRun.submit`), announce documents, and receive
what others sent, in any order, repeatedly or not at all: these are the runs of a network
(`GossipRun`). A round of anti-entropy starts with an announcement of every document by every node
(`announceAll`), after which nothing is lost.
-/

set_option autoImplicit false
set_option relaxedAutoImplicit false

namespace DidCrdt

open Broadcast (Network Transit toOthers)

/-- The routing state and the documents of a node. -/
structure LiveNode where
  state : GossipState
  docs : Docs

namespace LiveNode

/-- A node that has seen and holds nothing. -/
def new : LiveNode := ⟨.new, ∅⟩

variable [Primitives]

/-- The receive path: what routing sends in response is broadcast, and what it delivers is merged. -/
def receive (policy : BootstrapPolicy) (node : LiveNode) (msg : SyncMessage) :
    LiveNode × List SyncMessage :=
  match node.state.handle msg node.docs policy with
  | (state, outgoing, none) => (⟨state, node.docs⟩, outgoing)
  | (state, outgoing, some payload) =>
    (⟨state, (mergeInbound node.docs payload policy).1⟩, outgoing)

/-- Announces the current state of a document, if it is tracked. -/
def announce [StateDigests] (node : LiveNode) (did : Did) : Option SyncMessage :=
  node.docs[did]?.map fun doc ↦ .announce did doc.contentHash .default

/-- Announces a document through the engine, which records the announcement as seen. -/
def engineAnnounce [StateDigests] (node : LiveNode) (doc : Document) (clock : HlcTimestamp) :
    LiveNode × List SyncMessage :=
  let (state, outgoing) := node.state.announce doc clock
  (⟨state, node.docs⟩, outgoing)

end LiveNode

section

variable [Primitives]

/-- Every node receives under its own policy. -/
abbrev receiveUnder {N : Type} (policy : N → BootstrapPolicy) (i : N) :
    LiveNode → SyncMessage → LiveNode × List SyncMessage :=
  LiveNode.receive (policy i)

/-! ### What a node receives -/

namespace LiveNode

variable (policy : BootstrapPolicy) (node : LiveNode)

/-- The documents after a message. Routing delivers every payload, and the other messages carry none. -/
theorem docs_receive (msg : SyncMessage) :
    (node.receive policy msg).1.docs = (mergeInbound node.docs msg policy).1 := by
  unfold receive
  cases msg with
  | announce did hash clock =>
    cases hget : node.docs[did]? with
    | none => cases hseen : node.state.hasSeen did hash <;> cases hwants : policy.wants did <;>
        simp [GossipState.handle, GossipState.markSeen, mergeInbound, hseen, hwants, hget]
    | some doc => cases hseen : node.state.hasSeen did hash <;>
        simp [GossipState.handle, GossipState.markSeen, mergeInbound, hseen, hget]
  | request did frontier =>
    cases hget : node.docs[did]? with
    | none => simp [GossipState.handle, mergeInbound, hget]
    | some doc =>
      cases hanswer : doc.dag.deltasForPeer frontier with
      | error e => simp [GossipState.handle, mergeInbound, hget, hanswer]
      | ok deltas =>
        by_cases hempty : deltas = [] <;>
          simp [GossipState.handle, mergeInbound, hget, hanswer, hempty]
  | deltas did deltas => rfl

end LiveNode

/-! ### Runs of a network -/

/-- A network of nodes. -/
abbrev LiveNetwork (N : Type) : Type := Network N LiveNode SyncMessage

variable [StateDigests] {N : Type}

/-- What every node announces when it announces every document it tracks. -/
def announcements (net : LiveNetwork N) : Set (N × SyncMessage) :=
  {sent | ∃ did, (net.parties sent.1).announce did = some sent.2}

/-- The start of a round without loss: everything is announced to the others. -/
def announceAll (net : LiveNetwork N) : Transit N LiveNode SyncMessage :=
  ⟨net.broadcast (announcements net), toOthers (announcements net)⟩

variable [DecidableEq N]

/-- The nodes other than one. -/
def othersOf (nodes : List N) (i : N) : List N := nodes.filter fun j ↦ j ≠ i

/-- The announcements of all nodes, queued for the others. -/
def announceQueue (nodes : List N) (parties : N → LiveNode) : List (N × SyncMessage) :=
  nodes.flatMap fun i ↦ (parties i).docs.toList.flatMap fun entry ↦
    (othersOf nodes i).map fun j ↦ (j, .announce entry.1 entry.2.contentHash .default)

/-- One round over an in-memory network: every node announces its documents, and what is sent is
delivered in order, to quiescence within a bound on the deliveries. -/
def gossipRound (nodes : List N) (policy : N → BootstrapPolicy) (budget : ℕ) (parties : N → LiveNode) :
    Option (N → LiveNode) :=
  Transit.drain (receiveUnder policy) (othersOf nodes) budget parties (announceQueue nodes parties)

omit [Primitives] in
theorem mem_announceQueue {nodes : List N} (hnodes : ∀ i, i ∈ nodes) (net : LiveNetwork N) (i : N)
    (msg : SyncMessage) :
    (i, msg) ∈ announceQueue nodes net.parties ↔ (i, msg) ∈ toOthers (announcements net) := by
  simp only [announceQueue, othersOf, List.mem_flatMap, List.mem_map, Prod.exists,
    OrderedMaps.mem_toList_iff, List.mem_filter, hnodes, true_and, decide_eq_true_eq, Prod.mk.injEq,
    Broadcast.mem_toOthers, announcements, Set.mem_ofPred_eq, LiveNode.announce, Option.map_eq_some_iff]
  constructor
  · rintro ⟨j, did, doc, hget, _, hne, rfl, rfl⟩
    exact ⟨j, hne.symm, did, doc, hget, rfl⟩
  · rintro ⟨j, hne, did, doc, hget, rfl⟩
    exact ⟨j, did, doc, hget, i, hne.symm, rfl, rfl⟩

/-- A round that comes to rest is one from which nothing is lost. -/
theorem exists_phase_of_gossipRound {nodes : List N} (hnodes : ∀ i, i ∈ nodes)
    {policy : N → BootstrapPolicy} {budget : ℕ} {net : LiveNetwork N} {parties : N → LiveNode}
    (hround : gossipRound nodes policy budget net.parties = some parties) :
    ∃ last, Transit.Phase (receiveUnder policy) (announceAll net) last ∧ last.owed = ∅ ∧
      last.net.parties = parties := by
  refine Transit.exists_phase_of_drain _ (othersOf nodes) (fun i j ↦ ?_) (fun d hd ↦ ?_)
    (fun d hd ↦ ?_) hround
  · simp [othersOf, hnodes]
  · exact (mem_announceQueue hnodes net d.1 d.2).mpr hd
  · exact Broadcast.toOthers_mono Set.subset_union_right ((mem_announceQueue hnodes net d.1 d.2).mp hd)

/-- The networks that are reached when nodes under the policies create documents that they do not track,
accept deltas of the source, announce documents, and receive what others sent. What is sent may be
received any number of times, at any time, or never. -/
inductive GossipRun (policy : N → BootstrapPolicy) (source : Set SignedDelta) : LiveNetwork N → Prop
  | start : GossipRun policy source ⟨fun _ ↦ .new, ∅⟩
  | create {net : LiveNetwork N} (i : N) (publicKeyMultibase : String) :
      GossipRun policy source net → Document.genesis publicKeyMultibase ∈ source →
      (net.parties i).docs[deriveDid publicKeyMultibase]? = none →
      GossipRun policy source (net.update i
        ⟨(net.parties i).state, (createDid (net.parties i).docs publicKeyMultibase).1⟩)
  | submit {net : LiveNetwork N} (i : N) (didStr : String) {delta : SignedDelta} :
      GossipRun policy source net → delta ∈ source →
      GossipRun policy source (net.update i
        ⟨(net.parties i).state, (submitDelta (net.parties i).docs didStr delta).1⟩)
  | announce {net : LiveNetwork N} (i : N) {did : Did} {msg : SyncMessage} :
      GossipRun policy source net → (net.parties i).announce did = some msg →
      GossipRun policy source (net.broadcast {(i, msg)})
  | engineAnnounce {net : LiveNetwork N} (i : N) {did : Did} {doc : Document} (clock : HlcTimestamp) :
      GossipRun policy source net → (net.parties i).docs[did]? = some doc →
      GossipRun policy source ((net.update i ((net.parties i).engineAnnounce doc clock).1).broadcast
        {sent | sent.1 = i ∧ sent.2 ∈ ((net.parties i).engineAnnounce doc clock).2})
  | deliver {net : LiveNetwork N} {receiver : N} {msg : SyncMessage} :
      GossipRun policy source net → (receiver, msg) ∈ toOthers net.sent →
      GossipRun policy source (net.deliver (receiveUnder policy) receiver msg)

end

end DidCrdt
