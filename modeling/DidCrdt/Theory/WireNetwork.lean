import DidCrdt.Sync.Wire
import DidCrdt.Theory.GossipRound

/-!
# Networks that exchange bytes

Every message of a network is of a document that some node created, and carries deltas of the source
(`GossipRun.drawnFrom`). When bytes of such a message are read as no other message, the runs of a network
that exchanges bytes, among any bytes that are no message, are runs of the network that exchanges messages,
in which what is not read is lost; when all such messages are read, they are all of its runs
(`byteRun_encodes`).
-/

set_option autoImplicit false
set_option relaxedAutoImplicit false

namespace DidCrdt

open Broadcast (Network toOthers)

/-- The document of a message. -/
def SyncMessage.did : SyncMessage → Did
  | announce did _ _ => did
  | request did _ => did
  | deltas did _ => did

/-- The deltas of a message. -/
def SyncMessage.carried : SyncMessage → List SignedDelta
  | deltas _ ds => ds
  | _ => []

/-- The message is of a document of the source, and carries deltas of the source. -/
structure SyncMessage.DrawnFrom (source : Set SignedDelta) (msg : SyncMessage) : Prop where
  document : ∃ d ∈ source, d.did = msg.did
  carried : ∀ d ∈ msg.carried, d ∈ source

section

variable [Primitives]

/-- A response is about the document of the message. -/
theorem LiveNode.did_response {node : LiveNode} {policy : BootstrapPolicy} {msg response : SyncMessage}
    (h : response ∈ (node.receive policy msg).2) : response.did = msg.did := by
  cases msg with
  | announce did hash clock =>
    cases hseen : node.state.hasSeen did hash <;> cases hget : node.docs[did]? <;>
      cases hwants : policy.wants did <;>
        simp_all [receive, GossipState.handle, GossipState.markSeen, SyncMessage.did]
  | request did frontier =>
    cases hget : node.docs[did]? with
    | none => simp [receive, GossipState.handle, hget] at h
    | some doc =>
      cases hanswer : doc.dag.deltasForPeer frontier with
      | error e => simp [receive, GossipState.handle, hget, hanswer] at h
      | ok answer =>
        by_cases hempty : answer = []
        · simp [receive, GossipState.handle, hget, hanswer, hempty] at h
        · simp only [receive, GossipState.handle, hget, hanswer, List.isEmpty_iff, hempty, if_false,
            List.mem_singleton] at h
          rw [h]
          rfl
  | deltas did deltas => simp [receive, GossipState.handle] at h

omit [Primitives] in
theorem LiveNode.mem_engineAnnounce [StateDigests] {node : LiveNode} {doc : Document} {clock : HlcTimestamp}
    {msg : SyncMessage} (h : msg ∈ (node.engineAnnounce doc clock).2) :
    msg = .announce doc.did doc.contentHash clock := by
  unfold engineAnnounce GossipState.announce at h
  by_cases hnew : (node.state.markSeen doc.did doc.contentHash).2 = true <;> simp_all

variable [StateDigests] {N : Type} [DecidableEq N] {policy : N → BootstrapPolicy} {source : Set SignedDelta}
  {net : LiveNetwork N}

omit [StateDigests] in
/-- A document is under its own identifier, which is that of its creation delta. -/
theorem AllIngested.did_created {docs : Docs} (h : AllIngested source docs) {did : Did} {doc : Document}
    (hget : docs[did]? = some doc) : doc.did = did ∧ ∃ d ∈ source, d.did = did := by
  obtain ⟨publicKeyMultibase, hdid, hgenesis, -⟩ := h did doc hget
  have hgrown : GrownFor did doc := h.allGrown did doc hget
  exact ⟨hgrown.did_eq, Document.genesis publicKeyMultibase, hgenesis, hdid⟩

/-- Every message is of a document that was created. -/
theorem GossipRun.did_created (hfree : CollisionFree source) (h : GossipRun policy source net) :
    ∀ sender msg, (sender, msg) ∈ net.sent → ∃ d ∈ source, d.did = msg.did := by
  induction h with
  | start => exact fun sender msg hmem ↦ absurd hmem (Set.notMem_empty _)
  | create i publicKeyMultibase _ _ _ ih => exact ih
  | submit i didStr _ _ ih => exact ih
  | @announce net i did msg hrun hmsg ih =>
    rintro sender sent (hold | hnew)
    · exact ih sender sent hold
    · obtain ⟨rfl, rfl⟩ := Prod.mk.inj (Set.mem_singleton_iff.mp hnew)
      obtain ⟨doc, hget, rfl⟩ := Option.map_eq_some_iff.mp hmsg
      exact (((hrun.honest hfree).ingested sender).did_created hget).2
  | @engineAnnounce net i did doc clock hrun hget ih =>
    rintro sender sent (hold | ⟨-, hnew⟩)
    · exact ih sender sent hold
    · obtain ⟨hdid, hcreated⟩ := ((hrun.honest hfree).ingested i).did_created hget
      obtain rfl : sent = _ := LiveNode.mem_engineAnnounce hnew
      exact hdid ▸ hcreated
  | @deliver net receiver msg hrun hsent ih =>
    obtain ⟨origin, -, hmem⟩ := hsent
    intro sender sent hsent
    rcases (Network.mem_sent_deliver ..).mp hsent with hold | ⟨rfl, hnew⟩
    · exact ih sender sent hold
    · rw [LiveNode.did_response hnew]
      exact ih origin msg hmem

/-- Every message is of a document that was created, and carries deltas of the source. -/
theorem GossipRun.drawnFrom (hfree : CollisionFree source) (h : GossipRun policy source net)
    {sender : N} {msg : SyncMessage} (hsent : (sender, msg) ∈ net.sent) : msg.DrawnFrom source := by
  refine ⟨h.did_created hfree sender msg hsent, fun d hd ↦ ?_⟩
  cases msg with
  | announce did hash clock => exact absurd hd List.not_mem_nil
  | request did frontier => exact absurd hd List.not_mem_nil
  | deltas did ds => exact (((h.honest hfree).backed sender _ hsent).1 did ds rfl d hd).1

/-! ### Networks of bytes -/

variable [MessageCodec]

/-- Every node receives bytes under its own policy. -/
abbrev receiveBytesUnder (policy : N → BootstrapPolicy) (i : N) :
    LiveNode → MessageCodec.Bytes → LiveNode × List MessageCodec.Bytes :=
  LiveNode.receiveBytes (policy i)

/-- A network of nodes that exchange bytes. -/
abbrev ByteNetwork (N : Type) : Type := Network N LiveNode MessageCodec.Bytes

/-- The networks that are reached when messages are encoded. Bytes that are no message may come in at any
time, from anywhere. -/
inductive ByteRun (policy : N → BootstrapPolicy) (source : Set SignedDelta) : ByteNetwork N → Prop
  | start : ByteRun policy source ⟨fun _ ↦ .new, ∅⟩
  | create {net : ByteNetwork N} (i : N) (publicKeyMultibase : String) :
      ByteRun policy source net → Document.genesis publicKeyMultibase ∈ source →
      (net.parties i).docs[deriveDid publicKeyMultibase]? = none →
      ByteRun policy source (net.update i
        ⟨(net.parties i).state, (createDid (net.parties i).docs publicKeyMultibase).1⟩)
  | submit {net : ByteNetwork N} (i : N) (didStr : String) {delta : SignedDelta} :
      ByteRun policy source net → delta ∈ source →
      ByteRun policy source (net.update i
        ⟨(net.parties i).state, (submitDelta (net.parties i).docs didStr delta).1⟩)
  | announce {net : ByteNetwork N} (i : N) {did : Did} {msg : SyncMessage} :
      ByteRun policy source net → (net.parties i).announce did = some msg →
      ByteRun policy source (net.broadcast {(i, MessageCodec.encode msg)})
  | engineAnnounce {net : ByteNetwork N} (i : N) {did : Did} {doc : Document} (clock : HlcTimestamp) :
      ByteRun policy source net → (net.parties i).docs[did]? = some doc →
      ByteRun policy source
        ((net.update i ((net.parties i).engineAnnounce doc clock).1).broadcast
          {sent | sent.1 = i ∧
            sent.2 ∈ ((net.parties i).engineAnnounce doc clock).2.map MessageCodec.encode})
  | deliver {net : ByteNetwork N} {receiver : N} {bytes : MessageCodec.Bytes} :
      ByteRun policy source net → (receiver, bytes) ∈ toOthers net.sent →
      ByteRun policy source (net.deliver (receiveBytesUnder policy) receiver bytes)
  | noise {net : ByteNetwork N} (receiver : N) {bytes : MessageCodec.Bytes} :
      ByteRun policy source net → MessageCodec.decode bytes = none →
      ByteRun policy source (net.deliver (receiveBytesUnder policy) receiver bytes)

omit [StateDigests] [DecidableEq N] in
/-- A message that is read is received, and what is sent in response is encoded. -/
theorem receiveBytes_of_decode {node : LiveNode} {bytes : MessageCodec.Bytes} {msg : SyncMessage}
    {policy : BootstrapPolicy} (h : MessageCodec.decode bytes = some msg) :
    node.receiveBytes policy bytes =
      ((node.receive policy msg).1, (node.receive policy msg).2.map MessageCodec.encode) := by
  rw [LiveNode.receiveBytes, h]

omit [StateDigests] in
/-- Bytes that are no message change nothing. -/
theorem deliver_noise (bnet : ByteNetwork N) (receiver : N) {bytes : MessageCodec.Bytes}
    (h : MessageCodec.decode bytes = none) :
    bnet.deliver (receiveBytesUnder policy) receiver bytes = bnet := by
  have hreceive : receiveBytesUnder policy receiver (bnet.parties receiver) bytes =
      (bnet.parties receiver, []) := by
    rw [receiveBytesUnder, LiveNode.receiveBytes, h]
  have hresponses : bnet.responses (receiveBytesUnder policy) receiver bytes = ∅ := by
    refine Set.eq_empty_of_forall_notMem fun response hresponse ↦ ?_
    have hmem := hresponse.2
    rw [hreceive] at hmem
    exact List.not_mem_nil hmem
  rw [Network.deliver, hresponses, hreceive, Network.update, Function.update_eq_self, Network.broadcast,
    Set.union_empty]

omit [StateDigests] in
/-- What is read of a message is received as the message. -/
theorem encoded_deliver_of_readsBack {receiver : N} {msg : SyncMessage} (hreads : MessageCodec.ReadsBack msg) :
    (net.deliver (receiveUnder policy) receiver msg).encoded MessageCodec.encode =
      (net.encoded MessageCodec.encode).deliver (receiveBytesUnder policy) receiver
        (MessageCodec.encode msg) :=
  net.encoded_deliver _ (receiveBytes_of_decode hreads)

/-- Assumes: the source does not collide, and bytes of a message that is drawn from it are read as no other
message. The runs of the network that exchanges bytes are runs of the network that exchanges messages, and all
of them when every message that is drawn from the source is read. -/
theorem byteRun_encodes (policy : N → BootstrapPolicy) (hfree : CollisionFree source)
    (hfaithful : ∀ msg : SyncMessage, msg.DrawnFrom source → MessageCodec.Faithful msg)
    (bnet : ByteNetwork N) :
    (ByteRun policy source bnet →
      ∃ net, GossipRun policy source net ∧ net.encoded MessageCodec.encode = bnet) ∧
    ((∀ msg : SyncMessage, msg.DrawnFrom source → MessageCodec.ReadsBack msg) →
      (∃ net, GossipRun policy source net ∧ net.encoded MessageCodec.encode = bnet) →
        ByteRun policy source bnet) := by
  constructor
  · intro h
    induction h with
    | start => exact ⟨_, .start, by simp [Network.encoded]⟩
    | create i publicKeyMultibase _ hgenesis huntracked ih =>
      obtain ⟨net, hrun, rfl⟩ := ih
      exact ⟨_, .create i publicKeyMultibase hrun hgenesis huntracked, rfl⟩
    | submit i didStr _ hdelta ih =>
      obtain ⟨net, hrun, rfl⟩ := ih
      exact ⟨_, .submit i didStr hrun hdelta, rfl⟩
    | announce i _ hmsg ih =>
      obtain ⟨net, hrun, rfl⟩ := ih
      refine ⟨_, .announce i hrun hmsg, ?_⟩
      rw [Network.encoded_broadcast, Set.image_singleton]
      rfl
    | engineAnnounce i clock _ hget ih =>
      obtain ⟨net, hrun, rfl⟩ := ih
      refine ⟨_, .engineAnnounce i clock hrun hget, ?_⟩
      rw [Network.encoded_broadcast, Network.image_from]
      rfl
    | @deliver _ receiver _ _ hsent ih =>
      obtain ⟨net, hrun, rfl⟩ := ih
      obtain ⟨sender, hne, hmem⟩ := hsent
      obtain ⟨msg, hmsg, rfl⟩ := (Network.mem_sent_encoded ..).mp hmem
      cases hread : MessageCodec.decode (MessageCodec.encode msg) with
      | none => exact ⟨net, hrun, (deliver_noise _ receiver hread).symm⟩
      | some read =>
        obtain rfl : read = msg := hfaithful msg (hrun.drawnFrom hfree hmsg) read hread
        exact ⟨_, .deliver hrun ⟨sender, hne, hmsg⟩, encoded_deliver_of_readsBack hread⟩
    | noise receiver _ hnoise ih =>
      obtain ⟨net, hrun, rfl⟩ := ih
      exact ⟨net, hrun, (deliver_noise _ receiver hnoise).symm⟩
  · rintro hreads ⟨net, hrun, rfl⟩
    induction hrun with
    | start =>
      have hstart : (⟨fun _ ↦ .new, ∅⟩ : LiveNetwork N).encoded MessageCodec.encode = ⟨fun _ ↦ .new, ∅⟩ := by
        simp [Network.encoded]
      rw [hstart]
      exact .start
    | create i publicKeyMultibase _ hgenesis huntracked ih =>
      exact .create i publicKeyMultibase ih hgenesis huntracked
    | submit i didStr _ hdelta ih => exact .submit i didStr ih hdelta
    | announce i _ hmsg ih =>
      rw [Network.encoded_broadcast, Set.image_singleton]
      exact .announce i ih hmsg
    | engineAnnounce i clock _ hget ih =>
      rw [Network.encoded_broadcast, Network.image_from]
      exact .engineAnnounce i clock ih hget
    | @deliver _ _ msg hrun hsent ih =>
      obtain ⟨sender, hne, hmem⟩ := hsent
      rw [encoded_deliver_of_readsBack (hreads msg (hrun.drawnFrom hfree hmem))]
      exact .deliver ih ⟨sender, hne, (Network.mem_sent_encoded ..).mpr ⟨_, hmem, rfl⟩⟩

end

section Readable

attribute [local instance] Primitives.readable StateDigests.readable MessageCodec.verbatim

/-- From `apart`, the announcement, the request and the answer are exchanged, and bytes that are no message
come in between. -/
def disturbed : ByteNetwork Bool :=
  let announcing := (apart.encoded MessageCodec.encode).broadcast {(false, some announced)}
  let noisy := announcing.deliver (receiveBytesUnder unsolicited) true none
  let requesting := noisy.deliver (receiveBytesUnder unsolicited) true (some announced)
  let answering := requesting.deliver (receiveBytesUnder unsolicited) false
    (some (.request (deriveDid "u7") [⟨"0.0.0"⟩]))
  answering.deliver (receiveBytesUnder unsolicited) true (some (.deltas (deriveDid "u7") [revocation]))

theorem byteRun_disturbed : ByteRun unsolicited issued disturbed := by
  have hgenesis : Document.genesis "u7" ∈ issued := List.mem_cons_self
  have hrevocation : revocation ∈ issued := List.mem_cons_of_mem _ List.mem_cons_self
  have hannounced : (apart.parties false).announce (deriveDid "u7") = some announced := rfl
  have hstart : apart.encoded MessageCodec.encode =
      ⟨apart.parties, (∅ : Set (Bool × MessageCodec.Bytes))⟩ := by
    simp [Network.encoded, apart, Network.update]
  have hapart : ByteRun unsolicited issued (apart.encoded MessageCodec.encode) := by
    rw [hstart]
    exact .submit false "did:crdt:u7" (.create true "u7" (.create false "u7" .start hgenesis rfl) hgenesis rfl)
      hrevocation
  refine .deliver (.deliver (.deliver (.noise true (.announce false hapart hannounced) rfl)
    ⟨false, by decide, ?_⟩) ⟨true, by decide, ?_⟩) ⟨false, by decide, ?_⟩
  · exact Or.inl (Or.inr rfl)
  · exact Or.inr ⟨rfl, List.mem_cons_self⟩
  · exact Or.inr ⟨rfl, List.mem_cons_self⟩

/-- The bytes of `disturbed` are those of messages, after which the node holds the revocation that it lacked.
The messages of `lossy` are all read, so it is reached with bytes too. -/
theorem byteRun_encodes_disturbed :
    revocation.contentHash ∈ storedHashes (disturbed.parties true).docs (deriveDid "u7") ∧
      (∃ net, GossipRun unsolicited issued net ∧ net.encoded MessageCodec.encode = disturbed) ∧
      ByteRun unsolicited issued (lossy.encoded MessageCodec.encode) := by
  have hfaithful : ∀ msg : SyncMessage, msg.DrawnFrom issued → MessageCodec.Faithful msg :=
    fun msg _ read hread ↦ (Option.some.inj hread).symm
  refine ⟨?_, (byteRun_encodes unsolicited collisionFree_issued hfaithful _).1 byteRun_disturbed,
    (byteRun_encodes unsolicited collisionFree_issued hfaithful _).2 (fun msg _ ↦ rfl)
      ⟨lossy, run_lossy, rfl⟩⟩
  have hheld : (disturbed.parties true).held (deriveDid "u7") = some [⟨"0.0.0"⟩, ⟨"1.0.55"⟩] := by decide
  rw [(LiveNode.storedHashes_of_held hheld).2]
  exact List.mem_cons_of_mem _ List.mem_cons_self

end Readable

end DidCrdt
