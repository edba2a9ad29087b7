import DidCrdt.Sync.Live
import DidCrdt.Theory.PeerAnswers

/-!
# A round of gossip

Whatever was lost, delayed, duplicated or reordered before, every message that is in the network is backed by
the store of its sender (`GossipRun.honest`). In a round without loss every node announces its documents. A
node that has not seen an announced state requests it, the announcer answers, and the answer is merged: the
announced deltas are held (`announced_held`). Nothing is held in the end that no node held at the start
(`storedHashes_sub`). A node that has seen an announced state requests nothing, so the nodes end with the
same deltas when what they have seen they hold (`SeenIsHeld`). An announcement is seen when it is received,
whatever becomes of the request that it causes: when that was lost, the deltas are not requested again.
-/

set_option autoImplicit false
set_option relaxedAutoImplicit false

namespace DidCrdt

open Broadcast (Network Transit toOthers)

section

variable [Primitives]

/-! ### One message -/

section Receive

variable {source : Set SignedDelta} {policy : BootstrapPolicy} {node : LiveNode} {did : Did}
  {msg response : SyncMessage}

omit [Primitives] in
theorem hasSeen_markSeen (state : GossipState) (did other : Did) (hash hash' : Blake3Hash) :
    (state.markSeen did hash).1.hasSeen other hash' = true ↔
      state.hasSeen other hash' = true ∨ did = other ∧ hash = hash' := by
  simp only [GossipState.markSeen, GossipState.hasSeen, Std.ExtTreeSet.contains_iff_mem,
    OrderedMaps.set_mem_insert, toLex_inj, Prod.mk.injEq]
  rw [or_comm, eq_comm (a := other), eq_comm (a := hash')]

namespace LiveNode

/-- Receiving an announcement marks it as seen, and every other message leaves what is seen. -/
theorem state_receive (msg : SyncMessage) : (node.receive policy msg).1.state =
    match msg with
    | .announce did hash _ => (node.state.markSeen did hash).1
    | _ => node.state := by
  cases msg with
  | announce did hash clock =>
    cases hseen : node.state.hasSeen did hash <;> cases hget : node.docs[did]? <;>
      cases hwants : policy.wants did <;>
        simp [receive, GossipState.handle, GossipState.markSeen, hseen, hget, hwants]
  | request did frontier =>
    cases hget : node.docs[did]? with
    | none => simp [receive, GossipState.handle, hget]
    | some doc =>
      cases hanswer : doc.dag.deltasForPeer frontier with
      | error e => simp [receive, GossipState.handle, hget, hanswer]
      | ok answer =>
        by_cases hempty : answer = [] <;> simp [receive, GossipState.handle, hget, hanswer, hempty]
  | deltas did deltas => rfl

/-- A state is seen when it was, or when it is announced. -/
theorem hasSeen_receive (did : Did) (hash : Blake3Hash) :
    (node.receive policy msg).1.state.hasSeen did hash = true ↔
      node.state.hasSeen did hash = true ∨ ∃ clock, msg = .announce did hash clock := by
  rw [state_receive]
  cases msg with
  | announce did' hash' clock => simp [hasSeen_markSeen]
  | request did' frontier => simp
  | deltas did' deltas => simp

/-- A node answers new announcements with a request, and requests with deltas of its document. -/
theorem response_cases (h : response ∈ (node.receive policy msg).2) :
    (∃ did frontier, response = .request did frontier ∧
      ∀ p ∈ frontier, ∃ doc, node.docs[did]? = some doc ∧ p ∈ doc.frontier) ∨
    ∃ did frontier doc answer, msg = .request did frontier ∧ node.docs[did]? = some doc ∧
      doc.dag.deltasForPeer frontier = .ok answer ∧ response = .deltas did answer := by
  cases msg with
  | announce did hash clock =>
    cases hseen : node.state.hasSeen did hash <;> cases hget : node.docs[did]? <;>
      cases hwants : policy.wants did <;>
        simp_all [receive, GossipState.handle, GossipState.markSeen]
  | request did frontier =>
    cases hget : node.docs[did]? with
    | none => simp [receive, GossipState.handle, hget] at h
    | some doc =>
      cases hanswer : doc.dag.deltasForPeer frontier with
      | error e => simp [receive, GossipState.handle, hget, hanswer] at h
      | ok answer =>
        by_cases hempty : answer = []
        · simp [receive, GossipState.handle, hget, hanswer, hempty] at h
        · simp only [receive, GossipState.handle, hget, hanswer, List.isEmpty_iff, hempty, if_false,
            List.mem_singleton] at h
          exact Or.inr ⟨did, frontier, doc, answer, rfl, hget, hanswer, h⟩
  | deltas did deltas => simp [receive, GossipState.handle] at h

/-- A new announcement of a tracked or wanted document is answered with a request. -/
theorem exists_request {hash : Blake3Hash} (clock : HlcTimestamp)
    (hnew : ¬ node.state.hasSeen did hash = true)
    (hopen : node.docs[did]? ≠ none ∨ policy.wants did = true) :
    ∃ frontier, .request did frontier ∈ (node.receive policy (.announce did hash clock)).2 := by
  cases hget : node.docs[did]? with
  | some doc => exact ⟨doc.frontier, by simp [receive, GossipState.handle, GossipState.markSeen, *]⟩
  | none =>
    have hwants := hopen.resolve_left fun hne ↦ hne hget
    exact ⟨[], by simp [receive, GossipState.handle, GossipState.markSeen, *]⟩

/-- A request for a held document is answered, unless there is nothing to send. -/
theorem mem_receive_request (policy : BootstrapPolicy) {doc : Document} {frontier : List DeltaHash} {answer : List SignedDelta}
    (hget : node.docs[did]? = some doc) (hanswer : doc.dag.deltasForPeer frontier = .ok answer)
    (hne : answer ≠ []) :
    .deltas did answer ∈ (node.receive policy (.request did frontier)).2 := by
  simp [receive, GossipState.handle, hget, hanswer, hne]

end LiveNode

end Receive

/-! ### Messages that stores back -/

/-- The store holds the deltas of the payload, and the frontier of the request. -/
def Backed (source : Set SignedDelta) (docs : Docs) (msg : SyncMessage) : Prop :=
  CarriedBy source docs msg ∧
    ∀ did frontier, msg = .request did frontier → ∀ p ∈ frontier, p ∈ storedHashes docs did

section Backed

variable {source : Set SignedDelta} {docs docs' : Docs} {policy : BootstrapPolicy} {node : LiveNode}
  {did : Did} {doc : Document} {msg response : SyncMessage}

theorem Backed.mono (h : Backed source docs msg) (hkeeps : Keeps docs docs') :
    Backed source docs' msg := by
  refine ⟨fun did deltas hmsg d hd ↦ ?_, fun did frontier hmsg p hp ↦ ?_⟩
  · obtain ⟨hsource, hheld⟩ := h.1 did deltas hmsg d hd
    exact ⟨hsource, hkeeps.storedHashes_sub did hheld⟩
  · exact hkeeps.storedHashes_sub did (h.2 did frontier hmsg p hp)

theorem backed_announce (did : Did) (hash : Blake3Hash) (clock : HlcTimestamp) :
    Backed source docs (.announce did hash clock) :=
  ⟨fun _ _ hmsg ↦ absurd hmsg (by simp), fun _ _ hmsg ↦ absurd hmsg (by simp)⟩

/-- The heads of an ingested document are held. -/
theorem AllIngested.frontier_sub (h : AllIngested source docs) (hfree : CollisionFree source)
    (hget : docs[did]? = some doc) {p : DeltaHash} (hp : p ∈ doc.frontier) :
    p ∈ storedHashes docs did := by
  obtain ⟨_, _, hgenesis, hingested⟩ := h did doc hget
  have hdoc := hingested.coherent hfree hgenesis
  rw [Document.frontier, DeltaDag.mem_frontier, hdoc.dag, mem_frontier_of_history hdoc.history] at hp
  exact ⟨doc, hget, hp.1⟩

/-- A replica answers every request, with deltas that it holds. -/
theorem AllIngested.exists_answer (h : AllIngested source docs) (hfree : CollisionFree source)
    (hget : docs[did]? = some doc) (frontier : List DeltaHash) :
    ∃ answer, doc.dag.deltasForPeer frontier = .ok answer ∧ Backed source docs (.deltas did answer) := by
  obtain ⟨_, _, hgenesis, hingested⟩ := h did doc hget
  have hdoc := hingested.coherent hfree hgenesis
  obtain ⟨answer, hok, hsub, _⟩ := deltasForPeer_of_history hdoc.history frontier
  rw [← hdoc.dag] at hok
  refine ⟨answer, hok, fun did' deltas hmsg d hd ↦ ?_, fun _ _ hmsg ↦ absurd hmsg (by simp)⟩
  obtain ⟨rfl, rfl⟩ := SyncMessage.deltas.inj hmsg
  exact ⟨hdoc.sub (hsub d hd), doc, hget, List.mem_map_of_mem (hsub d hd)⟩

/-- What an honest node sends in response is backed by its store. -/
theorem backed_response (h : AllIngested source node.docs) (hfree : CollisionFree source)
    (hresponse : response ∈ (node.receive policy msg).2) : Backed source node.docs response := by
  rcases node.response_cases hresponse with
    ⟨did, frontier, rfl, hheads⟩ | ⟨did, frontier, doc, answer, _, hget, hanswer, rfl⟩
  · refine ⟨fun _ _ hmsg ↦ absurd hmsg (by simp), fun did' frontier' hmsg p hp ↦ ?_⟩
    obtain ⟨rfl, rfl⟩ := SyncMessage.request.inj hmsg
    obtain ⟨doc, hget, hhead⟩ := hheads p hp
    exact h.frontier_sub hfree hget hhead
  · obtain ⟨answer', hok, hbacked⟩ := h.exists_answer hfree hget frontier
    obtain rfl := Except.ok.inj (hanswer.symm.trans hok)
    exact hbacked

end Backed

/-! ### Honest networks -/

section Honest

variable {N : Type} {source : Set SignedDelta} {policy : N → BootstrapPolicy} {net net' : LiveNetwork N}

/-- The documents were ingested out of the source, and every message is backed by its sender. -/
structure Honest (source : Set SignedDelta) (net : LiveNetwork N) : Prop where
  ingested : ∀ i, AllIngested source (net.parties i).docs
  backed : ∀ sender msg, (sender, msg) ∈ net.sent → Backed source (net.parties sender).docs msg

/-- No node of the first network loses a document, or a delta of one. -/
def Retains (net net' : LiveNetwork N) : Prop :=
  ∀ i, Keeps (net.parties i).docs (net'.parties i).docs

/-- Stores grow, and what is sent is backed by its sender. -/
theorem Honest.advance (h : Honest source net) (hretains : Retains net net')
    (hingested : ∀ i, AllIngested source (net'.parties i).docs)
    (hsent : ∀ sender msg, (sender, msg) ∈ net'.sent →
      (sender, msg) ∈ net.sent ∨ Backed source (net'.parties sender).docs msg) :
    Honest source net' where
  ingested := hingested
  backed sender msg hmem := (hsent sender msg hmem).elim
    (fun hold ↦ (h.backed sender msg hold).mono (hretains sender)) id

theorem Honest.broadcast (h : Honest source net) {msgs : Set (N × SyncMessage)}
    (hbacked : ∀ sender msg, (sender, msg) ∈ msgs → Backed source (net.parties sender).docs msg) :
    Honest source (net.broadcast msgs) :=
  h.advance (fun _ ↦ .refl _) h.ingested fun sender msg hmem ↦
    hmem.imp_right (hbacked sender msg)

variable [DecidableEq N]

/-- One node replaces its store by one that keeps it. -/
theorem Honest.update (h : Honest source net) (i : N) {node : LiveNode}
    (hkeeps : Keeps (net.parties i).docs node.docs) (hingested : AllIngested source node.docs) :
    Honest source (net.update i node) := by
  refine h.advance (fun j ↦ ?_) (fun j ↦ ?_) fun sender msg hmem ↦ Or.inl hmem
  · by_cases hj : j = i
    · subst hj
      simpa [Network.update] using hkeeps
    · simp [Network.update, hj, Keeps.refl]
  · by_cases hj : j = i
    · subst hj
      simpa [Network.update] using hingested
    · simpa [Network.update, hj] using h.ingested j

/-- A delivery keeps the stores. -/
theorem Honest.retains_deliver (h : Honest source net) (policy : N → BootstrapPolicy) (receiver : N)
    (msg : SyncMessage) :
    Retains net (net.deliver (receiveUnder policy) receiver msg) := by
  intro j
  by_cases hj : j = receiver
  · subst hj
    rw [Network.parties_deliver_self, LiveNode.docs_receive]
    exact (mergeInbound_keeps (h.ingested j).allGrown msg (policy j)).1
  · rw [Network.parties_deliver_of_ne _ _ _ _ hj]
    exact .refl _

theorem Honest.deliver (h : Honest source net) (hfree : CollisionFree source) {receiver : N}
    {msg : SyncMessage} (hsent : (receiver, msg) ∈ toOthers net.sent) :
    Honest source (net.deliver (receiveUnder policy) receiver msg) := by
  obtain ⟨sender, _, hmem⟩ := hsent
  have hretains := h.retains_deliver policy receiver msg
  refine h.advance hretains (fun j ↦ ?_) fun other response hresponse ↦ ?_
  · by_cases hj : j = receiver
    · subst hj
      rw [Network.parties_deliver_self, LiveNode.docs_receive]
      exact (h.ingested j).mergeInbound hfree (h.ingested sender) (h.backed sender msg hmem).1
    · rw [Network.parties_deliver_of_ne _ _ _ _ hj]
      exact h.ingested j
  · rcases (Network.mem_sent_deliver ..).mp hresponse with hold | ⟨rfl, hnew⟩
    · exact Or.inl hold
    · exact Or.inr ((backed_response (h.ingested other) hfree hnew).mono (hretains other))

variable [StateDigests]

/-- Whatever is lost, delayed, duplicated and reordered, the network stays honest. -/
theorem GossipRun.honest (hfree : CollisionFree source) (h : GossipRun policy source net) :
    Honest source net := by
  induction h with
  | start =>
    refine ⟨fun i did doc hget ↦ absurd hget ?_, fun sender msg hmem ↦ absurd hmem (Set.notMem_empty _)⟩
    simp [LiveNode.new]
  | @create net i publicKeyMultibase _ hgenesis huntracked ih =>
    refine ih.update i (.insert fun held hheld ↦ ?_) ((ih.ingested i).createDid hgenesis)
    exact absurd (huntracked.symm.trans hheld) (by simp)
  | @submit net i didStr delta _ hdelta ih =>
    exact ih.update i (submitDelta_keeps (ih.ingested i).allGrown didStr delta).1
      ((ih.ingested i).submitDelta didStr hdelta)
  | @announce net i did msg _ hmsg ih =>
    refine ih.broadcast fun sender sent hmem ↦ ?_
    obtain ⟨rfl, rfl⟩ := Prod.mk.inj (Set.mem_singleton_iff.mp hmem)
    obtain ⟨doc, _, rfl⟩ := Option.map_eq_some_iff.mp hmsg
    exact backed_announce ..
  | @engineAnnounce net i did doc clock _ _ ih =>
    have hdocs : ((net.parties i).engineAnnounce doc clock).1.docs = (net.parties i).docs := rfl
    refine (ih.update i (hdocs ▸ .refl _) (hdocs ▸ ih.ingested i)).broadcast fun sender sent hmem ↦ ?_
    obtain ⟨_, hsent⟩ := hmem
    have hannounce : sent = .announce doc.did doc.contentHash clock := by
      unfold LiveNode.engineAnnounce GossipState.announce at hsent
      by_cases hnew : ((net.parties i).state.markSeen doc.did doc.contentHash).2 = true <;> simp_all
    rw [hannounce]
    exact backed_announce ..
  | deliver _ hsent ih => exact ih.deliver hfree hsent

omit [DecidableEq N] in
/-- So it is when a round starts. -/
theorem Honest.announceAll (h : Honest source net) : Honest source (announceAll net).net := by
  refine h.broadcast fun sender msg hmem ↦ ?_
  obtain ⟨did, hmsg⟩ := hmem
  obtain ⟨doc, _, rfl⟩ := Option.map_eq_some_iff.mp hmsg
  exact backed_announce ..

end Honest

/-! ### Deliveries without loss -/

section Phase

variable {N : Type} [DecidableEq N] {source : Set SignedDelta} {policy : N → BootstrapPolicy}
  {t last : Transit N LiveNode SyncMessage}

/-- Deliveries keep a network honest, and its stores. -/
theorem Honest.phase (h : Honest source t.net) (hfree : CollisionFree source)
    (hphase : Transit.Phase (receiveUnder policy) t last) :
    Honest source last.net ∧ Retains t.net last.net := by
  refine Transit.keeps (P := fun net ↦ Honest source net ∧ Retains t.net net) ?_ hphase ⟨h, fun i ↦ .refl _⟩
  rintro net receiver msg ⟨hnet, hretains⟩ hsent
  exact ⟨hnet.deliver hfree hsent, fun i ↦ (hretains i).trans (hnet.retains_deliver policy receiver msg i)⟩

/-- What is held in the end was held by some node at the start. -/
theorem storedHashes_sub (h : Honest source t.net) (hfree : CollisionFree source)
    (hphase : Transit.Phase (receiveUnder policy) t last) (i : N) (did : Did) {hash : DeltaHash}
    (hhash : hash ∈ storedHashes (last.net.parties i).docs did) :
    ∃ j, hash ∈ storedHashes (t.net.parties j).docs did := by
  let Known (net : LiveNetwork N) : Prop := ∀ i, ∀ hash ∈ storedHashes (net.parties i).docs did,
    ∃ j, hash ∈ storedHashes (t.net.parties j).docs did
  suffices hknown : Honest source last.net ∧ Known last.net from hknown.2 i hash hhash
  refine Transit.keeps (P := fun net ↦ Honest source net ∧ Known net) ?_ hphase ⟨h, fun i hash hhash ↦ ⟨i, hhash⟩⟩
  rintro net receiver msg ⟨hnet, hknown⟩ hsent
  refine ⟨hnet.deliver hfree hsent, fun j hash hhash ↦ ?_⟩
  obtain ⟨sender, _, hmem⟩ := hsent
  by_cases hj : j = receiver
  · subst hj
    rw [Network.parties_deliver_self, LiveNode.docs_receive] at hhash
    rcases storedHashes_mergeInbound_sub hhash with hold | ⟨deltas, rfl, hin⟩
    · exact hknown j hash hold
    · obtain ⟨d, hd, rfl⟩ := List.mem_map.mp hin
      exact hknown sender _ ((hnet.backed sender _ hmem).1 did deltas rfl d hd).2
  · rw [Network.parties_deliver_of_ne _ _ _ _ hj] at hhash
    exact hknown j hash hhash

/-- A document that is neither tracked nor wanted stays so. -/
theorem untracked_of_phase (hphase : Transit.Phase (receiveUnder policy) t last) {i : N} {did : Did}
    (hstart : (t.net.parties i).docs[did]? = none) (hwants : (policy i).wants did = false) :
    (last.net.parties i).docs[did]? = none := by
  refine Transit.keeps (P := fun net ↦ (net.parties i).docs[did]? = none) ?_ hphase hstart
  intro net receiver msg hnone _
  by_cases hi : i = receiver
  · subst hi
    rw [Network.parties_deliver_self, LiveNode.docs_receive]
    rcases mergeInbound_cases (net.parties i).docs msg (policy i) with
      ⟨hsame, _⟩ | ⟨did', deltas, rfl, hmerged⟩
    · rwa [hsame]
    have hne : did' ≠ did := by
      rintro rfl
      rcases hmerged with ⟨doc, hget, _⟩ | ⟨_, hwants', _⟩
      · exact absurd (hnone.symm.trans hget) (by simp)
      · exact absurd (hwants.symm.trans hwants') (by simp)
    rcases hmerged with ⟨doc, _, heq⟩ | ⟨_, _, key, _, _, heq⟩ <;>
      rwa [heq, OrderedMaps.getElem?_insert, if_neg hne]
  · rwa [Network.parties_deliver_of_ne _ _ _ _ hi]

/-- What a node has seen stays seen. -/
theorem hasSeen_of_phase (hphase : Transit.Phase (receiveUnder policy) t last) {i : N} {did : Did}
    {hash : Blake3Hash} (hstart : (t.net.parties i).state.hasSeen did hash = true) :
    (last.net.parties i).state.hasSeen did hash = true := by
  refine Transit.keeps (P := fun net ↦ (net.parties i).state.hasSeen did hash = true) ?_ hphase hstart
  intro net receiver msg hseen _
  by_cases hi : i = receiver
  · subst hi
    rw [Network.parties_deliver_self]
    exact (LiveNode.hasSeen_receive did hash).mpr (Or.inl hseen)
  · rwa [Network.parties_deliver_of_ne _ _ _ _ hi]

/-! ### The exchange -/

/-- A request that is owed to a node that tracks the document: in the end the requester holds what that
node holds now. The node answers, and its answer is merged, whenever they are delivered. -/
theorem requested_held (h : Honest source t.net) (hfree : CollisionFree source)
    (hids : UniqueMethodIds source) (hphase : Transit.Phase (receiveUnder policy) t last)
    (hnone : last.owed = ∅) {i j : N} (hne : i ≠ j) {did : Did} {frontier : List DeltaHash}
    (hopen : (t.net.parties i).docs[did]? ≠ none ∨ (policy i).wants did = true)
    (hheld : ∀ p ∈ frontier, p ∈ storedHashes (t.net.parties i).docs did)
    (howed : (j, .request did frontier) ∈ t.owed) {doc : Document}
    (hget : (t.net.parties j).docs[did]? = some doc) :
    ∀ hash ∈ doc.logHashes, hash ∈ storedHashes (last.net.parties i).docs did := by
  intro hash hhash
  obtain ⟨asked, hbefore, hsent, hafter⟩ := Transit.exists_delivery hphase hnone howed
  obtain ⟨hasked, hretained⟩ := h.phase hfree hbefore
  obtain ⟨doc', hget', hextends⟩ := hretained j did doc hget
  have hhash' := hextends.hashes hash hhash
  obtain ⟨key, hdid, hgenesis, hingested⟩ := hasked.ingested j did doc' hget'
  obtain ⟨answer, hanswer, -⟩ := (hasked.ingested j).exists_answer hfree hget' frontier
  have hanswered : Honest source (asked.net.deliver (receiveUnder policy) j (.request did frontier)) :=
    hasked.deliver hfree hsent
  have hretained' := fun i ↦
    (hretained i).trans (hasked.retains_deliver policy j (.request did frontier) i)
  by_cases hempty : answer = []
  · -- nothing is sent, since nothing is missing
    have hpeer := hingested.coherent hfree hgenesis
    have hold := held_or_answered (hasked.ingested i) hfree hpeer
      (fun p hp ↦ (hretained i).storedHashes_sub did (hheld p hp)) hanswer hhash'
    rw [hempty] at hold
    have hkept := (hasked.retains_deliver policy j (.request did frontier) i).trans
      ((hanswered.phase hfree hafter).2 i)
    exact hkept.storedHashes_sub did (hold.resolve_right List.not_mem_nil)
  · have hresponse := (asked.net.parties j).mem_receive_request (policy j) hget' hanswer hempty
    have howed' : (i, .deltas did answer) ∈
        (asked.deliver (receiveUnder policy) j (.request did frontier)).owed :=
      Transit.owed_response asked hne.symm hresponse
    obtain ⟨merged, hbefore', hsent', hafter'⟩ := Transit.exists_delivery hafter hnone howed'
    obtain ⟨hmerged, hretained''⟩ := hanswered.phase hfree hbefore'
    have hkept := (hretained' i).trans (hretained'' i)
    have hopen' : (merged.net.parties i).docs[did]? ≠ none ∨ (policy i).wants did = true := by
      refine hopen.imp_left fun hsome hnone ↦ ?_
      obtain ⟨held, hheld⟩ := Option.ne_none_iff_exists'.mp hsome
      obtain ⟨held', hheld', _⟩ := hkept did held hheld
      exact absurd (hnone.symm.trans hheld') (by simp)
    have hcovered := mergeInbound_covers (hmerged.ingested i) hfree hids hdid hgenesis hingested hopen'
      (fun p hp ↦ hkept.storedHashes_sub did (hheld p hp)) hanswer hash hhash'
    have hlast := ((hmerged.deliver hfree hsent').phase hfree hafter').2 i
    refine hlast.storedHashes_sub did ?_
    change hash ∈ storedHashes
      ((merged.net.deliver (receiveUnder policy) i (.deltas did answer)).parties i).docs did
    rwa [Network.parties_deliver_self, LiveNode.docs_receive]

variable [StateDigests]

/-- What a node has seen announced it holds, if it tracks the document or wants it. -/
def SeenIsHeld (policy : N → BootstrapPolicy) (net : LiveNetwork N) : Prop :=
  ∀ i j, i ≠ j → ∀ did doc, (net.parties j).docs[did]? = some doc →
    (net.parties i).docs[did]? ≠ none ∨ (policy i).wants did = true →
    (net.parties i).state.hasSeen did doc.contentHash = true →
    ∀ hash ∈ doc.logHashes, hash ∈ storedHashes (net.parties i).docs did

variable {net : LiveNetwork N}

/-- In the end a node that tracks a document holds what others held of it at the start: it had seen the
announced state, or requests it when the announcement is delivered first. -/
theorem announced_held (h : Honest source net) (hfree : CollisionFree source)
    (hids : UniqueMethodIds source) (hseen : SeenIsHeld policy net)
    (hphase : Transit.Phase (receiveUnder policy) (announceAll net) last) (hnone : last.owed = ∅)
    {i j : N} (hne : i ≠ j) {did : Did} (htracks : (last.net.parties i).docs[did]? ≠ none)
    {doc : Document} (hget : (net.parties j).docs[did]? = some doc) :
    ∀ hash ∈ doc.logHashes, hash ∈ storedHashes (last.net.parties i).docs did := by
  intro hash hhash
  have hstart := h.announceAll
  have hopen : ∀ {t}, Transit.Phase (receiveUnder policy) t last →
      (t.net.parties i).docs[did]? ≠ none ∨ (policy i).wants did = true := by
    intro t hphase
    by_contra hclosed
    rw [not_or, not_not, Bool.not_eq_true] at hclosed
    exact htracks (untracked_of_phase hphase hclosed.1 hclosed.2)
  by_cases hold : (net.parties i).state.hasSeen did doc.contentHash = true
  · have hheld := hseen i j hne did doc hget (hopen hphase) hold hash hhash
    exact ((hstart.phase hfree hphase).2 i).storedHashes_sub did hheld
  · have howed : (i, .announce did doc.contentHash .default) ∈ (announceAll net).owed := by
      refine ⟨j, hne.symm, did, ?_⟩
      rw [LiveNode.announce, hget]
      rfl
    obtain ⟨mid, hbefore, hsent, hafter⟩ := Transit.exists_delivery hphase hnone howed
    -- the announcement, or an older copy of it, is the first that the node sees of the state
    have hlast : (last.net.parties i).state.hasSeen did doc.contentHash = true := by
      refine hasSeen_of_phase hafter ?_
      change ((mid.net.deliver (receiveUnder policy) i _).parties i).state.hasSeen did _ = true
      rw [Network.parties_deliver_self]
      exact (LiveNode.hasSeen_receive did _).mpr (Or.inr ⟨_, rfl⟩)
    obtain ⟨first, receiver, msg, hbefore', hsent', hnew, hnow, hafter'⟩ := Transit.exists_change
      (P := fun net ↦ (net.parties i).state.hasSeen did doc.contentHash = true) hphase hold hlast
    obtain ⟨hfirst, hretained⟩ := hstart.phase hfree hbefore'
    have hreceiver : receiver = i := by
      by_contra hother
      refine hnew ?_
      have hsame := Network.parties_deliver_of_ne (receiveUnder policy) first.net receiver msg
        (Ne.symm hother)
      rwa [← hsame]
    subst hreceiver
    obtain ⟨clock, rfl⟩ : ∃ clock, msg = .announce did doc.contentHash clock := by
      change ((first.net.deliver (receiveUnder policy) receiver msg).parties receiver).state.hasSeen
        did _ = true at hnow
      rw [Network.parties_deliver_self] at hnow
      exact ((LiveNode.hasSeen_receive did _).mp hnow).resolve_left hnew
    obtain ⟨frontier, hrequest⟩ := LiveNode.exists_request clock hnew
      (hopen (.head (.deliver hsent') hafter'))
    have howed' : (j, .request did frontier) ∈
        (first.deliver (receiveUnder policy) receiver (.announce did doc.contentHash clock)).owed :=
      Transit.owed_response first hne hrequest
    have hstep := hfirst.retains_deliver policy receiver
      (.announce did doc.contentHash clock)
    have hbacked := (backed_response (hfirst.ingested receiver) hfree hrequest).mono (hstep receiver)
    obtain ⟨doc', hget', hextends⟩ := ((hretained j).trans (hstep j)) did doc hget
    exact requested_held (hfirst.deliver hfree hsent') hfree hids hafter' hnone hne (hopen hafter')
      (hbacked.2 did frontier rfl) howed' hget' hash (hextends.hashes hash hhash)

/-- Assumes: payloads do not collide, and ids are unique. After any run of the network, a round from which
nothing is lost leaves any two nodes that track a document with the same deltas of it, if at its start the
nodes hold what they have seen. -/
theorem gossipRound_agrees (hfree : CollisionFree source) (hids : UniqueMethodIds source)
    (hrun : GossipRun policy source net) (hseen : SeenIsHeld policy net)
    (hphase : Transit.Phase (receiveUnder policy) (announceAll net) last) (hnone : last.owed = ∅)
    (i j : N) (did : Did) (hi : (last.net.parties i).docs[did]? ≠ none)
    (hj : (last.net.parties j).docs[did]? ≠ none) :
    storedHashes (last.net.parties i).docs did = storedHashes (last.net.parties j).docs did := by
  have hhonest := hrun.honest hfree
  have hsub : ∀ i j, (last.net.parties j).docs[did]? ≠ none →
      storedHashes (last.net.parties i).docs did ⊆ storedHashes (last.net.parties j).docs did := by
    intro i j hj hash hhash
    obtain ⟨k, doc, hget, hmem⟩ := storedHashes_sub hhonest.announceAll hfree hphase i did hhash
    by_cases hk : j = k
    · subst hk
      exact ((hhonest.announceAll.phase hfree hphase).2 j).storedHashes_sub did ⟨doc, hget, hmem⟩
    · exact announced_held hhonest hfree hids hseen hphase hnone hk hj hget hash hmem
  exact (hsub i j hj).antisymm (hsub j i hi)

end Phase

end

section Readable

attribute [local instance] Primitives.readable StateDigests.readable

/-- The content hashes that a node holds of a document. -/
def LiveNode.held (node : LiveNode) (did : Did) : Option (List DeltaHash) :=
  node.docs[did]?.map Document.logHashes

theorem LiveNode.storedHashes_of_held {node : LiveNode} {did : Did} {hashes : List DeltaHash}
    (h : node.held did = some hashes) :
    node.docs[did]? ≠ none ∧ storedHashes node.docs did = {hash | hash ∈ hashes} := by
  obtain ⟨doc, hget, rfl⟩ := Option.map_eq_some_iff.mp h
  exact ⟨by simp [hget], Set.ext fun hash ↦ mem_storedHashes hget hash⟩

/-- A revocation by the creation key of the document of the key `u7`. -/
def revocation : SignedDelta :=
  .readable "did:crdt:u7" "did:crdt:u7#key-0" "u7" 1 55 (.revokeCredential "c") ["0.0.0"]

/-- The creation of the document and the revocation. -/
def issued : Set SignedDelta := members [Document.genesis "u7", revocation]

theorem collisionFree_issued : CollisionFree issued := .of_nodup (by decide)

theorem uniqueMethodIds_issued : UniqueMethodIds issued := by
  have honly : ∀ d ∈ issued, ∀ id, d.AddsMethod id → d = Document.genesis "u7" := by
    rintro d hd id ⟨key, suite, relationships, hop⟩
    rcases List.mem_cons.mp hd with rfl | hd
    · rfl
    · rw [List.mem_singleton.mp hd] at hop
      cases hop
  intro d hd e he _ id hadds hadds'
  rw [honly d hd id hadds, honly e he id hadds']

/-- Two nodes create the document, and one of them accepts the revocation. -/
def apart : LiveNetwork Bool :=
  let start : LiveNetwork Bool := ⟨fun _ ↦ .new, ∅⟩
  let first := start.update false ⟨.new, (createDid ∅ "u7").1⟩
  let both := first.update true ⟨.new, (createDid ∅ "u7").1⟩
  both.update false ⟨.new, (submitDelta (createDid ∅ "u7").1 "did:crdt:u7" revocation).1⟩

/-- No node wants a document that it does not track. -/
def unsolicited : Bool → BootstrapPolicy := fun _ ↦ .solicitedOnly

theorem run_apart : GossipRun unsolicited issued apart := by
  have hgenesis : Document.genesis "u7" ∈ issued := List.mem_cons_self
  have hrevocation : revocation ∈ issued := List.mem_cons_of_mem _ List.mem_cons_self
  refine .submit false "did:crdt:u7" (.create true "u7" (.create false "u7" .start hgenesis ?_) hgenesis ?_)
    hrevocation
  · rfl
  · rfl

theorem seenIsHeld_apart : SeenIsHeld unsolicited apart := by
  intro i j _ did doc _ _ hseen
  have hnew : (apart.parties i).state = .new := by cases i <;> rfl
  rw [hnew] at hseen
  exact absurd hseen (by simp [GossipState.new, GossipState.hasSeen])

/-- The round from `apart`: the revocation reaches the node that lacks it. -/
theorem gossipRound_agrees_apart :
    ∃ last, Transit.Phase (receiveUnder unsolicited) (announceAll apart) last ∧ last.owed = ∅ ∧
      storedHashes (last.net.parties true).docs (deriveDid "u7") =
        storedHashes (last.net.parties false).docs (deriveDid "u7") ∧
      revocation.contentHash ∈ storedHashes (last.net.parties false).docs (deriveDid "u7") ∧
      revocation.contentHash ∉ storedHashes (apart.parties true).docs (deriveDid "u7") := by
  have hround : (gossipRound [false, true] unsolicited 9 apart.parties).map (fun parties ↦
      ((parties false).held (deriveDid "u7"), (parties true).held (deriveDid "u7"))) =
      some (some [⟨"0.0.0"⟩, ⟨"1.0.55"⟩], some [⟨"0.0.0"⟩, ⟨"1.0.55"⟩]) := by decide
  obtain ⟨parties, hparties, hheld⟩ := Option.map_eq_some_iff.mp hround
  obtain ⟨hfalse, htrue⟩ := Prod.mk.inj hheld
  obtain ⟨last, hphase, hnone, rfl⟩ := exists_phase_of_gossipRound (by decide) hparties
  obtain ⟨htracked, hhashes⟩ := LiveNode.storedHashes_of_held hfalse
  obtain ⟨htracked', _⟩ := LiveNode.storedHashes_of_held htrue
  have hagrees := gossipRound_agrees collisionFree_issued uniqueMethodIds_issued run_apart
    seenIsHeld_apart hphase hnone true false (deriveDid "u7") htracked' htracked
  refine ⟨last, hphase, hnone, hagrees, ?_, ?_⟩
  · rw [hhashes]
    exact List.mem_cons_of_mem _ List.mem_cons_self
  · have hbefore : (apart.parties true).held (deriveDid "u7") = some [⟨"0.0.0"⟩] := by decide
    rw [(LiveNode.storedHashes_of_held hbefore).2]
    exact fun hmem ↦ absurd (List.mem_singleton.mp hmem) (by decide)

/-- The announcement of the node that accepted the revocation. -/
def announced : SyncMessage := .announce (deriveDid "u7") 2 .default

/-- The other node receives the announcement; its request is not delivered. -/
def lossy : LiveNetwork Bool :=
  (apart.broadcast {(false, announced)}).deliver (receiveUnder unsolicited) true announced

theorem run_lossy : GossipRun unsolicited issued lossy := by
  have hannounced : (apart.parties false).announce (deriveDid "u7") = some announced := rfl
  exact .deliver (.announce false run_apart hannounced) ⟨false, by decide, Or.inr rfl⟩

/-- The round from `lossy`, in which nothing is lost: the announcement was seen, so the node does not request
the revocation again, and the nodes that track the document end with different deltas of it. -/
theorem gossipRound_disagrees_lossy :
    CollisionFree issued ∧ UniqueMethodIds issued ∧ GossipRun unsolicited issued lossy ∧
      ∃ last, Transit.Phase (receiveUnder unsolicited) (announceAll lossy) last ∧ last.owed = ∅ ∧
        (last.net.parties false).docs[deriveDid "u7"]? ≠ none ∧
        (last.net.parties true).docs[deriveDid "u7"]? ≠ none ∧
        revocation.contentHash ∈ storedHashes (last.net.parties false).docs (deriveDid "u7") ∧
        revocation.contentHash ∉ storedHashes (last.net.parties true).docs (deriveDid "u7") := by
  have hround : (gossipRound [false, true] unsolicited 9 lossy.parties).map (fun parties ↦
      ((parties false).held (deriveDid "u7"), (parties true).held (deriveDid "u7"))) =
      some (some [⟨"0.0.0"⟩, ⟨"1.0.55"⟩], some [⟨"0.0.0"⟩]) := by decide
  obtain ⟨parties, hparties, hheld⟩ := Option.map_eq_some_iff.mp hround
  obtain ⟨hfalse, htrue⟩ := Prod.mk.inj hheld
  obtain ⟨last, hphase, hnone, rfl⟩ := exists_phase_of_gossipRound (by decide) hparties
  obtain ⟨htracked, hhashes⟩ := LiveNode.storedHashes_of_held hfalse
  obtain ⟨htracked', hhashes'⟩ := LiveNode.storedHashes_of_held htrue
  refine ⟨collisionFree_issued, uniqueMethodIds_issued, run_lossy, last, hphase, hnone, htracked,
    htracked', ?_, ?_⟩
  · rw [hhashes]
    exact List.mem_cons_of_mem _ List.mem_cons_self
  · rw [hhashes']
    exact fun hmem ↦ absurd (List.mem_singleton.mp hmem) (by decide)

end Readable

end DidCrdt
