import DidCrdt.Theory.ClosureReplay
import DidCrdt.Theory.StoreHistory

/-!
# Merging the answer of a peer

A replica that merges what a peer sends of its history ends with all of that history, as soon as what
the peer left out is held (`mergeBatch_covers`): every delta of the peer was admitted there, so it is
admissible here, and when the ids of methods are unique it verifies under the same key
(`Attested.verifies_at`). A refusal would contradict that, and a pending delta would miss a parent that
the peer holds. A replica that holds nothing starts from the creation delta of the answer
(`mergeInbound_covers`).
-/

set_option autoImplicit false
set_option relaxedAutoImplicit false

namespace DidCrdt

section

variable [Primitives]

/-! ### Unique ids -/

/-- Two additions for one document that share an id are one delta. -/
def UniqueMethodIds (source : Set SignedDelta) : Prop :=
  ∀ d ∈ source, ∀ e ∈ source, d.did = e.did → ∀ id, d.AddsMethod id → e.AddsMethod id →
    d.contentHash = e.contentHash

section Unique

variable {source : Set SignedDelta} {root : SignedDelta} {doc other peer : Document} {d : SignedDelta}

/-- The deltas of a document name it. -/
theorem Coherent.did_of_mem (h : Coherent source root doc) (hd : d ∈ doc.deltaLog) :
    d.did = root.did := by
  by_cases hparents : d.parents = []
  · rw [h.history.eq_root hd hparents]
  · exact (h.admitted d hd hparents).gates.did

/-- Assumes: ids are unique. Methods of two replicas with the same id are the same. -/
theorem UniqueMethodIds.entry_eq (hids : UniqueMethodIds source) (hfree : CollisionFree source)
    (h : Coherent source root doc) (h' : Coherent source root other)
    {entry entry' : VerificationMethodEntry} (hentry : entry ∈ doc.verificationMethods)
    (hentry' : entry' ∈ other.verificationMethods) (hid : entry.id = entry'.id) : entry = entry' := by
  obtain ⟨a, ha, hop⟩ := (h.mem_verificationMethods_iff entry).mp hentry
  obtain ⟨b, hb, hop'⟩ := (h'.mem_verificationMethods_iff entry').mp hentry'
  have hdid : a.did = b.did := (h.did_of_mem ha).trans (h'.did_of_mem hb).symm
  have hadds : b.AddsMethod entry.id := by
    rw [hid]
    exact ⟨_, _, _, hop'⟩
  have hsame := hids a (h.sub ha) b (h'.sub hb) hdid entry.id ⟨_, _, _, hop⟩ hadds
  have hops := hfree.op_eq (h.sub ha) (h'.sub hb) hsame
  exact VerificationMethodEntry.addition_injective (hop.symm.trans (hops.trans hop'))

/-- Assumes: ids are unique. A document has one creation delta. -/
theorem UniqueMethodIds.genesis_eq (hids : UniqueMethodIds source) (hfree : CollisionFree source)
    {key key' : String} (hkey : Document.genesis key ∈ source) (hkey' : Document.genesis key' ∈ source)
    (hdid : deriveDid key = deriveDid key') : key = key' := by
  have hadds : (Document.genesis key').AddsMethod s!"{(deriveDid key).toString}#key-0" := by
    rw [hdid]
    exact ⟨key', _, _, rfl⟩
  have hsame := hids _ hkey _ hkey' hdid _ ⟨key, _, _, rfl⟩ hadds
  exact (DeltaOp.addVerificationMethod.inj (hfree.op_eq hkey hkey' hsame)).2.1

/-- Assumes: ids are unique. A delta that a peer holds verifies wherever its parents are held. -/
theorem Attested.verifies_at (hattested : Attested peer) (hpeer : Coherent source root peer)
    (hfree : CollisionFree source) (hids : UniqueMethodIds source) (h : Coherent source root doc)
    (hd : d ∈ peer.deltaLog) (hgrounded : d.parents ≠ []) (hheld : ∀ p ∈ d.parents, p ∈ doc.logHashes) :
    verifySignature d doc = .ok () := by
  obtain ⟨entry, hentry, hid, hsigned⟩ := hattested d hd hgrounded
  obtain ⟨found, hfind⟩ := h.exists_found hfree (hpeer.admitted d hd hgrounded).authorised hheld
  obtain ⟨hfound, hid', _⟩ := (VerificationMethods.findId_eq_some_iff _ _ _).mp hfind
  obtain rfl := hids.entry_eq hfree h hpeer hfound hentry (hid'.trans hid.symm)
  exact (verifySignature_eq_ok_iff h.exists_method).mpr ⟨found, hfind, hsigned⟩

end Unique

/-! ### A batch from a peer -/

section Batch

variable {source : Set SignedDelta} {root : SignedDelta} {doc peer : Document} {d : SignedDelta}
  {batch run : List SignedDelta}

/-- Assumes: the delta is admissible, and verifies wherever its parents are held. Then it is refused
only where it is held. -/
theorem held_of_refused (hfree : CollisionFree source) (hadmissible : Admissible source root.did d)
    (hverifies : ∀ doc, Coherent source root doc → (∀ p ∈ d.parents, p ∈ doc.logHashes) →
      verifySignature d doc = .ok ())
    (h : Coherent source root doc) (hrefused : Refused doc d) : d.contentHash ∈ doc.logHashes := by
  by_contra hnew
  have haccepts := h.accepts_of_not_pending hfree hadmissible hnew hrefused.1
  have hparents := ((h.accepts_iff hfree).mp haccepts).2.2
  exact hrefused.2 ⟨haccepts, hverifies doc h hparents⟩

/-- The induction is on the run. -/
theorem held_of_refusedAlong (hfree : CollisionFree source)
    (hadmissible : Admissible source root.did d)
    (hverifies : ∀ doc, Coherent source root doc → (∀ p ∈ d.parents, p ∈ doc.logHashes) →
      verifySignature d doc = .ok ())
    (h : Coherent source root doc) (hrun : Verifies source doc run) (hrefused : RefusedAlong d doc run) :
    d.contentHash ∈ (doc.recordAll run).logHashes := by
  have hhere {doc : Document} (h : Coherent source root doc) (hrefused : Refused doc d) :
      d.contentHash ∈ doc.logHashes := held_of_refused hfree hadmissible hverifies h hrefused
  induction run generalizing doc with
  | nil => exact hhere h hrefused
  | cons e run ih =>
    rcases hrefused with hrefused | hrefused
    · exact held_recordAll (hhere h hrefused)
    · have hnext := h.verifiedStep hfree ⟨e, hrun.1, hrun.2.1, hrun.2.2.1, rfl⟩
      exact ih hnext hrun.2.2.2 hrefused

/-- Assumes: ids are unique. A batch of deltas that a peer holds, with every hash of the peer that is
not held: after it everything that the peer holds is held. The induction is on the history of the
peer, whose parents come first. -/
theorem mergeBatch_covers (hfree : CollisionFree source) (hids : UniqueMethodIds source)
    (h : Coherent source root doc) (hpeer : Coherent source root peer) (hattested : Attested peer)
    (hbatch : ∀ d ∈ batch, d ∈ peer.deltaLog)
    (hcover : ∀ hash ∈ peer.logHashes, hash ∈ doc.logHashes ∨
      hash ∈ batch.map SignedDelta.contentHash) :
    ∀ hash ∈ peer.logHashes, hash ∈ (doc.mergeBatch batch).logHashes := by
  obtain ⟨run, hspec⟩ := mergeBatch_spec doc batch
  have hrun : Verifies source doc run := hspec.verifies.mono fun e he ↦ hpeer.sub (hbatch e he)
  have hlast : Coherent source root (doc.mergeBatch batch) := hspec.reaches ▸ h.recordAll hfree hrun
  have hkept : ∀ hash ∈ doc.logHashes, hash ∈ (doc.mergeBatch batch).logHashes := by
    intro hash hhash
    rw [hspec.reaches]
    exact held_recordAll hhash
  have hall : ∀ log, History root log → (∀ d ∈ log, d ∈ peer.deltaLog) →
      ∀ hash ∈ log.map SignedDelta.contentHash, hash ∈ (doc.mergeBatch batch).logHashes := by
    intro log hlog
    induction hlog with
    | start _ =>
      intro _ hash hhash
      rw [List.map_singleton, List.mem_singleton] at hhash
      rw [hhash]
      exact hkept _ (List.mem_map_of_mem h.history.root_mem)
    | @snoc log d _ hgrounded _ hparents ih =>
      intro hsub hash hhash
      have hbefore := ih fun e he ↦ hsub e (List.mem_append_left _ he)
      have hd : d ∈ peer.deltaLog := hsub d (by simp)
      rw [List.map_append, List.mem_append, List.map_singleton, List.mem_singleton] at hhash
      rcases hhash with hhash | rfl
      · exact hbefore hash hhash
      rcases hcover _ (List.mem_map_of_mem hd) with hheld | hin
      · exact hkept _ hheld
      obtain ⟨e, he, hkey⟩ := List.mem_map.mp hin
      obtain rfl : e = d := List.inj_on_of_nodup_map hpeer.history.nodup (hbatch e he) hd hkey
      rcases hspec.settled e he with hpending | hheld | hrefused
      · obtain ⟨p, hp, hmissing⟩ := hlast.exists_missing_of_pending hpending
        exact absurd (hbefore p (hparents p hp)) hmissing
      · exact hheld
      · rw [hspec.reaches]
        refine held_of_refusedAlong hfree (hpeer.admitted e hd hgrounded) ?_ h hrun hrefused
        intro other hother hheld
        exact hattested.verifies_at hpeer hfree hids hother hd hgrounded hheld
  exact hall peer.deltaLog hpeer.history fun d hd ↦ hd

end Batch

/-! ### Stores of honest replicas -/

/-- Verified runs are verified ingestion. -/
theorem IngestedWhile.recordAll {source : Set SignedDelta} {publicKeyMultibase : String}
    {run : List SignedDelta} {doc : Document}
    (h : IngestedWhile (fun _ _ ↦ True) source publicKeyMultibase doc) (hrun : Verifies source doc run) :
    IngestedWhile (fun _ _ ↦ True) source publicKeyMultibase (doc.recordAll run) := by
  induction run generalizing doc with
  | nil => exact h
  | cons d run ih =>
    obtain ⟨hd, haccepts, hsig, hrest⟩ := hrun
    have hnext := h.delta hd trivial
    rw [Document.mergeVerifiedDelta_of_accepts haccepts hsig] at hnext
    exact ih hnext hrest

/-- Every document was ingested, from its creation on, out of deltas of the source. -/
def AllIngested (source : Set SignedDelta) (docs : Docs) : Prop :=
  ∀ (did : Did) (doc : Document), docs[did]? = some doc →
    ∃ publicKeyMultibase, deriveDid publicKeyMultibase = did ∧
      Document.genesis publicKeyMultibase ∈ source ∧
      IngestedWhile (fun _ _ ↦ True) source publicKeyMultibase doc

/-- The deltas of the payload are deltas of the source that the store holds. -/
def CarriedBy (source : Set SignedDelta) (docs : Docs) (msg : SyncMessage) : Prop :=
  ∀ did deltas, msg = .deltas did deltas →
    ∀ d ∈ deltas, d ∈ source ∧ d.contentHash ∈ storedHashes docs did

section Stores

variable {source : Set SignedDelta} {docs peers : Docs} {did : Did} {doc peer : Document}
  {msg : SyncMessage} {policy : BootstrapPolicy}

theorem mem_storedHashes (hget : docs[did]? = some doc) (hash : DeltaHash) :
    hash ∈ storedHashes docs did ↔ hash ∈ doc.logHashes := by
  constructor
  · rintro ⟨held, hheld, hmem⟩
    rwa [← Option.some.inj (hheld.symm.trans hget)]
  · exact fun hmem ↦ ⟨doc, hget, hmem⟩

theorem Keeps.storedHashes_sub (h : Keeps docs peers) (did : Did) :
    storedHashes docs did ⊆ storedHashes peers did := by
  rintro hash ⟨doc, hget, hmem⟩
  obtain ⟨doc', hget', hextends⟩ := h did doc hget
  exact ⟨doc', hget', hextends.hashes hash hmem⟩

theorem AllIngested.allGrown (h : AllIngested source docs) : AllGrown docs := by
  intro did doc hget
  obtain ⟨publicKeyMultibase, hdid, _, hingested⟩ := h did doc hget
  exact ⟨publicKeyMultibase, hdid, hingested.keeps (.new publicKeyMultibase)
    fun _ _ hgrown _ _ haccepts _ ↦ hgrown.record haccepts⟩

theorem AllIngested.insert (h : AllIngested source docs)
    (hdoc : ∃ publicKeyMultibase, deriveDid publicKeyMultibase = did ∧
      Document.genesis publicKeyMultibase ∈ source ∧
      IngestedWhile (fun _ _ ↦ True) source publicKeyMultibase doc) :
    AllIngested source (docs.insert did doc) := by
  intro other held hget
  rw [OrderedMaps.getElem?_insert] at hget
  split_ifs at hget with heq
  · rw [← heq, ← Option.some.inj hget]
    exact hdoc
  · exact h other held hget

/-- A creation adds a document that was ingested. -/
theorem AllIngested.createDid [StateDigests] (h : AllIngested source docs) {publicKeyMultibase : String}
    (hgenesis : Document.genesis publicKeyMultibase ∈ source) :
    AllIngested source (DidCrdt.createDid docs publicKeyMultibase).1 :=
  h.insert ⟨publicKeyMultibase, rfl, hgenesis, .new⟩

/-- A submission is verified ingestion. -/
theorem AllIngested.submitDelta (h : AllIngested source docs) (didStr : String) {delta : SignedDelta}
    (hdelta : delta ∈ source) : AllIngested source (DidCrdt.submitDelta docs didStr delta).1 := by
  rcases submitDelta_fst docs didStr delta with ⟨hsame, _⟩ | ⟨doc, hget, _, hsig, hmerged, _⟩
  · rwa [hsame]
  obtain ⟨publicKeyMultibase, hdid, hgenesis, hingested⟩ := h delta.did doc hget
  rw [hmerged]
  refine h.insert ⟨publicKeyMultibase, hdid, hgenesis, ?_⟩
  rcases Document.merge_fst_eq doc delta with ⟨haccepts, heq⟩ | ⟨_, heq⟩
  · rw [heq]
    have hrun : Verifies source doc [delta] := ⟨hdelta, haccepts, hsig, trivial⟩
    exact hingested.recordAll hrun
  · rwa [heq]

/-- Assumes: the payload is carried by an honest store. The key of its creation delta is one of the
source. -/
theorem HasCreation.genesis_mem {deltas : List SignedDelta} {publicKeyMultibase : String}
    (h : HasCreation deltas publicKeyMultibase) (hfree : CollisionFree source)
    (hpeers : AllIngested source peers) (hcarried : CarriedBy source peers (.deltas did deltas)) :
    Document.genesis publicKeyMultibase ∈ source := by
  obtain ⟨d, hd, hparents, ⟨id, suite, relationships, hop⟩, _⟩ := h
  obtain ⟨hsource, peer, hget, hmem⟩ := hcarried did deltas rfl d hd
  obtain ⟨key, _, hgenesis, hingested⟩ := hpeers did peer hget
  have hpeer := hingested.coherent hfree hgenesis
  obtain ⟨e, he, hkey⟩ := List.mem_map.mp hmem
  -- the peer holds the payload of the delta, which has no parents, as its creation delta
  have hnone := (hfree.parents_eq (hpeer.sub he) hsource hkey).trans hparents
  have hroot := hpeer.history.eq_root he hnone
  have hops := hfree.op_eq (hpeer.sub he) hsource hkey
  rw [hroot, hop] at hops
  rwa [← (DeltaOp.addVerificationMethod.inj hops).2.1]

/-- A payload of an honest store is verified ingestion. -/
theorem AllIngested.mergeInbound (h : AllIngested source docs) (hfree : CollisionFree source)
    (hpeers : AllIngested source peers) (hcarried : CarriedBy source peers msg) :
    AllIngested source (DidCrdt.mergeInbound docs msg policy).1 := by
  rcases mergeInbound_cases docs msg policy with ⟨hsame, _⟩ | ⟨did, deltas, rfl, hmerged⟩
  · rwa [hsame]
  have hsource : members deltas ⊆ source := fun d hd ↦ (hcarried did deltas rfl d hd).1
  rcases hmerged with ⟨doc, hget, heq⟩ | ⟨_, _, publicKeyMultibase, hdid, hcreation, heq⟩
  · obtain ⟨publicKeyMultibase, hdid, hgenesis, hingested⟩ := h did doc hget
    obtain ⟨run, hspec⟩ := mergeBatch_spec doc deltas
    rw [heq, hspec.reaches]
    exact h.insert ⟨publicKeyMultibase, hdid, hgenesis,
      hingested.recordAll (hspec.verifies.mono hsource)⟩
  · obtain ⟨run, hspec⟩ := mergeBatch_spec (Document.new publicKeyMultibase).1
      (deltas.filter fun d ↦ !d.parents.isEmpty)
    have hgenesis := hcreation.genesis_mem hfree hpeers hcarried
    have hrun := hspec.verifies.mono fun d hd ↦ hsource (List.mem_of_mem_filter hd)
    rw [heq, hspec.reaches]
    exact h.insert ⟨publicKeyMultibase, hdid, hgenesis, IngestedWhile.new.recordAll hrun⟩

/-- What is held after a payload was held before or is in the payload. -/
theorem storedHashes_mergeInbound_sub {hash : DeltaHash}
    (hhash : hash ∈ storedHashes (mergeInbound docs msg policy).1 did) :
    hash ∈ storedHashes docs did ∨
      ∃ deltas, msg = .deltas did deltas ∧ hash ∈ deltas.map SignedDelta.contentHash := by
  rcases mergeInbound_cases docs msg policy with ⟨hsame, _⟩ | ⟨other, deltas, rfl, hmerged⟩
  · rw [hsame] at hhash
    exact Or.inl hhash
  obtain ⟨held, hheld, hmem⟩ := hhash
  rcases hmerged with ⟨doc, hget, heq⟩ | ⟨_, _, publicKeyMultibase, _, hcreation, heq⟩
  · rw [heq, OrderedMaps.getElem?_insert] at hheld
    split_ifs at hheld with hother
    · subst hother
      obtain ⟨run, hspec⟩ := mergeBatch_spec doc deltas
      rw [← Option.some.inj hheld, hspec.reaches, mem_logHashes_recordAll] at hmem
      rcases hmem with hmem | hmem
      · exact Or.inl ⟨doc, hget, hmem⟩
      · obtain ⟨d, hd, rfl⟩ := List.mem_map.mp hmem
        exact Or.inr ⟨deltas, rfl, List.mem_map_of_mem (hspec.verifies.mem_source d hd)⟩
    · exact Or.inl ⟨held, hheld, hmem⟩
  · rw [heq, OrderedMaps.getElem?_insert] at hheld
    split_ifs at hheld with hother
    · subst hother
      obtain ⟨run, hspec⟩ := mergeBatch_spec (Document.new publicKeyMultibase).1
        (deltas.filter fun d ↦ !d.parents.isEmpty)
      rw [← Option.some.inj hheld, hspec.reaches, mem_logHashes_recordAll] at hmem
      refine Or.inr ⟨deltas, rfl, ?_⟩
      rcases hmem with hmem | hmem
      · obtain ⟨d, hd, _, _, hkey⟩ := hcreation
        rw [List.mem_singleton.mp hmem, ← hkey]
        exact List.mem_map_of_mem hd
      · obtain ⟨d, hd, rfl⟩ := List.mem_map.mp hmem
        exact List.mem_map_of_mem (List.mem_of_mem_filter (hspec.verifies.mem_source d hd))
    · exact Or.inl ⟨held, hheld, hmem⟩

end Stores

/-! ### The answer of a peer -/

section Answer

variable {source : Set SignedDelta} {root : SignedDelta} {docs : Docs} {did : Did} {peer : Document}
  {frontier : List DeltaHash} {answer : List SignedDelta} {policy : BootstrapPolicy}

/-- Assumes: the frontier is held. What the peer holds is held or in its answer. -/
theorem held_or_answered (h : AllIngested source docs) (hfree : CollisionFree source)
    (hpeer : Coherent source root peer) (hheld : ∀ p ∈ frontier, p ∈ storedHashes docs did)
    (hanswer : peer.dag.deltasForPeer frontier = .ok answer) {hash : DeltaHash}
    (hhash : hash ∈ peer.logHashes) :
    hash ∈ storedHashes docs did ∨ hash ∈ answer.map SignedDelta.contentHash := by
  obtain ⟨out, hok, _, hcover⟩ := deltasForPeer_of_history hpeer.history frontier
  rw [← hpeer.dag, hanswer] at hok
  obtain rfl := Except.ok.inj hok
  by_cases hpast : Past (members peer.deltaLog) frontier hash
  · have hpast' := hpast.mono hpeer.sub
    obtain ⟨p, hp, _⟩ := hpast
    obtain ⟨doc, hget, _⟩ := hheld p hp
    obtain ⟨key, _, hgenesis, hingested⟩ := h did doc hget
    have hdoc := hingested.coherent hfree hgenesis
    have hparents : ∀ p ∈ frontier, ∃ e ∈ members doc.deltaLog, e.contentHash = p := fun p hp ↦
      (mem_hashes_iff _ p).mp ((mem_storedHashes hget p).mp (hheld p hp))
    have hin := (past_iff_of_closed hfree hdoc.sub hdoc.history.parentClosed hparents).mp hpast'
    exact Or.inl ⟨doc, hget, (mem_hashes_iff _ hash).mpr hin.2⟩
  · exact Or.inr (hcover hash hhash hpast)

/-- A part of a history that has its creation delta starts the document. -/
theorem genesisBootstrap_of_sub {publicKeyMultibase : String}
    (hpeer : Coherent source (Document.genesis publicKeyMultibase) peer)
    (hdid : deriveDid publicKeyMultibase = did) (hsub : ∀ d ∈ answer, d ∈ peer.deltaLog)
    (hnodup : (answer.map SignedDelta.contentHash).Nodup)
    (hgenesis : Document.genesis publicKeyMultibase ∈ answer) :
    genesisBootstrap docs did answer = .ok (docs.insert did
      ((Document.new publicKeyMultibase).1.mergeBatch (answer.filter fun d ↦ !d.parents.isEmpty))) := by
  have hroots : (answer.filter fun d ↦ d.parents.isEmpty) = [Document.genesis publicKeyMultibase] := by
    refine List.perm_singleton.mp ((List.perm_ext_iff_of_nodup (hnodup.of_map.filter _)
      (List.nodup_singleton _)).mpr fun d ↦ ?_)
    rw [List.mem_filter, List.mem_singleton, List.isEmpty_iff]
    constructor
    · rintro ⟨hd, hparents⟩
      exact hpeer.history.eq_root (hsub d hd) hparents
    · rintro rfl
      exact ⟨hgenesis, rfl⟩
  have hop : (Document.genesis publicKeyMultibase).op = Document.genesisOp publicKeyMultibase := rfl
  have hgenesisUniv : Document.genesis publicKeyMultibase ∈ Set.univ := trivial
  have hnew : (Document.new publicKeyMultibase).1.did = did := by
    rw [(Coherent.new publicKeyMultibase hgenesisUniv).did, ← hdid]
    rfl
  unfold genesisBootstrap
  rw [hroots]
  simp only [hop, Document.genesisOp]
  rw [if_neg (by simpa using hnew)]
  exact if_neg (by simp [Document.new])

/-- Assumes: ids are unique, the document is tracked or wanted, and the frontier is held. After the
answer of a peer to the frontier, what the peer holds is held. -/
theorem mergeInbound_covers (h : AllIngested source docs) (hfree : CollisionFree source)
    (hids : UniqueMethodIds source) {publicKeyMultibase : String}
    (hdid : deriveDid publicKeyMultibase = did) (hgenesis : Document.genesis publicKeyMultibase ∈ source)
    (hingested : IngestedWhile (fun _ _ ↦ True) source publicKeyMultibase peer)
    (hopen : docs[did]? ≠ none ∨ policy.wants did = true)
    (hheld : ∀ p ∈ frontier, p ∈ storedHashes docs did)
    (hanswer : peer.dag.deltasForPeer frontier = .ok answer) :
    ∀ hash ∈ peer.logHashes,
      hash ∈ storedHashes (mergeInbound docs (.deltas did answer) policy).1 did := by
  have hpeer := hingested.coherent hfree hgenesis
  have hattested := hingested.attested hfree hgenesis
  have hsub : ∀ d ∈ answer, d ∈ peer.deltaLog := by
    obtain ⟨out, hok, hout, _⟩ := deltasForPeer_of_history hpeer.history frontier
    rw [← hpeer.dag, hanswer] at hok
    rwa [Except.ok.inj hok]
  have hcover (hash : DeltaHash) (hhash : hash ∈ peer.logHashes) :=
    held_or_answered h hfree hpeer hheld hanswer hhash
  cases hget : docs[did]? with
  | some doc =>
    obtain ⟨key, hkey, hgenesis', hingested'⟩ := h did doc hget
    obtain rfl := hids.genesis_eq hfree hgenesis' hgenesis (hkey.trans hdid.symm)
    intro hash hhash
    rw [mergeInbound_of_held hget, storedHashes_insert]
    refine mergeBatch_covers hfree hids (hingested'.coherent hfree hgenesis') hpeer hattested hsub
      (fun hash hhash ↦ ?_) hash hhash
    exact (hcover hash hhash).imp_left (mem_storedHashes hget hash).mp
  | none =>
    have hwants := hopen.resolve_left (fun hne ↦ hne hget)
    have hin : ∀ hash ∈ peer.logHashes, hash ∈ answer.map SignedDelta.contentHash := by
      intro hash hhash
      refine (hcover hash hhash).resolve_left ?_
      rintro ⟨doc, hsome, _⟩
      exact absurd (hget.symm.trans hsome) (by simp)
    have hmem : ∀ d ∈ peer.deltaLog, d ∈ answer := by
      intro d hd
      obtain ⟨e, he, hkey⟩ := List.mem_map.mp (hin _ (List.mem_map_of_mem hd))
      rwa [← List.inj_on_of_nodup_map hpeer.history.nodup (hsub e he) hd hkey]
    have hnodup : (answer.map SignedDelta.contentHash).Nodup :=
      DeltaDag.nodup_collectHeads _ _ _ [] answer List.nodup_nil hanswer
    have hstart : (mergeInbound docs (.deltas did answer) policy).1 = docs.insert did
        ((Document.new publicKeyMultibase).1.mergeBatch (answer.filter fun d ↦ !d.parents.isEmpty)) := by
      simp only [mergeInbound, hget, hwants, Bool.not_true, Bool.false_eq_true, ↓reduceIte,
        genesisBootstrap_of_sub hpeer hdid hsub hnodup (hmem _ hpeer.history.root_mem)]
    intro hash hhash
    rw [hstart, storedHashes_insert]
    refine mergeBatch_covers hfree hids (.new publicKeyMultibase hgenesis) hpeer hattested
      (fun d hd ↦ hsub d (List.mem_of_mem_filter hd)) (fun hash hhash ↦ ?_) hash hhash
    obtain ⟨d, hd, rfl⟩ := List.mem_map.mp hhash
    by_cases hparents : d.parents = []
    · rw [hpeer.history.eq_root hd hparents]
      exact Or.inl (List.mem_singleton_self _)
    · refine Or.inr (List.mem_map_of_mem (List.mem_filter.mpr ⟨hmem d hd, ?_⟩))
      simpa using hparents

end Answer

end

end DidCrdt
