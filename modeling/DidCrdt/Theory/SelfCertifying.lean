import DidCrdt.Theory.StoreHistory

/-!
# Self-certifying stores

A replica that starts empty and only learns documents from its peers holds, under every identifier, a
document whose one root is the creation delta of a key of that identifier: a document is started from
that delta (`genesisBootstrap`), and a delta without parents is never accepted afterwards
(`Accepts.grounded`). The key is recovered from the state by searching for one that the identifier is
derived from, whatever other methods the history adds (`Rooted.genesisPublicKeyMultibase_eq`). A document
is only started while the policy wants it (`mergeInbound_wanted`).
-/

set_option autoImplicit false
set_option relaxedAutoImplicit false

namespace DidCrdt

section

variable [Primitives]

/-! ### Seeds -/

/-- What the identifier of a document created from a key is the digest of. -/
def creationSeed (publicKeyMultibase : String) : HlcTimestamp × DeltaOp × String :=
  (.default, .addVerificationMethod "#key-0" publicKeyMultibase .default defaultRelationships,
    publicKeyMultibase)

/-- Assumes: the digests of creation seeds do not collide. A key is determined by its identifier. -/
theorem deriveDid_injective (hseed : Set.InjOn Primitives.seedDigest (Set.range creationSeed)) :
    Function.Injective deriveDid := by
  intro key key' heq
  have hdigests : Primitives.seedDigest (creationSeed key) =
      Primitives.seedDigest (creationSeed key') :=
    String.append_right_inj _ |>.mp (Did.mk.inj heq)
  exact congrArg (fun seed ↦ seed.2.2) (hseed ⟨key, rfl⟩ ⟨key', rfl⟩ hdigests)

/-! ### Roots -/

/-- A delta without parents is only accepted by an empty document. -/
theorem Accepts.grounded {doc : Document} {d : SignedDelta} (h : Accepts doc d)
    (hnonempty : doc.dag.isEmpty = false) : d.parents ≠ [] := by
  intro hnil
  have hgate := h.causal
  rw [Document.causalGate, verifyCausal_of_nil hnil hnonempty] at hgate
  simp [hnil] at hgate

/-- The document was created from the key and grew by deltas that have parents. -/
def Rooted (publicKeyMultibase : String) (doc : Document) : Prop :=
  ∃ run, doc = (Document.new publicKeyMultibase).1.recordAll run ∧ ∀ d ∈ run, d.parents ≠ []

/-- The document was created from a key of the identifier and grew by deltas that have parents. -/
def RootedFor (did : Did) (doc : Document) : Prop :=
  ∃ publicKeyMultibase, deriveDid publicKeyMultibase = did ∧ Rooted publicKeyMultibase doc

namespace Rooted

variable {publicKeyMultibase : String} {source : Set SignedDelta} {doc : Document}

theorem new (publicKeyMultibase : String) :
    Rooted publicKeyMultibase (Document.new publicKeyMultibase).1 :=
  ⟨[], rfl, fun _ hd ↦ absurd hd List.not_mem_nil⟩

theorem dag_eq (h : Rooted publicKeyMultibase doc) : doc.dag = .rebuild doc.deltaLog := by
  obtain ⟨run, rfl, _⟩ := h
  exact dag_recordAll run _ rfl

/-- The log starts with the creation delta. -/
theorem deltaLog_eq (h : Rooted publicKeyMultibase doc) :
    ∃ run, doc.deltaLog = Document.genesis publicKeyMultibase :: run ∧ ∀ d ∈ run, d.parents ≠ [] := by
  obtain ⟨run, rfl, hgrounded⟩ := h
  exact ⟨run, deltaLog_recordAll run _, hgrounded⟩

theorem isEmpty_dag (h : Rooted publicKeyMultibase doc) : doc.dag.isEmpty = false := by
  obtain ⟨run, hlog, _⟩ := h.deltaLog_eq
  have hheld : doc.dag.contains (Document.genesis publicKeyMultibase).contentHash = true := by
    rw [h.dag_eq, DeltaDag.contains_rebuild, hlog]
    exact ⟨_, List.mem_cons_self, rfl⟩
  exact DeltaDag.isEmpty_eq_false_of_contains _ hheld

theorem record (h : Rooted publicKeyMultibase doc) {d : SignedDelta} (haccepts : Accepts doc d) :
    Rooted publicKeyMultibase (doc.record d) := by
  have hgrounded := haccepts.grounded h.isEmpty_dag
  obtain ⟨run, rfl, hrun⟩ := h
  refine ⟨run ++ [d], by rw [recordAll_append]; rfl, fun e he ↦ ?_⟩
  rcases List.mem_append.mp he with he | he
  · exact hrun e he
  · rwa [List.mem_singleton.mp he]

theorem recordAll {run : List SignedDelta} (h : Rooted publicKeyMultibase doc)
    (hrun : Verifies source doc run) : Rooted publicKeyMultibase (doc.recordAll run) := by
  induction run generalizing doc with
  | nil => exact h
  | cons d run ih => exact ih (h.record hrun.2.1) hrun.2.2.2

theorem mergeBatch (h : Rooted publicKeyMultibase doc) (batch : List SignedDelta) :
    Rooted publicKeyMultibase (doc.mergeBatch batch) := by
  obtain ⟨run, hspec⟩ := mergeBatch_spec doc batch
  rw [hspec.reaches]
  exact h.recordAll hspec.verifies

/-- The creation delta is the one delta of the log without parents. -/
theorem roots_eq (h : Rooted publicKeyMultibase doc) :
    doc.deltaLog.filter (fun d ↦ d.parents.isEmpty) = [(Document.new publicKeyMultibase).2] := by
  obtain ⟨run, hlog, hgrounded⟩ := h.deltaLog_eq
  have hnone : run.filter (fun d ↦ d.parents.isEmpty) = [] := by
    rw [List.filter_eq_nil_iff]
    intro d hd
    simpa using hgrounded d hd
  rw [hlog, List.filter_cons, hnone]
  rfl

/-- The creation delta is the one delta of the DAG without parents. -/
theorem mem_values_root_iff (h : Rooted publicKeyMultibase doc) (d : SignedDelta) :
    d ∈ doc.dag.values ∧ d.parents = [] ↔ d = (Document.new publicKeyMultibase).2 := by
  have hroots := h.roots_eq
  obtain ⟨run, hlog, _⟩ := h.deltaLog_eq
  rw [h.dag_eq, DeltaDag.mem_values_iff]
  constructor
  · rintro ⟨⟨hash, hget⟩, hnil⟩
    rw [DeltaDag.get_rebuild] at hget
    have hmem : d ∈ doc.deltaLog.filter fun d ↦ d.parents.isEmpty :=
      List.mem_filter.mpr ⟨List.mem_of_find?_eq_some hget, by simp [hnil]⟩
    rw [hroots] at hmem
    exact List.mem_singleton.mp hmem
  · rintro rfl
    refine ⟨⟨(Document.genesis publicKeyMultibase).contentHash, ?_⟩, rfl⟩
    rw [DeltaDag.get_rebuild, hlog, List.find?_cons_of_pos (by simp)]
    rfl

theorem did_eq (h : Rooted publicKeyMultibase doc) : doc.did = deriveDid publicKeyMultibase := by
  obtain ⟨run, rfl, _⟩ := h
  exact (did_recordAll run _).trans (did_apply _ _ _ _)

/-! ### The key of the identifier -/

/-- The method of the creation delta stays. -/
theorem mem_verificationMethods (h : Rooted publicKeyMultibase doc) :
    ⟨s!"{(deriveDid publicKeyMultibase).toString}#key-0", publicKeyMultibase, .default,
      defaultRelationships⟩ ∈ doc.verificationMethods := by
  obtain ⟨run, rfl, _⟩ := h
  have hstays : ∀ (run : List SignedDelta) (doc : Document) (entry : VerificationMethodEntry),
      entry ∈ doc.verificationMethods → entry ∈ (doc.recordAll run).verificationMethods := by
    intro run
    induction run with
    | nil => exact fun _ _ hentry ↦ hentry
    | cons d run ih =>
      intro doc entry hentry
      refine ih (doc.record d) entry ?_
      exact (mem_verificationMethods_apply doc.toCrdtState d.op d.timestamp _ entry).mpr (Or.inl hentry)
  refine hstays run _ _ ((mem_verificationMethods_apply _ _ _ _ _).mpr (Or.inr ?_))
  rfl

/-- Assumes: the digests of creation seeds do not collide. The search for the key of the identifier
finds the key of the creation delta. -/
theorem genesisPublicKeyMultibase_eq (h : Rooted publicKeyMultibase doc)
    (hseed : Set.InjOn Primitives.seedDigest (Set.range creationSeed)) :
    doc.genesisPublicKeyMultibase = some publicKeyMultibase := by
  have hentry := (GSet.mem_entries _ _).mpr h.mem_verificationMethods
  unfold CrdtState.genesisPublicKeyMultibase
  cases hfind : (GSet.entries doc.verificationMethods).find? fun e ↦
      deriveDid e.publicKeyMultibase = doc.did with
  | none =>
    have hnone := List.find?_eq_none.mp hfind _ hentry
    simp [h.did_eq] at hnone
  | some found =>
    have hfound : deriveDid found.publicKeyMultibase = doc.did := by
      simpa using List.find?_some hfind
    exact congrArg some (deriveDid_injective hseed (hfound.trans h.did_eq))

end Rooted

/-! ### Stores that learn from their peers -/

/-- What a replica that learns from its peers goes through: a message is merged, or a request for a
document is registered or withdrawn. -/
inductive InboundEvent
  | receive (msg : SyncMessage)
  | addWanted (did : Did)
  | removeWanted (did : Did)

/-- The documents and the policy of a replica. -/
structure Inbox where
  docs : Docs
  policy : BootstrapPolicy

namespace Inbox

/-- The replica after an event. -/
def step (inbox : Inbox) : InboundEvent → Inbox
  | .receive msg => { inbox with docs := (mergeInbound inbox.docs msg inbox.policy).1 }
  | .addWanted did => { inbox with policy := inbox.policy.addWanted did }
  | .removeWanted did => { inbox with policy := inbox.policy.removeWanted did }

/-- The replica after some events. -/
def run (inbox : Inbox) (events : List InboundEvent) : Inbox := events.foldl step inbox

end Inbox

/-- Every document of the store grew from the creation delta of a key of its identifier. -/
def AllRooted (docs : Docs) : Prop :=
  ∀ (did : Did) (doc : Document), docs[did]? = some doc → RootedFor did doc

theorem AllRooted.insert {docs : Docs} {did : Did} {doc : Document} (h : AllRooted docs)
    (hdoc : RootedFor did doc) : AllRooted (docs.insert did doc) := by
  intro other held hget
  rw [OrderedMaps.getElem?_insert] at hget
  split_ifs at hget with heq
  · rw [← heq, ← Option.some.inj hget]
    exact hdoc
  · exact h other held hget

/-- A delivered payload keeps the roots. -/
theorem AllRooted.mergeInbound {docs : Docs} (h : AllRooted docs) (msg : SyncMessage)
    (policy : BootstrapPolicy) : AllRooted (DidCrdt.mergeInbound docs msg policy).1 := by
  rcases mergeInbound_cases docs msg policy with ⟨hsame, _⟩ | ⟨did, deltas, rfl, hmerged⟩
  · rwa [hsame]
  rcases hmerged with ⟨doc, hget, heq⟩ | ⟨_, _, publicKeyMultibase, hdid, _, heq⟩
  · obtain ⟨publicKeyMultibase, hdid, hrooted⟩ := h did doc hget
    rw [heq]
    exact h.insert ⟨publicKeyMultibase, hdid, hrooted.mergeBatch deltas⟩
  · rw [heq]
    exact h.insert ⟨publicKeyMultibase, hdid, (Rooted.new publicKeyMultibase).mergeBatch _⟩

/-- A document that a payload starts is one that the policy wants. -/
theorem mergeInbound_wanted {docs : Docs} {msg : SyncMessage} {policy : BootstrapPolicy} {did : Did}
    (habsent : docs[did]? = none)
    (hpresent : (mergeInbound docs msg policy).1[did]? ≠ none) : policy.wants did = true := by
  rcases mergeInbound_cases docs msg policy with ⟨hsame, _⟩ | ⟨other, deltas, rfl, hmerged⟩
  · rw [hsame] at hpresent
    exact absurd habsent hpresent
  have hother : other = did := by
    by_contra hne
    have hkept : (mergeInbound docs (.deltas other deltas) policy).1[did]? = docs[did]? := by
      rcases hmerged with ⟨doc, _, heq⟩ | ⟨_, _, _, _, _, heq⟩ <;>
        rw [heq, OrderedMaps.getElem?_insert, if_neg hne]
    exact hpresent (hkept.trans habsent)
  subst hother
  rcases hmerged with ⟨doc, hget, _⟩ | ⟨_, hwants, _⟩
  · exact absurd (hget.symm.trans habsent) (by simp)
  · exact hwants

/-- Events keep the roots of a store. -/
theorem AllRooted.run (events : List InboundEvent) : ∀ inbox : Inbox, AllRooted inbox.docs →
    AllRooted (inbox.run events).docs := by
  induction events with
  | nil => exact fun inbox h ↦ h
  | cons event events ih =>
    intro inbox h
    refine ih (inbox.step event) ?_
    cases event with
    | receive msg => exact h.mergeInbound msg inbox.policy
    | addWanted did => exact h
    | removeWanted did => exact h

/-- Assumes: the digests of creation seeds do not collide. A store that starts empty, after any messages
and any changes of what is wanted: every document is stored under its identifier, its one delta without
parents is the creation delta of a key of the identifier, and that key is recovered from its state; and
a document that a message started was wanted at that moment. -/
theorem store_selfCertifying
    (hseed : Set.InjOn Primitives.seedDigest (Set.range creationSeed)) (policy : BootstrapPolicy)
    (events : List InboundEvent) :
    (∀ did doc, (Inbox.run ⟨∅, policy⟩ events).docs[did]? = some doc →
      doc.did = did ∧ ∃ publicKeyMultibase, deriveDid publicKeyMultibase = did ∧
        doc.deltaLog.filter (fun d ↦ d.parents.isEmpty) = [(Document.new publicKeyMultibase).2] ∧
        (∀ d, d ∈ doc.dag.values ∧ d.parents = [] ↔ d = (Document.new publicKeyMultibase).2) ∧
        doc.genesisPublicKeyMultibase = some publicKeyMultibase) ∧
    ∀ before msg after, events = before ++ .receive msg :: after → ∀ did,
      (Inbox.run ⟨∅, policy⟩ before).docs[did]? = none →
      (Inbox.run ⟨∅, policy⟩ (before ++ [.receive msg])).docs[did]? ≠ none →
      (Inbox.run ⟨∅, policy⟩ before).policy.wants did = true := by
  refine ⟨fun did doc hget ↦ ?_, fun before msg after _ did habsent hpresent ↦ ?_⟩
  · have hempty : AllRooted (∅ : Docs) := fun did doc hget ↦ absurd hget (by simp)
    obtain ⟨publicKeyMultibase, hdid, hrooted⟩ := AllRooted.run events ⟨∅, policy⟩ hempty did doc hget
    exact ⟨hrooted.did_eq.trans hdid, publicKeyMultibase, hdid, hrooted.roots_eq,
      hrooted.mem_values_root_iff, hrooted.genesisPublicKeyMultibase_eq hseed⟩
  · rw [Inbox.run, List.foldl_append] at hpresent
    exact mergeInbound_wanted habsent hpresent

end

section Readable

attribute [local instance] Primitives.readable

/-- A replica asks for the document of the key `u7` and gets it with a second method under the id of the
creation key. -/
theorem store_selfCertifying_shadowed :
    let d := SignedDelta.readable "did:crdt:u7" "did:crdt:u7#key-0" "u7" 1 55
      (.addVerificationMethod "did:crdt:u7#key-0" "uA" .default defaultRelationships) ["0.0.0"]
    let inbox := Inbox.run ⟨∅, .solicitedOnly⟩
      [.addWanted (deriveDid "u7"), .receive (.deltas (deriveDid "u7") [d, Document.genesis "u7"])]
    ∃ doc, inbox.docs[deriveDid "u7"]? = some doc ∧ doc.logHashes.length = 2 ∧
      doc.genesisPublicKeyMultibase = some "u7" := by
  intro d inbox
  have hseed : Set.InjOn Primitives.seedDigest (Set.range creationSeed) := by
    rintro _ ⟨key, rfl⟩ _ ⟨key', rfl⟩ heq
    exact congrArg creationSeed heq
  have hlength : inbox.docs[deriveDid "u7"]?.map (fun doc ↦ doc.logHashes.length) = some 2 := by
    decide
  obtain ⟨doc, hget, htwo⟩ := Option.map_eq_some_iff.mp hlength
  obtain ⟨_, key, hdid, _, _, hkey⟩ :=
    (store_selfCertifying hseed .solicitedOnly _).1 (deriveDid "u7") doc hget
  rw [deriveDid_injective hseed hdid] at hkey
  exact ⟨doc, hget, htwo, hkey⟩

end Readable

end DidCrdt
