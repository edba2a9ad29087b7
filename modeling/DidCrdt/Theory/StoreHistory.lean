import DidCrdt.Service.Handlers
import DidCrdt.Theory.Batch

/-!
# The history of a store

Three paths write to a store: the creation of a document, the submission of a delta, and the merge of
a delivered payload. The last two extend documents (`StoreEvent.keeps_iff`). A creation stores a fresh
document under an identifier that is a function of the key, so it keeps what the store holds exactly
when nothing beyond the creation delta was held there (`CreatesFresh`): a run of events never loses
history when every creation of it does so, and only then (`store_keepsHistory_iff`).
-/

set_option autoImplicit false
set_option relaxedAutoImplicit false

namespace DidCrdt

/-! ### Extensions of documents -/

section

variable [Primitives]

/-- The document holds the deltas and the permanent facts of the other. -/
structure Document.Extends (doc doc' : Document) : Prop where
  hashes : ∀ hash ∈ doc.logHashes, hash ∈ doc'.logHashes
  deactivated : doc.isDeactivated = true → doc'.isDeactivated = true
  revoked : ∀ c, doc.isRevoked c = true → doc'.isRevoked c = true
  vmRevoked : ∀ k, doc.isVmRevoked k = true → doc'.isVmRevoked k = true

namespace Document.Extends

variable {doc next last : Document}

theorem refl (doc : Document) : doc.Extends doc := ⟨fun _ ↦ id, id, fun _ ↦ id, fun _ ↦ id⟩

theorem trans (h : doc.Extends next) (h' : next.Extends last) : doc.Extends last where
  hashes hash hhash := h'.hashes hash (h.hashes hash hhash)
  deactivated hset := h'.deactivated (h.deactivated hset)
  revoked c hset := h'.revoked c (h.revoked c hset)
  vmRevoked k hset := h'.vmRevoked k (h.vmRevoked k hset)

/-- Recording a delta extends the document. -/
theorem record (doc : Document) (d : SignedDelta) : doc.Extends (doc.record d) where
  hashes hash hhash := by
    unfold Document.logHashes at hhash ⊢
    rw [Document.deltaLog_record, List.map_append]
    exact List.mem_append_left _ hhash
  deactivated hset := (deactivated_apply doc.toCrdtState d.op d.timestamp _).mpr (Or.inl hset)
  revoked c hset := by
    unfold Document.isRevoked at hset ⊢
    rw [Std.ExtTreeSet.contains_iff_mem] at hset ⊢
    exact (mem_revocations_apply doc.toCrdtState d.op d.timestamp _ c).mpr (Or.inl hset)
  vmRevoked k hset := by
    unfold Document.isVmRevoked at hset ⊢
    rw [Std.ExtTreeSet.contains_iff_mem] at hset ⊢
    exact (mem_revokedVerificationMethods_apply doc.toCrdtState d.op d.timestamp _ k).mpr
      (Or.inl hset)

theorem recordAll (run : List SignedDelta) : ∀ doc : Document, doc.Extends (doc.recordAll run) := by
  induction run with
  | nil => exact fun doc ↦ refl doc
  | cons d run ih => exact fun doc ↦ (record doc d).trans (ih (doc.record d))

end Document.Extends

/-! ### Documents that grew from a key -/

/-- The document was created from the key and grew by deltas other than the creation delta. -/
def GrownFrom (publicKeyMultibase : String) (doc : Document) : Prop :=
  ∃ run, doc = (Document.new publicKeyMultibase).1.recordAll run ∧
    ∀ d ∈ run, d.contentHash ≠ (Document.genesis publicKeyMultibase).contentHash

section Grown

variable {publicKeyMultibase : String} {source : Set SignedDelta} {doc : Document}

theorem GrownFrom.new (publicKeyMultibase : String) :
    GrownFrom publicKeyMultibase (Document.new publicKeyMultibase).1 :=
  ⟨[], rfl, fun _ hd ↦ absurd hd List.not_mem_nil⟩

theorem dag_recordAll (run : List SignedDelta) : ∀ doc : Document,
    doc.dag = .rebuild doc.deltaLog → (doc.recordAll run).dag = .rebuild (doc.recordAll run).deltaLog := by
  induction run with
  | nil => exact fun doc h ↦ h
  | cons d run ih =>
    intro doc h
    refine ih (doc.record d) ?_
    rw [Document.dag_record, Document.deltaLog_record, DeltaDag.rebuild_concat, h]

theorem did_recordAll (run : List SignedDelta) : ∀ doc : Document,
    (doc.recordAll run).did = doc.did := by
  induction run with
  | nil => exact fun doc ↦ rfl
  | cons d run ih => exact fun doc ↦ (ih (doc.record d)).trans (Document.did_record doc d)

/-! A fresh document has no permanent facts. -/

theorem isDeactivated_new (publicKeyMultibase : String) :
    (Document.new publicKeyMultibase).1.isDeactivated = false := rfl

theorem isRevoked_new (publicKeyMultibase c : String) :
    (Document.new publicKeyMultibase).1.isRevoked c = false := by
  change (∅ : GSet String).contains c = false
  exact Std.ExtTreeSet.contains_empty

theorem isVmRevoked_new (publicKeyMultibase k : String) :
    (Document.new publicKeyMultibase).1.isVmRevoked k = false := by
  change (∅ : GSet String).contains k = false
  exact Std.ExtTreeSet.contains_empty

/-- A document that grew from a key holds the creation delta. -/
theorem GrownFrom.contains_genesis (h : GrownFrom publicKeyMultibase doc) :
    doc.dag.contains (Document.genesis publicKeyMultibase).contentHash = true := by
  obtain ⟨run, rfl, _⟩ := h
  rw [dag_recordAll run _ rfl, DeltaDag.contains_rebuild]
  refine ⟨Document.genesis publicKeyMultibase, ?_, rfl⟩
  rw [deltaLog_recordAll]
  exact List.mem_append_left _ (List.mem_singleton_self _)

/-- An accepted delta is not the creation delta. -/
theorem GrownFrom.record (h : GrownFrom publicKeyMultibase doc) {d : SignedDelta}
    (haccepts : Accepts doc d) : GrownFrom publicKeyMultibase (doc.record d) := by
  have hheld := h.contains_genesis
  obtain ⟨run, heq, hnew⟩ := h
  refine ⟨run ++ [d], ?_, fun e he ↦ ?_⟩
  · rw [recordAll_append, ← heq]
    rfl
  · rcases List.mem_append.mp he with he | he
    · exact hnew e he
    · rw [List.mem_singleton.mp he]
      intro hsame
      rw [← hsame, haccepts.new] at hheld
      exact absurd hheld (by simp)

theorem GrownFrom.recordAll {run : List SignedDelta} (h : GrownFrom publicKeyMultibase doc)
    (hrun : Verifies source doc run) : GrownFrom publicKeyMultibase (doc.recordAll run) := by
  induction run generalizing doc with
  | nil => exact h
  | cons d run ih => exact ih (h.record hrun.2.1) hrun.2.2.2

/-- A document that grew from a key and holds nothing beyond a creation delta is fresh. -/
theorem GrownFrom.eq_new (h : GrownFrom publicKeyMultibase doc) {hash : DeltaHash}
    (honly : ∀ held ∈ doc.logHashes, held = hash) :
    doc = (Document.new publicKeyMultibase).1 := by
  obtain ⟨run, rfl, hnew⟩ := h
  have hgenesis : (Document.genesis publicKeyMultibase).contentHash = hash :=
    honly _ (held_recordAll (List.mem_singleton_self _))
  cases run with
  | nil => rfl
  | cons d run =>
    have hd := honly d.contentHash ((mem_logHashes_recordAll _).mpr (Or.inr List.mem_cons_self))
    exact absurd (hd.trans hgenesis.symm) (hnew d List.mem_cons_self)

end Grown

/-! ### Stores -/

/-- Every document of the store is in the other, extended. -/
def Keeps (docs docs' : Docs) : Prop :=
  ∀ (did : Did) (doc : Document), docs[did]? = some doc →
    ∃ doc', docs'[did]? = some doc' ∧ doc.Extends doc'

/-- The document grew from a key of the identifier. -/
def GrownFor (did : Did) (doc : Document) : Prop :=
  ∃ publicKeyMultibase, deriveDid publicKeyMultibase = did ∧ GrownFrom publicKeyMultibase doc

theorem GrownFor.did_eq {did : Did} {doc : Document} (h : GrownFor did doc) : doc.did = did := by
  obtain ⟨publicKeyMultibase, rfl, run, rfl, _⟩ := h
  exact did_recordAll run _

theorem GrownFor.contains_iff {did : Did} {doc : Document} (h : GrownFor did doc) (hash : DeltaHash) :
    doc.dag.contains hash = true ↔ hash ∈ doc.logHashes := by
  obtain ⟨publicKeyMultibase, _, run, rfl, _⟩ := h
  rw [dag_recordAll run _ rfl, DeltaDag.contains_rebuild, Document.logHashes, List.mem_map]

/-- Every document of the store grew from a key of its identifier. -/
def AllGrown (docs : Docs) : Prop :=
  ∀ (did : Did) (doc : Document), docs[did]? = some doc → GrownFor did doc

section Stores

variable {docs docs' docs'' : Docs} {did : Did} {doc : Document}

theorem Keeps.refl (docs : Docs) : Keeps docs docs := fun _ doc hget ↦ ⟨doc, hget, .refl doc⟩

theorem Keeps.trans (h : Keeps docs docs') (h' : Keeps docs' docs'') : Keeps docs docs'' := by
  intro did doc hget
  obtain ⟨next, hnext, hextends⟩ := h did doc hget
  obtain ⟨last, hlast, hextends'⟩ := h' did next hnext
  exact ⟨last, hlast, hextends.trans hextends'⟩

/-- Storing a document that extends what was stored. -/
theorem Keeps.insert (hextends : ∀ held, docs[did]? = some held → held.Extends doc) :
    Keeps docs (docs.insert did doc) := by
  intro other held hget
  rw [OrderedMaps.getElem?_insert]
  split_ifs with heq
  · subst heq
    exact ⟨doc, rfl, hextends held hget⟩
  · exact ⟨held, hget, .refl held⟩

theorem AllGrown.insert (h : AllGrown docs) {publicKeyMultibase : String}
    (hdid : deriveDid publicKeyMultibase = did) (hgrown : GrownFrom publicKeyMultibase doc) :
    AllGrown (docs.insert did doc) := by
  intro other held hget
  rw [OrderedMaps.getElem?_insert] at hget
  split_ifs at hget with heq
  · exact ⟨publicKeyMultibase, hdid.trans heq, Option.some.inj hget ▸ hgrown⟩
  · exact h other held hget

end Stores

/-! ### The write paths -/

section Paths

variable {docs : Docs}

/-- A submission keeps the store, and its documents grew. -/
theorem submitDelta_keeps (h : AllGrown docs) (didStr : String) (delta : SignedDelta) :
    Keeps docs (submitDelta docs didStr delta).1 ∧ AllGrown (submitDelta docs didStr delta).1 := by
  rcases submitDelta_fst docs didStr delta with ⟨hsame, _⟩ | ⟨doc, hget, _, _, hmerged, _⟩
  · rw [hsame]
    exact ⟨.refl docs, h⟩
  obtain ⟨publicKeyMultibase, hdid, hgrown⟩ := h delta.did doc hget
  rw [hmerged]
  rcases Document.merge_fst_eq doc delta with ⟨haccepts, heq⟩ | ⟨_, heq⟩
  · rw [heq]
    refine ⟨.insert fun held hheld ↦ ?_, h.insert hdid (hgrown.record haccepts)⟩
    rw [← Option.some.inj (hget.symm.trans hheld)]
    exact .record doc delta
  · rw [heq]
    refine ⟨.insert fun held hheld ↦ ?_, h.insert hdid hgrown⟩
    rw [← Option.some.inj (hget.symm.trans hheld)]
    exact .refl doc

/-- A delivered payload keeps the store, and its documents grew. -/
theorem mergeInbound_keeps (h : AllGrown docs) (msg : SyncMessage) (policy : BootstrapPolicy) :
    Keeps docs (mergeInbound docs msg policy).1 ∧ AllGrown (mergeInbound docs msg policy).1 := by
  rcases mergeInbound_cases docs msg policy with ⟨hsame, _⟩ | ⟨did, deltas, _, hmerged⟩
  · rw [hsame]
    exact ⟨.refl docs, h⟩
  rcases hmerged with ⟨doc, hget, hmerged⟩ | ⟨hget, _, publicKeyMultibase, hdid, _, hmerged⟩
  · obtain ⟨publicKeyMultibase, hdid, hgrown⟩ := h did doc hget
    obtain ⟨run, hspec⟩ := mergeBatch_spec doc deltas
    rw [hmerged, hspec.reaches]
    refine ⟨.insert fun held hheld ↦ ?_, h.insert hdid (hgrown.recordAll hspec.verifies)⟩
    rw [← Option.some.inj (hget.symm.trans hheld)]
    exact .recordAll run doc
  · obtain ⟨run, hspec⟩ := mergeBatch_spec (Document.new publicKeyMultibase).1
      (deltas.filter fun d ↦ !d.parents.isEmpty)
    rw [hmerged, hspec.reaches]
    refine ⟨.insert fun held hheld ↦ ?_, h.insert hdid ((GrownFrom.new _).recordAll hspec.verifies)⟩
    exact absurd (hget.symm.trans hheld) (by simp)

end Paths

end

/-! ### Events -/

/-- A write to a store. -/
inductive StoreEvent
  | createDid (publicKeyMultibase : String)
  | submitDelta (didStr : String) (delta : SignedDelta)
  | mergeInbound (msg : SyncMessage) (policy : BootstrapPolicy)

section

variable [Primitives] [StateDigests]

/-- The store after a write. -/
def StoreEvent.apply (docs : Docs) : StoreEvent → Docs
  | .createDid publicKeyMultibase => (DidCrdt.createDid docs publicKeyMultibase).1
  | .submitDelta didStr delta => (DidCrdt.submitDelta docs didStr delta).1
  | .mergeInbound msg policy => (DidCrdt.mergeInbound docs msg policy).1

/-- The store after some writes. -/
def runEvents (docs : Docs) (events : List StoreEvent) : Docs :=
  events.foldl StoreEvent.apply docs

/-- A creation names a document that is not stored, or of which nothing but the creation delta is
held. -/
def CreatesFresh (docs : Docs) : StoreEvent → Prop
  | .createDid publicKeyMultibase =>
    ∀ doc, docs[deriveDid publicKeyMultibase]? = some doc →
      ∀ hash ∈ doc.logHashes, hash = (Document.genesis publicKeyMultibase).contentHash
  | _ => True

section Steps

variable {docs : Docs} {event : StoreEvent}

theorem StoreEvent.allGrown (h : AllGrown docs) (event : StoreEvent) :
    AllGrown (event.apply docs) := by
  cases event with
  | createDid publicKeyMultibase => exact h.insert rfl (.new publicKeyMultibase)
  | submitDelta didStr delta => exact (submitDelta_keeps h didStr delta).2
  | mergeInbound msg policy => exact (mergeInbound_keeps h msg policy).2

theorem AllGrown.runEvents (h : AllGrown docs) (events : List StoreEvent) :
    AllGrown (runEvents docs events) := by
  induction events generalizing docs with
  | nil => exact h
  | cons event events ih => exact ih (event.allGrown h)

/-- A write keeps the store exactly when, if it is a creation, it is fresh. -/
theorem StoreEvent.keeps_iff (h : AllGrown docs) (event : StoreEvent) :
    Keeps docs (event.apply docs) ↔ CreatesFresh docs event := by
  cases event with
  | submitDelta didStr delta => exact iff_of_true (submitDelta_keeps h didStr delta).1 trivial
  | mergeInbound msg policy => exact iff_of_true (mergeInbound_keeps h msg policy).1 trivial
  | createDid publicKeyMultibase =>
    constructor
    · intro hkeeps doc hget hash hhash
      obtain ⟨doc', hget', hextends⟩ := hkeeps _ doc hget
      have hnew : doc' = (Document.new publicKeyMultibase).1 :=
        Option.some.inj (hget'.symm.trans Std.ExtTreeMap.getElem?_insert_self)
      have hmem := hextends.hashes hash hhash
      rw [hnew] at hmem
      exact List.mem_singleton.mp hmem
    · intro hfresh
      refine .insert fun held hheld ↦ ?_
      obtain ⟨other, _, hgrown⟩ := h _ held hheld
      have hhashes := hfresh held hheld
      obtain rfl := hgrown.eq_new hhashes
      refine ⟨fun hash hhash ↦ ?_, fun hset ↦ ?_, fun c hset ↦ ?_, fun k hset ↦ ?_⟩
      · rw [hhashes hash hhash]
        exact List.mem_singleton_self _
      · rw [isDeactivated_new] at hset
        exact absurd hset (by decide)
      · rw [isRevoked_new] at hset
        exact absurd hset (by decide)
      · rw [isVmRevoked_new] at hset
        exact absurd hset (by decide)

end Steps

/-- From an empty store, no part of a run of writes loses a document, or a delta or a permanent fact of
one, exactly when every creation of the run names a document that is not stored then, or of which
nothing but the creation delta is held. -/
theorem store_keepsHistory_iff (events : List StoreEvent) :
    (∀ before part after, events = before ++ part ++ after →
        Keeps (runEvents ∅ before) (runEvents ∅ (before ++ part))) ↔
      ∀ before event after, events = before ++ event :: after →
        CreatesFresh (runEvents ∅ before) event := by
  have hgrown : ∀ before, AllGrown (runEvents ∅ before) := by
    have hempty : AllGrown ∅ := fun did doc hget ↦ absurd hget (by simp)
    exact fun before ↦ hempty.runEvents before
  have hstep : ∀ before event,
      runEvents ∅ (before ++ [event]) = event.apply (runEvents ∅ before) := by
    intro before event
    unfold runEvents
    rw [List.foldl_append]
    rfl
  constructor
  · intro hkeeps before event after hsplit
    rw [← StoreEvent.keeps_iff (hgrown before), ← hstep]
    exact hkeeps before [event] after (by simpa using hsplit)
  · intro hfresh before part
    induction part generalizing before with
    | nil =>
      intro after _
      rw [List.append_nil]
      exact .refl _
    | cons event part ih =>
      intro after hsplit
      have hfirst : Keeps (runEvents ∅ before) (runEvents ∅ (before ++ [event])) := by
        rw [hstep, StoreEvent.keeps_iff (hgrown before)]
        exact hfresh before event (part ++ after) (by simpa using hsplit)
      have hrest := ih (before ++ [event]) after (by simpa using hsplit)
      rw [List.append_assoc, List.singleton_append] at hrest
      exact hfirst.trans hrest

end

section Readable

attribute [local instance] Primitives.readable StateDigests.readable

/-- A document of the key `u7` is created, its creation key deactivates it, and it is created again:
the deactivation is lost. -/
theorem createDid_loses_deactivation :
    let deactivation := SignedDelta.readable "did:crdt:u7" "did:crdt:u7#key-0" "u7" 1 55 .deactivate
      ["0.0.0"]
    let before := [.createDid "u7", .submitDelta "did:crdt:u7" deactivation]
    let stored := fun events ↦ ((runEvents ∅ events)[deriveDid "u7"]?).map
      fun doc ↦ (doc.isDeactivated, doc.logHashes)
    stored before = some (true, [(Document.genesis "u7").contentHash, deactivation.contentHash]) ∧
      stored (before ++ [.createDid "u7"]) = some (false, [(Document.genesis "u7").contentHash]) ∧
      ¬ Keeps (runEvents ∅ before) (runEvents ∅ (before ++ [.createDid "u7"])) := by
  intro deactivation before stored
  have hbefore : stored before =
      some (true, [(Document.genesis "u7").contentHash, deactivation.contentHash]) := by decide
  have hagain : stored (before ++ [.createDid "u7"]) =
      some (false, [(Document.genesis "u7").contentHash]) := by decide
  refine ⟨hbefore, hagain, fun hkeeps ↦ ?_⟩
  obtain ⟨doc, hget, hdoc⟩ := Option.map_eq_some_iff.mp hbefore
  obtain ⟨doc', hget', hextends⟩ := hkeeps _ doc hget
  have hdoc' : (doc'.isDeactivated, doc'.logHashes) = _ :=
    Option.some.inj ((congrArg (Option.map _) hget').symm.trans hagain)
  have hset := hextends.deactivated (congrArg Prod.fst hdoc)
  exact absurd (hset.symm.trans (congrArg Prod.fst hdoc')) (by decide)

end Readable

end DidCrdt
