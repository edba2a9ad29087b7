import DidCrdt.Sync.Ingest

/-!
# Refused input leaves no trace

The operations of `Ingest` mutate a document between calls that may fail. For each of them a triple
says what an error leaves behind, which is the document as it was, and that a delta that is held
already changes nothing.
-/

set_option autoImplicit false
set_option relaxedAutoImplicit false
set_option mvcgen.warning false

open Std.Do

namespace DidCrdt

namespace Ingest

/-! ### Triples of the operations -/

section Triples

variable {α : Type}

@[spec] theorem check_spec (s : Document) (r : Except Error α) :
    ⦃fun t ↦ ⌜t = s⌝⦄ check r
    ⦃post⟨fun a t ↦ ⌜t = s ∧ r = .ok a⌝, fun _ t ↦ ⌜t = s⌝⟩⦄ := by
  cases r with
  | ok a => mvcgen [check, Except.mapError] <;> grind
  | error e => mvcgen [check, Except.mapError] <;> grind

/-- The fields are joined without a failure. -/
theorem outcome_mergeFields (s other : Document) :
    (mergeFields other).outcome s =
      (.ok (), { s with
        toCrdtState := Document.mergeFields s.toCrdtState other.toCrdtState }) := by
  simp only [mergeFields, Transaction.outcome_bind, Transaction.outcome_modify]
  rfl

@[spec] theorem mergeFields_spec (s other : Document) :
    ⦃fun t ↦ ⌜t = s⌝⦄ mergeFields other
    ⦃post⟨fun a t ↦ ⌜a = () ∧ t = { s with
      toCrdtState := Document.mergeFields s.toCrdtState other.toCrdtState }⌝,
      fun _ _ ↦ ⌜False⌝⟩⦄ :=
  Transaction.triple_of_outcome (outcome_mergeFields s other)

variable [Encoder] [Primitives]

theorem contentHash_eq_ok_iff (d : SignedDelta) (h : DeltaHash) :
    contentHash d = .ok h ↔ Encoder.payloadFailure d.signingInput = none ∧ d.contentHash = h := by
  unfold contentHash encode
  cases Encoder.payloadFailure d.signingInput <;> simp [Except.map]

/-- The insertion fails when the delta cannot be hashed, before it mutates anything. -/
@[spec] theorem insertDag_spec (s : Document) (d : SignedDelta) :
    ⦃fun t ↦ ⌜t = s⌝⦄ insertDag d
    ⦃post⟨fun _ t ↦ ⌜t = { s with dag := s.dag.insert d }⌝,
      fun _ t ↦ ⌜t = s ∧ ∀ h, contentHash d ≠ .ok h⌝⟩⦄ := by
  mvcgen [insertDag] <;> grind

/-- The mutations come after every check, and the hash that the insertion takes was taken before. -/
@[spec] theorem merge_spec (s : Document) (d : SignedDelta) :
    ⦃fun t ↦ ⌜t = s⌝⦄ merge d
    ⦃post⟨fun _ t ↦ ⌜s.dag.contains d.contentHash = true → t = s⌝, fun _ t ↦ ⌜t = s⌝⟩⦄ := by
  mvcgen [merge, applyOp, pushLog] <;> grind [contentHash_eq_ok_iff]

@[spec] theorem mergeVerifiedDelta_spec (s : Document) (d : SignedDelta) :
    ⦃fun t ↦ ⌜t = s⌝⦄ mergeVerifiedDelta d
    ⦃post⟨fun _ t ↦ ⌜s.dag.contains d.contentHash = true → t = s⌝, fun _ t ↦ ⌜t = s⌝⟩⦄ := by
  mvcgen [mergeVerifiedDelta] <;> grind

/-- A log is merged without a failure: a delta that cannot be hashed is passed over. -/
@[spec] theorem mergeLog_spec (s : Document) (log : List SignedDelta)
    (seen : Std.ExtTreeSet DeltaHash compare) :
    ⦃fun t ↦ ⌜t = s⌝⦄ mergeLog seen log ⦃post⟨fun _ _ ↦ ⌜True⌝, fun _ _ ↦ ⌜False⌝⟩⦄ := by
  induction log generalizing s seen with
  | nil => mvcgen [mergeLog]
  | cons d log ih =>
    mvcgen [mergeLog, pushLog, ih]

@[spec] theorem mergeState_spec (s other : Document) :
    ⦃fun t ↦ ⌜t = s⌝⦄ mergeState other ⦃post⟨fun _ _ ↦ ⌜True⌝, fun _ t ↦ ⌜t = s⌝⟩⦄ := by
  mvcgen [mergeState]
  grind

/-- The replay works on a copy, whatever it does to it. -/
@[spec] theorem mergeVerifiedBundle_spec (s : Document) (bundle : ClosureBundle) :
    ⦃fun t ↦ ⌜t = s⌝⦄ mergeVerifiedBundle bundle
    ⦃post⟨fun _ _ ↦ ⌜True⌝, fun _ t ↦ ⌜t = s⌝⟩⦄ := by
  mvcgen [mergeVerifiedBundle] <;> grind

/-- Everything that may fail comes before the document is stored. -/
@[spec] theorem genesisBootstrap_spec (s : Docs) (did : Did) (deltas : List SignedDelta) :
    ⦃fun t ↦ ⌜t = s⌝⦄ genesisBootstrap did deltas
    ⦃post⟨fun _ _ ↦ ⌜True⌝, fun _ t ↦ ⌜t = s⌝⟩⦄ := by
  mvcgen [genesisBootstrap] <;> grind

end Triples

/-! ### An encoder that never fails -/

section Reliable

attribute [local instance] Encoder.reliable

theorem outcome_check_bind {α β : Type} (r : Except Error α) (f : α → Ingest β) (doc : Document) :
    (check r >>= f).outcome doc =
      match r with
      | .ok a => (f a).outcome doc
      | .error e => (.error (.core e), doc) := by
  rw [check, Transaction.outcome_ofExcept_bind]
  cases r <;> rfl

theorem encode_delta (d : SignedDelta) : encode (Encoder.deltaFailure d) = .ok () := rfl

variable [Primitives]

theorem contentHash_reliable (d : SignedDelta) : contentHash d = .ok d.contentHash := rfl

theorem verifySignature_reliable (d : SignedDelta) (doc : Document) :
    verifySignature d doc = (DidCrdt.verifySignature d doc).mapError .core := by
  unfold verifySignature
  cases decodeMultibaseU d.proof.proofValue with
  | error e => simp
  | ok bytes =>
    split_ifs
    · rfl
    · rfl

theorem outcome_record (doc : Document) (d : SignedDelta) :
    Transaction.outcome (do
      applyOp d.op d.timestamp d.parents
      insertDag d
      pushLog d) doc = (.ok (), doc.record d) := by
  simp only [applyOp, insertDag, pushLog, Transaction.outcome_bind, Transaction.outcome_modify,
    Transaction.outcome_ofExcept, contentHash_reliable]
  rfl

/-- The steps of `merge` have the effect of `Document.merge`. -/
theorem outcome_merge (doc : Document) (d : SignedDelta) :
    (merge d).outcome doc = ((doc.merge d).2.mapError .core, (doc.merge d).1) := by
  unfold merge Document.merge
  rw [encode_delta, Transaction.outcome_ofExcept_bind]
  simp only [Transaction.outcome_get_bind, outcome_check_bind]
  cases doc.staticGates d with
  | error e => rfl
  | ok _ =>
    simp only [contentHash_reliable, Transaction.outcome_ofExcept_bind]
    by_cases hheld : doc.dag.contains d.contentHash = true
    · rw [if_pos hheld, if_pos hheld]
      rfl
    · rw [if_neg hheld, if_neg hheld]
      cases hcanonical : isCanonicalParents d.parents with
      | false => simp [outcome_check_bind, canonicalGate, hcanonical, Except.mapError]
      | true =>
        simp only [outcome_check_bind, canonicalGate, hcanonical, ↓reduceIte, Bool.not_true,
          Bool.false_eq_true]
        cases doc.causalGate d with
        | error e => rfl
        | ok _ =>
          cases doc.stateImportFloor d with
          | error e => rfl
          | ok _ => exact outcome_record doc d

/-- The steps of `mergeVerifiedDelta` have the effect of `Document.mergeVerifiedDelta`. -/
theorem outcome_mergeVerifiedDelta (doc : Document) (d : SignedDelta) :
    (mergeVerifiedDelta d).outcome doc =
      ((doc.mergeVerifiedDelta d).2.mapError .core, (doc.mergeVerifiedDelta d).1) := by
  unfold mergeVerifiedDelta Document.mergeVerifiedDelta
  rw [contentHash_reliable, Transaction.outcome_ofExcept_bind]
  simp only [Transaction.outcome_get_bind]
  by_cases hheld : doc.dag.contains d.contentHash = true
  · rw [if_pos hheld, if_pos hheld]
    rfl
  · rw [if_neg hheld, if_neg hheld, outcome_check_bind, pendingGate]
    rw [verifySignature_reliable]
    cases verifyCausal d doc.dag with
    | unknown missing => rfl
    | _ =>
      simp only [Transaction.outcome_ofExcept_bind]
      cases DidCrdt.verifySignature d doc with
      | error e => rfl
      | ok _ => exact outcome_merge doc d

/-- The steps of a replay have the effect of `Document.replay`. -/
theorem outcome_replay (byHash : BundleIndex) (order : List DeltaHash) : ∀ doc : Document,
    ∃ last, (replay byHash order).outcome doc =
      ((Document.replay byHash doc order).mapError .core |>.map fun _ ↦ (), last) ∧
        ∀ working, Document.replay byHash doc order = .ok working → last = working := by
  induction order with
  | nil => 
    intro doc
    exact ⟨doc, rfl, fun working h ↦ Except.ok.inj h⟩
  | cons h order ih =>
    intro doc
    rw [replay, Document.replay, Transaction.outcome_get_bind]
    by_cases hheld : doc.dag.contains h = true
    · rw [if_pos hheld, if_pos hheld]
      exact ih doc
    · rw [if_neg hheld, if_neg hheld]
      cases byHash[h]? with
      | none => exact ih doc
      | some d =>
        simp only [verifySignature_reliable, Transaction.outcome_ofExcept_bind]
        cases DidCrdt.verifySignature d doc with
        | error e => exact ⟨doc, rfl, fun working h ↦ absurd h (by simp)⟩
        | ok _ =>
          simp only [Except.mapError, Transaction.outcome_bind, outcome_merge]
          rcases doc.merge d with ⟨next, outcome⟩
          cases outcome with
          | error e => exact ⟨next, rfl, fun working h ↦ absurd h (by simp)⟩
          | ok _ => exact ih next

theorem indexBundle_reliable (deltas : List SignedDelta) : ∀ byHash : BundleIndex,
    indexBundle byHash deltas = .ok (deltas.foldl (fun m d ↦ m.insert d.contentHash d) byHash) := by
  induction deltas with
  | nil => exact fun byHash ↦ rfl
  | cons d deltas ih => exact fun byHash ↦ ih (byHash.insert d.contentHash d)

/-- The steps of `mergeVerifiedBundle` have the effect of `Document.mergeVerifiedBundle`. -/
theorem outcome_mergeVerifiedBundle (doc : Document) (bundle : ClosureBundle) :
    (mergeVerifiedBundle bundle).outcome doc =
      ((doc.mergeVerifiedBundle bundle).2.mapError .core, (doc.mergeVerifiedBundle bundle).1) := by
  have hindex : indexBundle ∅ bundle.deltas = .ok (Document.indexBundle bundle.deltas) :=
    indexBundle_reliable bundle.deltas ∅
  unfold mergeVerifiedBundle Document.mergeVerifiedBundle
  rw [hindex, Transaction.outcome_ofExcept_bind]
  simp only [outcome_check_bind, targetGate, Transaction.outcome_get_bind, danglingGate]
  generalize Document.indexBundle bundle.deltas = byHash
  cases htarget : byHash.contains bundle.target with
  | false => simp [Except.mapError]
  | true =>
    simp only [↓reduceIte, Bool.not_true, Bool.false_eq_true]
    cases (bundle.deltas.flatMap SignedDelta.parents).find? fun p ↦
      !byHash.contains p && !doc.dag.contains p with
    | some p => rfl
    | none =>
      cases topoOrderBundle byHash with
      | error e => rfl
      | ok order =>
        obtain ⟨last, hrun, hlast⟩ := outcome_replay byHash order doc
        simp only [Transaction.outcome_onCopy, Transaction.outcome_bind, hrun]
        cases hreplay : Document.replay byHash doc order with
        | error e => rfl
        | ok working =>
          rw [hlast working hreplay]
          rfl

/-- The steps over a log have the effect of `LogMerge.add`. -/
theorem outcome_mergeLog (log : List SignedDelta) :
    ∀ (seen : Std.ExtTreeSet DeltaHash compare) (doc : Document),
      (mergeLog seen log).outcome doc =
        (.ok (), { doc with
          deltaLog := (log.foldl Document.LogMerge.add ⟨seen, doc.deltaLog, doc.dag⟩).log
          dag := (log.foldl Document.LogMerge.add ⟨seen, doc.deltaLog, doc.dag⟩).dag }) := by
  induction log with
  | nil => exact fun seen doc ↦ rfl
  | cons d log ih =>
    intro seen doc
    rw [mergeLog, contentHash_reliable, List.foldl_cons, Document.LogMerge.add]
    by_cases hseen : seen.contains d.contentHash = true
    · simp only [hseen, ↓reduceIte]
      exact ih seen doc
    · simp only [hseen, ↓reduceIte, Bool.false_eq_true]
      exact ih (seen.insert d.contentHash)
        { doc with dag := doc.dag.insert d, deltaLog := doc.deltaLog ++ [d] }

/-- The steps of `mergeState` have the effect of `Document.mergeState`. -/
theorem outcome_mergeState (doc other : Document) :
    (mergeState other).outcome doc =
      ((doc.mergeState other).2.mapError .core, (doc.mergeState other).1) := by
  have hhashes : logHashes doc.deltaLog = doc.logHashes := by
    unfold logHashes Document.logHashes
    rw [← List.filterMap_eq_map]
    rfl
  unfold mergeState Document.mergeState
  rw [Transaction.outcome_get_bind, outcome_check_bind, sameDidGate]
  by_cases hdid : other.did ≠ doc.did
  · rw [if_pos hdid, if_pos hdid]
    rfl
  · rw [if_neg hdid, if_neg hdid]
    simp only [Transaction.outcome_bind, outcome_mergeFields, Transaction.outcome_get,
      outcome_mergeLog, hhashes]
    rfl

/-- The steps over a batch have the effect of `Document.mergeBatch`. -/
theorem passStep_reliable : passStep = Pass.step := by
  funext pass d
  rw [passStep, Pass.step, outcome_mergeVerifiedDelta]
  rcases pass.doc.mergeVerifiedDelta d with ⟨doc, outcome⟩
  cases outcome with
  | ok _ => rfl
  | error e => cases e <;> rfl

theorem mergeLoop_reliable (fuel : ℕ) : ∀ (doc : Document) (pending : List SignedDelta),
    mergeLoop fuel doc pending = DidCrdt.mergeLoop fuel doc pending := by
  induction fuel with
  | zero => exact fun doc pending ↦ rfl
  | succ fuel ih =>
    intro doc pending
    rw [mergeLoop, DidCrdt.mergeLoop, passStep_reliable]
    simp only [ih]

/-- The steps of `genesisBootstrap` have the effect of the bootstrap of a batch: it leaves the store as
it was, or with the new document. -/
theorem outcome_genesisBootstrap (docs : Docs) (did : Did) (deltas : List SignedDelta) :
    (genesisBootstrap did deltas).outcome docs =
      match DidCrdt.genesisBootstrap docs did deltas with
      | .ok docs' => (.ok (), docs')
      | .error e => (.error e, docs) := by
  unfold genesisBootstrap DidCrdt.genesisBootstrap
  rw [Transaction.outcome_ofExcept_bind, genesisOf]
  cases deltas.filter fun d ↦ d.parents.isEmpty with
  | nil => rfl
  | cons genesis others =>
    cases others with
    | cons _ _ => rfl
    | nil =>
      simp only
      cases genesis.op with
      | addVerificationMethod id publicKeyMultibase suite rels =>
        have hnew : (newDocument publicKeyMultibase).mapError (failed "Document::new") =
            .ok (Document.new publicKeyMultibase) := rfl
        simp only [hnew, Transaction.outcome_ofExcept_bind]
        by_cases hdid : (Document.new publicKeyMultibase).1.did ≠ did
        · simp only [hdid, ne_eq, not_false_eq_true, ↓reduceIte]
          rfl
        · rw [if_neg hdid, if_neg hdid]
          simp only [contentHash_reliable, Except.mapError, Transaction.outcome_ofExcept_bind]
          by_cases hhash : genesis.contentHash ≠ (Document.new publicKeyMultibase).2.contentHash
          · rw [if_pos hhash, if_pos hhash]
            rfl
          · rw [if_neg hhash, if_neg hhash]
            simp only [Transaction.outcome_bind, Transaction.outcome_modify]
            refine congrArg (Prod.mk (Except.ok ())) (Std.ExtTreeMap.ext_getElem? fun {k} ↦ ?_)
            rw [OrderedMaps.getElem?_alter, OrderedMaps.getElem?_insert,
              OrderedMaps.getElem?_insert]
            split_ifs with hk
            · simp [mergeLoop_reliable, Document.mergeBatch]
            · rfl
      | _ => rfl

end Reliable

end Ingest

/-! ### Refused input and duplicates -/

section AnyEncoder

variable [Encoder] [Primitives]

/-- Whatever the encoder does: an error of `merge`, `mergeVerifiedDelta`, `mergeVerifiedBundle` or
`mergeState` leaves the document as it was, and an error of `genesisBootstrap` the documents; and a
delta whose content hash is held leaves the document as it was also when it is accepted. -/
theorem refused_unchanged :
    (∀ (doc doc' : Document) (d : SignedDelta) (err : IngestError),
      (Ingest.merge d).outcome doc = (.error err, doc') → doc' = doc) ∧
    (∀ (doc doc' : Document) (d : SignedDelta) (err : IngestError),
      (Ingest.mergeVerifiedDelta d).outcome doc = (.error err, doc') → doc' = doc) ∧
    (∀ (doc doc' : Document) (bundle : ClosureBundle) (err : IngestError),
      (Ingest.mergeVerifiedBundle bundle).outcome doc = (.error err, doc') → doc' = doc) ∧
    (∀ (doc doc' other : Document) (err : IngestError),
      (Ingest.mergeState other).outcome doc = (.error err, doc') → doc' = doc) ∧
    (∀ (doc doc' : Document) (d : SignedDelta), doc.dag.contains d.contentHash = true →
      (Ingest.merge d).outcome doc = (.ok (), doc') → doc' = doc) ∧
    (∀ (doc doc' : Document) (d : SignedDelta), doc.dag.contains d.contentHash = true →
      (Ingest.mergeVerifiedDelta d).outcome doc = (.ok (), doc') → doc' = doc) ∧
    (∀ (docs docs' : Docs) (did : Did) (deltas : List SignedDelta) (err : BootstrapError),
      (Ingest.genesisBootstrap did deltas).outcome docs = (.error err, docs') → docs' = docs) := by
  refine ⟨fun doc doc' d err h ↦ ?_, fun doc doc' d err h ↦ ?_, fun doc doc' bundle err h ↦ ?_,
    fun doc doc' other err h ↦ ?_, fun doc doc' d hheld h ↦ ?_, fun doc doc' d hheld h ↦ ?_,
    fun docs docs' did deltas err h ↦ ?_⟩
  · exact (Transaction.outcome_of_triple (Ingest.merge_spec doc d)).2 err doc' h
  · exact (Transaction.outcome_of_triple (Ingest.mergeVerifiedDelta_spec doc d)).2 err doc' h
  · exact (Transaction.outcome_of_triple (Ingest.mergeVerifiedBundle_spec doc bundle)).2 err doc' h
  · exact (Transaction.outcome_of_triple (Ingest.mergeState_spec doc other)).2 err doc' h
  · exact (Transaction.outcome_of_triple (Ingest.merge_spec doc d)).1 () doc' h hheld
  · exact (Transaction.outcome_of_triple (Ingest.mergeVerifiedDelta_spec doc d)).1 () doc' h hheld
  · exact (Transaction.outcome_of_triple (Ingest.genesisBootstrap_spec docs did deltas)).2
      err docs' h

end AnyEncoder

section Readable

attribute [local instance] Primitives.readable Encoder.reliable

/-- A foreign delta, an early one, a bundle without its target, the state of another document, the
creation delta once more, and a batch without a creation delta. -/
theorem refused_unchanged_samples :
    let doc := (Document.new "u7").1
    let foreign := SignedDelta.readable "did:crdt:u8" "did:crdt:u8#key-0" "u8" 1 56 .deactivate []
    let early :=
      SignedDelta.readable "did:crdt:u7" "did:crdt:u7#key-0" "u7" 2 55 .deactivate ["1.0.55"]
    ((Ingest.merge foreign).outcome doc).2 = doc ∧
    ((Ingest.mergeVerifiedDelta early).outcome doc).2 = doc ∧
    ((Ingest.mergeVerifiedBundle ⟨⟨"1.0.55"⟩, [early]⟩).outcome doc).2 = doc ∧
    ((Ingest.mergeState (Document.new "u8").1).outcome doc).2 = doc ∧
    ((Ingest.merge (Document.genesis "u7")).outcome doc).2 = doc ∧
    ((Ingest.mergeVerifiedDelta (Document.genesis "u7")).outcome doc).2 = doc ∧
    ((Ingest.genesisBootstrap ⟨"did:crdt:u7"⟩ [early]).outcome ∅).2 = ∅ := by
  intro doc foreign early
  obtain ⟨hmerge, hverified, hbundle, hstate, hagain, hverifiedAgain, hbootstrap⟩ :=
    refused_unchanged
  obtain ⟨_, hforeign⟩ := Transaction.outcome_eq_error (m := Ingest.merge foreign) (s := doc)
    (by decide)
  obtain ⟨_, hearly⟩ := Transaction.outcome_eq_error (m := Ingest.mergeVerifiedDelta early)
    (s := doc) (by decide)
  obtain ⟨_, htarget⟩ := Transaction.outcome_eq_error
    (m := Ingest.mergeVerifiedBundle ⟨⟨"1.0.55"⟩, [early]⟩) (s := doc) (by decide)
  obtain ⟨_, hother⟩ := Transaction.outcome_eq_error
    (m := Ingest.mergeState (Document.new "u8").1) (s := doc) (by decide)
  obtain ⟨_, hheld⟩ := Transaction.outcome_eq_ok
    (m := Ingest.merge (Document.genesis "u7")) (s := doc) (by decide)
  obtain ⟨_, hheld'⟩ := Transaction.outcome_eq_ok
    (m := Ingest.mergeVerifiedDelta (Document.genesis "u7")) (s := doc) (by decide)
  obtain ⟨_, hpartial⟩ := Transaction.outcome_eq_error
    (m := Ingest.genesisBootstrap ⟨"did:crdt:u7"⟩ [early]) (s := (∅ : Docs)) (by decide)
  exact ⟨hmerge _ _ _ _ hforeign, hverified _ _ _ _ hearly, hbundle _ _ _ _ htarget,
    hstate _ _ _ _ hother, hagain _ _ _ (by decide) hheld,
    hverifiedAgain _ _ _ (by decide) hheld', hbootstrap _ _ _ _ _ hpartial⟩

end Readable

end DidCrdt
