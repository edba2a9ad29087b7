import DidCrdt.Theory.Facts

/-!
# Log, DAG and state agree

A document stores its history three times: in the log, in the DAG, and in the fields. `Coherent`
says that the three agree: the log is a history, the DAG is the one rebuilt from it, the fields are
described by its events, and every delta of it was admissible. Creation establishes this and every
operation keeps it (`Coherent.new`, `Coherent.merge`, `Coherent.verifiedRun`,
`Coherent.mergeState`), so it holds of every document that can be reached (`Replica.coherent`), and
what is loaded from its stored form is the document again (`Coherent.eq_of_fromBytes_toBytes`).

On a coherent document the floor of `merge` decides nothing: a new delta is accepted exactly when it
passes the gates, its parents are held and its past authorises it (`Coherent.accepts_iff`). The last
condition is about the delta and the deltas around it, not about the replica.

Hashes are those of a collection of deltas without collisions, which contains the deltas of all the
replicas concerned.
-/

set_option autoImplicit false
set_option relaxedAutoImplicit false

namespace DidCrdt

theorem occurs_eventsOf_iff (log : List SignedDelta) (op : DeltaOp) :
    Occurs (eventsOf (members log)) op ↔ ∃ e ∈ log, e.op = op := by
  constructor
  · rintro ⟨t, e, he, heq⟩
    exact ⟨e, he, (Prod.mk.inj heq).1⟩
  · rintro ⟨e, he, rfl⟩
    exact ⟨e.timestamp, e, he, rfl⟩

theorem eventsOf_append (log more : List SignedDelta) :
    eventsOf (members (log ++ more)) = eventsOf (members log) ∪ eventsOf (members more) := by
  have hmembers : members (log ++ more) = members log ∪ members more :=
    Set.ext fun _ ↦ List.mem_append
  rw [hmembers, eventsOf, Set.image_union]
  rfl

theorem eventsOf_concat (log : List SignedDelta) (d : SignedDelta) :
    eventsOf (members (log ++ [d])) = insert d.event (eventsOf (members log)) := by
  ext e
  simp [eventsOf, eq_comm, or_comm]

section

variable [Primitives]

/-! ### Acceptance -/

/-- Every check of `merge` passes, and the delta is not held. -/
structure Accepts (doc : Document) (d : SignedDelta) : Prop where
  gates : doc.staticGates d = .ok ()
  new : doc.dag.contains d.contentHash = false
  canonical : isCanonicalParents d.parents = true
  causal : doc.causalGate d = .ok ()
  floor : doc.stateImportFloor d = .ok ()

namespace Document

variable {doc : Document} {d : SignedDelta}

theorem merge_of_accepts (h : Accepts doc d) : doc.merge d = (doc.record d, .ok ()) := by
  rw [merge, h.gates]
  simp only [h.new, h.canonical, h.causal, h.floor, Bool.false_eq_true, ↓reduceIte, Bool.not_true]

/-- A delta that is not accepted leaves the document as it was; without an error it was held. -/
theorem merge_of_not_accepts (h : ¬ Accepts doc d) :
    (doc.merge d).1 = doc ∧
      ((doc.merge d).2 = .ok () → doc.dag.contains d.contentHash = true) := by
  rw [merge]
  cases hgates : doc.staticGates d with
  | error e => exact ⟨rfl, fun hok ↦ absurd hok (by simp)⟩
  | ok _ =>
    by_cases hnew : doc.dag.contains d.contentHash = true
    · simp [hnew]
    by_cases hcanonical : isCanonicalParents d.parents = true
    · cases hcausal : doc.causalGate d with
      | error e => simp [hnew, hcanonical]
      | ok _ =>
        cases hfloor : doc.stateImportFloor d with
        | error e => simp [hnew, hcanonical]
        | ok _ =>
          exact absurd ⟨hgates, Bool.not_eq_true _ ▸ hnew, hcanonical, hcausal, hfloor⟩ h
    · simp [hnew, hcanonical]

/-- A merge records the delta or leaves the document as it was. -/
theorem merge_fst_eq (doc : Document) (d : SignedDelta) :
    (Accepts doc d ∧ (doc.merge d).1 = doc.record d) ∨
      (¬ Accepts doc d ∧ (doc.merge d).1 = doc) := by
  by_cases h : Accepts doc d
  · exact Or.inl ⟨h, by rw [merge_of_accepts h]⟩
  · exact Or.inr ⟨h, (merge_of_not_accepts h).1⟩

theorem mergeVerifiedDelta_of_accepts (haccepts : Accepts doc d)
    (hsig : verifySignature d doc = .ok ()) :
    doc.mergeVerifiedDelta d = (doc.record d, .ok ()) := by
  unfold mergeVerifiedDelta
  rw [if_neg (by simp [haccepts.new])]
  cases hverdict : verifyCausal d doc.dag with
  | unknown missing =>
    have hgate := haccepts.causal
    rw [causalGate, hverdict] at hgate
    exact absurd hgate (by simp)
  | _ => simp only [hsig, merge_of_accepts haccepts]

theorem mergeVerifiedDelta_fst_of_accepts (haccepts : Accepts doc d)
    (hsig : verifySignature d doc = .ok ()) : (doc.mergeVerifiedDelta d).1 = doc.record d :=
  congrArg Prod.fst (mergeVerifiedDelta_of_accepts haccepts hsig)

/-- A verified merge records a delta that is accepted and whose signature verifies, or leaves the
document as it was. -/
theorem mergeVerifiedDelta_fst_eq (doc : Document) (d : SignedDelta) :
    (Accepts doc d ∧ verifySignature d doc = .ok () ∧
        (doc.mergeVerifiedDelta d).1 = doc.record d) ∨
      (¬ (Accepts doc d ∧ verifySignature d doc = .ok ()) ∧
        (doc.mergeVerifiedDelta d).1 = doc) := by
  unfold mergeVerifiedDelta
  by_cases hnew : doc.dag.contains d.contentHash = true
  · refine Or.inr ⟨fun h ↦ ?_, by rw [if_pos hnew]⟩
    rw [h.1.new] at hnew
    exact absurd hnew (by simp)
  rw [if_neg hnew]
  cases hcausal : verifyCausal d doc.dag with
  | unknown missing =>
    refine Or.inr ⟨fun h ↦ ?_, rfl⟩
    have hgate := h.1.causal
    rw [causalGate, hcausal] at hgate
    exact absurd hgate (by simp)
  | valid =>
    cases hsig : verifySignature d doc with
    | error e => exact Or.inr ⟨by simp, rfl⟩
    | ok _ =>
      rcases merge_fst_eq doc d with ⟨haccepts, hmerge⟩ | ⟨hrefuses, hmerge⟩
      · exact Or.inl ⟨haccepts, rfl, hmerge⟩
      · exact Or.inr ⟨fun h ↦ hrefuses h.1, hmerge⟩
  | invalid reason =>
    cases hsig : verifySignature d doc with
    | error e => exact Or.inr ⟨by simp, rfl⟩
    | ok _ =>
      rcases merge_fst_eq doc d with ⟨haccepts, hmerge⟩ | ⟨hrefuses, hmerge⟩
      · exact Or.inl ⟨haccepts, rfl, hmerge⟩
      · exact Or.inr ⟨fun h ↦ hrefuses h.1, hmerge⟩

@[simp] theorem deltaLog_record (doc : Document) (d : SignedDelta) :
    (doc.record d).deltaLog = doc.deltaLog ++ [d] := rfl

@[simp] theorem dag_record (doc : Document) (d : SignedDelta) :
    (doc.record d).dag = doc.dag.insert d := rfl

@[simp] theorem did_record (doc : Document) (d : SignedDelta) : (doc.record d).did = doc.did :=
  did_apply _ _ _ _

end Document

/-! ### Coherent documents -/

/-- The checks of a delta against a document identifier alone. -/
structure PassesGates (did : Did) (d : SignedDelta) : Prop where
  size : Primitives.serialisedSize d ≤ maxDeltaSize
  did : d.did = did
  aliases : ∀ uris, d.op = .setAlsoKnownAs uris → recogniseAlsoKnownAs uris = .ok ()
  names : ∀ key value, d.op = .setDocumentData key value → isReservedDocumentProperty key = false
  canonical : isCanonicalParents d.parents = true

/-- A later delta of the document: it passes the gates, has parents, and is authorised. -/
structure Admissible (deltas : Set SignedDelta) (did : Did) (d : SignedDelta) : Prop where
  gates : PassesGates did d
  grounded : d.parents ≠ []
  authorised : AuthorisedIn deltas d

/-- The log is a history of admissible deltas of the collection, the DAG is the one of the log, and
the fields are the facts of its events. -/
structure Coherent (deltas : Set SignedDelta) (root : SignedDelta) (doc : Document) : Prop where
  bootstrap : ∃ e : VerificationMethodEntry, root.op = e.addition
  history : History root doc.deltaLog
  dag : doc.dag = .rebuild doc.deltaLog
  describes : Describes (eventsOf (members doc.deltaLog)) doc.toCrdtState
  did : doc.did = root.did
  sub : members doc.deltaLog ⊆ deltas
  admitted : ∀ d ∈ doc.deltaLog, d.parents ≠ [] → Admissible deltas root.did d

/-- A delta that fails a static check is refused or too large. -/
theorem staticGates_error {doc : Document} {d : SignedDelta} {e : Error}
    (h : doc.staticGates d = .error e) :
    (∃ text, e = .deltaRejected text) ∨ ∃ size max, e = .deltaTooLarge size max := by
  unfold Document.staticGates at h
  have haliases := fun uris (hu : recogniseAlsoKnownAs uris = .error e) ↦ recogniseAlsoKnownAs_error hu
  grind

theorem staticGates_eq_ok_iff (doc : Document) (d : SignedDelta) :
    doc.staticGates d = .ok () ∧ isCanonicalParents d.parents = true ↔ PassesGates doc.did d := by
  have hiff : doc.staticGates d = .ok () ↔ Primitives.serialisedSize d ≤ maxDeltaSize ∧
      d.did = doc.did ∧
      (∀ uris, d.op = .setAlsoKnownAs uris → recogniseAlsoKnownAs uris = .ok ()) ∧
      ∀ key value, d.op = .setDocumentData key value →
        isReservedDocumentProperty key = false := by
    rw [Document.staticGates]
    by_cases hsize : maxDeltaSize < Primitives.serialisedSize d
    · simp [hsize, Nat.not_le.mpr hsize]
    by_cases hdid : d.did = doc.did
    · rw [if_neg hsize, if_neg (by simpa using hdid)]
      cases hop : d.op with
      | setDocumentData key value =>
        cases hreserved : isReservedDocumentProperty key <;>
          simp [Nat.not_lt.mp hsize, hdid, hreserved]
      | _ => simp [Nat.not_lt.mp hsize, hdid]
    · simp [hsize, hdid]
  rw [hiff]
  exact ⟨fun ⟨⟨hsize, hdid, haliases, hnames⟩, hcanonical⟩ ↦
      ⟨hsize, hdid, haliases, hnames, hcanonical⟩,
    fun h ↦ ⟨⟨h.size, h.did, h.aliases, h.names⟩, h.canonical⟩⟩

namespace Coherent

variable {deltas : Set SignedDelta} {root : SignedDelta} {doc other : Document} {d : SignedDelta}

/-- The hashes held are those of the log. -/
theorem contains_iff (h : Coherent deltas root doc) (hash : DeltaHash) :
    doc.dag.contains hash = true ↔ hash ∈ doc.logHashes := by
  rw [h.dag, DeltaDag.contains_rebuild, Document.logHashes, List.mem_map]

theorem contains_eq_false_iff (h : Coherent deltas root doc) (hash : DeltaHash) :
    doc.dag.contains hash = false ↔ hash ∉ doc.logHashes := by
  rw [← h.contains_iff, Bool.not_eq_true]

theorem mem_values_iff (h : Coherent deltas root doc) (e : SignedDelta) :
    e ∈ doc.dag.values ↔ e ∈ doc.deltaLog := by
  rw [h.dag, DeltaDag.mem_values_rebuild h.history.nodup]

/-- The verification methods are those that the log adds. -/
theorem mem_verificationMethods_iff (h : Coherent deltas root doc) (e : VerificationMethodEntry) :
    e ∈ doc.verificationMethods ↔ ∃ d ∈ doc.deltaLog, d.op = e.addition :=
  (h.describes.verificationMethods e).trans (occurs_eventsOf_iff _ _)

theorem exists_method (h : Coherent deltas root doc) : ∃ e, e ∈ doc.verificationMethods := by
  obtain ⟨e, hop⟩ := h.bootstrap
  exact ⟨e, (h.mem_verificationMethods_iff e).mpr ⟨root, h.history.root_mem, hop⟩⟩

/-- Facts of the state are backed by deltas: the state knows a signer when a held delta adds it. -/
theorem containsId_iff (h : Coherent deltas root doc) (id : String) :
    VerificationMethods.containsId doc.verificationMethods id = true ↔
      doc.dag.hasAuthorisingDelta id = true := by
  rw [VerificationMethods.containsId_iff, DeltaDag.hasAuthorisingDelta_iff]
  constructor
  · rintro ⟨e, he, rfl⟩
    obtain ⟨a, ha, hop⟩ := (h.mem_verificationMethods_iff e).mp he
    exact ⟨a, (h.mem_values_iff a).mpr ha, _, _, _, hop⟩
  · rintro ⟨a, ha, pk, suite, rels, hop⟩
    exact ⟨⟨id, pk, suite, rels⟩,
      (h.mem_verificationMethods_iff _).mpr ⟨a, (h.mem_values_iff a).mp ha, hop⟩, rfl⟩

theorem revoked_iff (h : Coherent deltas root doc) (id : String) :
    doc.revokedVerificationMethods.contains id = true ↔ doc.dag.hasRevokingDelta id = true := by
  rw [Std.ExtTreeSet.contains_iff_mem, h.describes.revokedVerificationMethods, occurs_eventsOf_iff,
    DeltaDag.hasRevokingDelta_iff]
  exact exists_congr fun e ↦ and_congr_left fun _ ↦ (h.mem_values_iff e).symm

theorem deactivated_iff (h : Coherent deltas root doc) :
    doc.deactivated = true ↔ doc.dag.hasDeactivateDelta = true := by
  rw [h.describes.deactivated, occurs_eventsOf_iff, DeltaDag.hasDeactivateDelta_iff]
  exact exists_congr fun e ↦ and_congr_left fun _ ↦ (h.mem_values_iff e).symm

/-- The causal verdict of a coherent document on a delta of the collection. -/
theorem verifyCausal_iff (h : Coherent deltas root doc) (hfree : CollisionFree deltas) :
    verifyCausal d doc.dag = .valid ↔
      d.parents ≠ [] ∧ (∀ p ∈ d.parents, p ∈ doc.logHashes) ∧ AuthorisedIn deltas d := by
  rw [h.dag, verifyCausal_rebuild_iff h.history]
  refine and_congr_right fun _ ↦ and_congr_right fun hheld ↦ ?_
  refine (authorisedIn_iff_of_closed hfree h.sub h.history.parentClosed fun p hp ↦ ?_).symm
  exact (mem_hashes_iff _ p).mp (hheld p hp)

/-- A delta whose parents are held is decided. -/
theorem verifyCausal_ne_unknown (h : Coherent deltas root doc)
    (hheld : ∀ p ∈ d.parents, doc.dag.contains p = true) (missing : List DeltaHash) :
    verifyCausal d doc.dag ≠ .unknown missing := by
  intro hunknown
  rw [h.dag] at hunknown
  obtain ⟨_, p, hp, hmissing⟩ := exists_missing_of_unknown h.history hunknown
  exact hmissing ((h.contains_iff p).mp (hheld p hp))

/-- On a coherent document the floor asks whether a held delta adds the signer. -/
theorem floor_iff (h : Coherent deltas root doc) :
    doc.stateImportFloor d = .ok () ↔ doc.dag.hasAuthorisingDelta d.signer = true := by
  have hentries : (GSet.entries doc.verificationMethods).isEmpty = false := by
    obtain ⟨e, he⟩ := h.exists_method
    rw [List.isEmpty_eq_false_iff]
    exact List.ne_nil_of_mem ((GSet.mem_entries _ e).mpr he)
  have hdeactivated := h.deactivated_iff
  have hknown := h.containsId_iff d.signer
  have hrevoked := h.revoked_iff d.signer
  rw [Bool.eq_iff_iff.symm] at hdeactivated hknown hrevoked
  rw [Document.stateImportFloor, hdeactivated, hknown, hrevoked, hentries]
  cases doc.dag.hasDeactivateDelta <;> cases doc.dag.hasAuthorisingDelta d.signer <;>
    cases doc.dag.hasRevokingDelta d.signer <;> simp

/-- The floor decides nothing: the causal check and the floor pass together when the causal verdict
is valid. -/
theorem gate_and_floor_iff (h : Coherent deltas root doc) :
    doc.causalGate d = .ok () ∧ doc.stateImportFloor d = .ok () ↔
      verifyCausal d doc.dag = .valid := by
  rw [h.floor_iff, Document.causalGate]
  cases hverdict : verifyCausal d doc.dag with
  | unknown missing => simp
  | invalid reason =>
    -- the deferred case needs that no held delta adds the signer, the floor that one does
    cases hadded : doc.dag.hasAuthorisingDelta d.signer <;> simp
  | valid =>
    have hparents := ((verifyCausal_rebuild_iff h.history d).mp (h.dag ▸ hverdict)).1
    obtain ⟨hash, _, a, hget, pk, suite, rels, hop⟩ :=
      ((verifyCausal_eq_valid_iff hparents).mp hverdict).2.1
    have hvalue := (doc.dag.mem_values_iff a).mpr ⟨hash, hget⟩
    simpa using (doc.dag.hasAuthorisingDelta_iff d.signer).mpr ⟨a, hvalue, pk, suite, rels, hop⟩

/-- When the parents of an authorised delta are held, an entry is found for its signer. -/
theorem exists_found (h : Coherent deltas root doc) (hfree : CollisionFree deltas)
    (hauthorised : AuthorisedIn deltas d) (hheld : ∀ p ∈ d.parents, p ∈ doc.logHashes) :
    ∃ e, VerificationMethods.findId doc.verificationMethods d.signer = some e := by
  have hwithin := (authorisedIn_iff_of_closed hfree h.sub h.history.parentClosed
    fun p hp ↦ (mem_hashes_iff _ p).mp (hheld p hp)).mp hauthorised
  obtain ⟨a, ha, _, key, suite, relationships, hop⟩ := hwithin.added
  have hadded := (h.mem_verificationMethods_iff ⟨d.signer, key, suite, relationships⟩).mpr ⟨a, ha, hop⟩
  refine Option.ne_none_iff_exists'.mp fun hnone ↦ ?_
  exact (VerificationMethods.findId_eq_none_iff _ _).mp hnone _ hadded rfl

/-- A delta of the collection is accepted when it is new and admissible and its parents are held. -/
theorem accepts_iff (h : Coherent deltas root doc) (hfree : CollisionFree deltas) :
    Accepts doc d ↔ d.contentHash ∉ doc.logHashes ∧ Admissible deltas root.did d ∧
      ∀ p ∈ d.parents, p ∈ doc.logHashes := by
  have hgates := staticGates_eq_ok_iff doc d
  have hfloor := h.gate_and_floor_iff (d := d)
  rw [h.verifyCausal_iff hfree] at hfloor
  rw [h.did] at hgates
  constructor
  · intro ha
    obtain ⟨hparents, hheld, hauthorised⟩ := hfloor.mp ⟨ha.causal, ha.floor⟩
    exact ⟨(h.contains_eq_false_iff _).mp ha.new,
      ⟨hgates.mp ⟨ha.gates, ha.canonical⟩, hparents, hauthorised⟩, hheld⟩
  · rintro ⟨hnew, ⟨hpasses, hparents, hauthorised⟩, hheld⟩
    obtain ⟨hok, hcanonical⟩ := hgates.mpr hpasses
    obtain ⟨hcausal, hfloor'⟩ := hfloor.mpr ⟨hparents, hheld, hauthorised⟩
    exact ⟨hok, (h.contains_eq_false_iff _).mpr hnew, hcanonical, hcausal, hfloor'⟩

/-! ### The operations keep documents coherent -/

/-- The dots that a removal observes are dots of the log. -/
theorem observedDots_sub (h : Coherent deltas root doc) (op : DeltaOp) (parents : List DeltaHash) :
    ∀ t ∈ Document.observedDots doc.dag op parents,
      t ∈ serviceDots (eventsOf (members doc.deltaLog)) := by
  intro t ht
  cases op with
  | removeServiceEndpoint id =>
    obtain ⟨hash, a, _, hget, hsome⟩ := (doc.dag.mem_closureCollect parents _ t).mp ht
    have hmem := (h.mem_values_iff a).mp ((doc.dag.mem_values_iff a).mpr ⟨hash, hget⟩)
    cases hop : a.op with
    | addServiceEndpoint added serviceType endpoint =>
      rw [hop] at hsome
      simp only [Option.ite_none_right_eq_some, Option.some.injEq] at hsome
      exact ⟨a.op, ⟨a, hmem, Prod.ext rfl hsome.2⟩, hop ▸ trivial⟩
    | _ => simp [hop] at hsome
  | _ => exact absurd ht List.not_mem_nil

/-- Recording an admissible delta of the collection whose parents are held. -/
theorem record (h : Coherent deltas root doc) (hd : d ∈ deltas) (hnew : d.contentHash ∉ doc.logHashes)
    (hadmissible : Admissible deltas root.did d) (hheld : ∀ p ∈ d.parents, p ∈ doc.logHashes) :
    Coherent deltas root (doc.record d) where
  bootstrap := h.bootstrap
  history := .snoc h.history hadmissible.grounded hnew hheld
  dag := by rw [Document.dag_record, Document.deltaLog_record, DeltaDag.rebuild_concat, h.dag]
  describes := by
    rw [Document.deltaLog_record, eventsOf_concat]
    exact h.describes.apply d.op d.timestamp _ (h.observedDots_sub d.op d.parents)
  did := by rw [Document.did_record, h.did]
  sub := by
    intro e he
    rcases List.mem_append.mp he with he | he
    · exact h.sub he
    · rwa [List.mem_singleton.mp he]
  admitted := by
    intro e he hparents
    rcases List.mem_append.mp he with he | he
    · exact h.admitted e he hparents
    · rwa [List.mem_singleton.mp he]

theorem merge (h : Coherent deltas root doc) (hfree : CollisionFree deltas) (hd : d ∈ deltas) :
    Coherent deltas root (doc.merge d).1 := by
  rcases Document.merge_fst_eq doc d with ⟨haccepts, heq⟩ | ⟨_, heq⟩
  · obtain ⟨hnew, hadmissible, hheld⟩ := (h.accepts_iff hfree).mp haccepts
    rw [heq]
    exact h.record hd hnew hadmissible hheld
  · rwa [heq]

/-! ### Creation -/

theorem new (publicKeyMultibase : String) (hgenesis : Document.genesis publicKeyMultibase ∈ deltas) :
    Coherent deltas (Document.genesis publicKeyMultibase) (Document.new publicKeyMultibase).1 where
  bootstrap := ⟨⟨_, _, _, _⟩, rfl⟩
  history := .start rfl
  dag := rfl
  describes := by
    have hlog : (Document.new publicKeyMultibase).1.deltaLog =
        [] ++ [Document.genesis publicKeyMultibase] := rfl
    rw [hlog, eventsOf_concat]
    have hempty : eventsOf (members []) = ∅ := by simp [eventsOf, members]
    rw [hempty]
    exact (Describes.empty _).apply _ _ [] fun t ht ↦ absurd ht List.not_mem_nil
  did := did_apply _ _ _ _
  sub := fun d hd ↦ by rwa [List.mem_singleton.mp hd]
  admitted := by
    intro d hd hparents
    rw [List.mem_singleton.mp hd] at hparents
    exact absurd rfl hparents

/-! ### Joining histories -/

/-- Merging a history into a log that is a history from the same root: the log stays a history, the
DAG stays the one of the log, and the hashes are those of both. The induction is on the other
history, whose parents come first. -/
theorem logMerge_spec {m : Document.LogMerge} (hlog : History root m.log)
    (hdag : m.dag = .rebuild m.log)
    (hseen : ∀ hash, m.seen.contains hash = true ↔ hash ∈ m.log.map SignedDelta.contentHash)
    {log : List SignedDelta} (hother : History root log) :
    let merged := log.foldl Document.LogMerge.add m
    History root merged.log ∧ merged.dag = .rebuild merged.log ∧
      (∀ hash, merged.seen.contains hash = true ↔
        hash ∈ merged.log.map SignedDelta.contentHash) ∧
      (∀ hash, hash ∈ merged.log.map SignedDelta.contentHash ↔
        hash ∈ m.log.map SignedDelta.contentHash ∨ hash ∈ log.map SignedDelta.contentHash) ∧
      ∀ e ∈ merged.log, e ∈ m.log ∨ e ∈ log := by
  induction hother with
  | start hroot =>
    have hheld : m.seen.contains root.contentHash = true :=
      (hseen _).mpr (List.mem_map_of_mem hlog.root_mem)
    simp only [List.foldl_cons, List.foldl_nil, Document.LogMerge.add, hheld, ↓reduceIte]
    refine ⟨hlog, hdag, hseen, fun hash ↦ ?_, fun e he ↦ Or.inl he⟩
    refine (or_iff_left_of_imp fun hmem ↦ ?_).symm
    rw [List.map_singleton, List.mem_singleton] at hmem
    rw [hmem]
    exact List.mem_map_of_mem hlog.root_mem
  | @snoc log d _ hgrounded _ hparents ih =>
    simp only [List.foldl_append, List.foldl_cons, List.foldl_nil]
    obtain ⟨hhistory, hrebuilt, hcontains, hhashes, hsource⟩ := ih
    set merged := log.foldl Document.LogMerge.add m
    by_cases hheld : merged.seen.contains d.contentHash = true
    · have hadd : merged.add d = merged := by rw [Document.LogMerge.add, if_pos hheld]
      rw [hadd]
      refine ⟨hhistory, hrebuilt, hcontains, fun hash ↦ ?_, fun e he ↦ ?_⟩
      · rw [List.map_append, List.mem_append, ← or_assoc, ← hhashes]
        refine (or_iff_left_of_imp fun hmem ↦ ?_).symm
        rw [List.map_singleton, List.mem_singleton] at hmem
        rw [hmem]
        exact (hcontains _).mp hheld
      · exact (hsource e he).imp_right (List.mem_append_left _)
    · have hadd : merged.add d =
          ⟨merged.seen.insert d.contentHash, merged.log ++ [d], merged.dag.insert d⟩ := by
        rw [Document.LogMerge.add, if_neg hheld]
      have hnew : d.contentHash ∉ merged.log.map SignedDelta.contentHash :=
        fun hmem ↦ hheld ((hcontains _).mpr hmem)
      rw [hadd]
      refine ⟨.snoc hhistory hgrounded hnew fun p hp ↦ (hhashes p).mpr (Or.inr (hparents p hp)),
        ?_, fun hash ↦ ?_, fun hash ↦ ?_, fun e he ↦ ?_⟩
      · rw [DeltaDag.rebuild_concat, hrebuilt]
      · rw [Std.ExtTreeSet.contains_iff_mem, OrderedMaps.set_mem_insert,
          ← Std.ExtTreeSet.contains_iff_mem, hcontains, List.map_append, List.mem_append,
          List.map_singleton, List.mem_singleton, or_comm]
      · rw [List.map_append, List.mem_append, hhashes, List.map_append, List.mem_append, or_assoc]
      · rcases List.mem_append.mp he with he | he
        · exact (hsource e he).imp_right (List.mem_append_left _)
        · exact Or.inr (List.mem_append_right _ he)

/-- The log and the DAG of two replicas merged. -/
theorem mergeState_history (h : Coherent deltas root doc) (h' : Coherent deltas root other) :
    History root (doc.mergeState other).1.deltaLog ∧
      (doc.mergeState other).1.dag = .rebuild (doc.mergeState other).1.deltaLog ∧
      (∀ hash, hash ∈ (doc.mergeState other).1.logHashes ↔
        hash ∈ doc.logHashes ∨ hash ∈ other.logHashes) ∧
      ∀ e ∈ (doc.mergeState other).1.deltaLog, e ∈ doc.deltaLog ∨ e ∈ other.deltaLog := by
  have hdid : other.did = doc.did := h'.did.trans h.did.symm
  have hseen : ∀ hash, (OrderedMaps.insertAll ∅ doc.logHashes).contains hash = true ↔
      hash ∈ doc.deltaLog.map SignedDelta.contentHash := by
    intro hash
    rw [Std.ExtTreeSet.contains_iff_mem, OrderedMaps.mem_insertAll]
    simp [Document.logHashes]
  obtain ⟨hhistory, hrebuilt, _, hhashes, hsource⟩ :=
    logMerge_spec (m := ⟨OrderedMaps.insertAll ∅ doc.logHashes, doc.deltaLog, doc.dag⟩) h.history
      h.dag hseen h'.history
  unfold Document.mergeState
  rw [if_neg (not_not.mpr hdid)]
  exact ⟨hhistory, hrebuilt, hhashes, hsource⟩

theorem mergeState_fields (h : Coherent deltas root doc) (h' : Coherent deltas root other) :
    (doc.mergeState other).1.toCrdtState =
      Document.mergeFields doc.toCrdtState other.toCrdtState := by
  have hdid : other.did = doc.did := h'.did.trans h.did.symm
  unfold Document.mergeState
  rw [if_neg (not_not.mpr hdid)]

/-- Assumes: the deltas do not collide. The events of a merged log are those of both logs. -/
theorem mergeState_events (h : Coherent deltas root doc) (h' : Coherent deltas root other)
    (hfree : CollisionFree deltas) :
    eventsOf (members (doc.mergeState other).1.deltaLog) =
      eventsOf (members doc.deltaLog) ∪ eventsOf (members other.deltaLog) := by
  obtain ⟨_, _, hhashes, hsource⟩ := h.mergeState_history h'
  have hsub : ∀ e ∈ (doc.mergeState other).1.deltaLog, e ∈ deltas := by
    intro e he
    rcases hsource e he with he | he
    · exact h.sub he
    · exact h'.sub he
  have hkept : ∀ e ∈ deltas, e.contentHash ∈ (doc.mergeState other).1.logHashes →
      e.event ∈ eventsOf (members (doc.mergeState other).1.deltaLog) := by
    intro e he hmem
    obtain ⟨e', he', hkey⟩ := List.mem_map.mp hmem
    refine ⟨e', he', Prod.ext ?_ ?_⟩
    · exact hfree.op_eq (hsub e' he') he hkey
    · exact hfree.timestamp_eq (hsub e' he') he hkey
  ext event
  constructor
  · rintro ⟨e, he, rfl⟩
    rcases hsource e he with he | he
    · exact Or.inl ⟨e, he, rfl⟩
    · exact Or.inr ⟨e, he, rfl⟩
  · rintro (⟨e, he, rfl⟩ | ⟨e, he, rfl⟩)
    · exact hkept e (h.sub he) ((hhashes _).mpr (Or.inl (List.mem_map_of_mem he)))
    · exact hkept e (h'.sub he) ((hhashes _).mpr (Or.inr (List.mem_map_of_mem he)))

theorem mergeState (h : Coherent deltas root doc) (h' : Coherent deltas root other)
    (hfree : CollisionFree deltas) : Coherent deltas root (doc.mergeState other).1 := by
  obtain ⟨hhistory, hrebuilt, _, hsource⟩ := h.mergeState_history h'
  refine ⟨h.bootstrap, hhistory, hrebuilt, ?_, ?_, fun e he ↦ ?_, fun e he hparents ↦ ?_⟩
  · rw [h.mergeState_events h' hfree, h.mergeState_fields h']
    exact h.describes.mergeFields h'.describes
  · rw [h.mergeState_fields h']
    exact h.did
  · rcases hsource e he with he | he
    · exact h.sub he
    · exact h'.sub he
  · rcases hsource e he with he | he
    · exact h.admitted e he hparents
    · exact h'.admitted e he hparents

end Coherent

/-! ### Verified ingestion -/

/-- A delta of the source is accepted, its signature verifies, and it is recorded. -/
def VerifiedStep (source : Set SignedDelta) (doc doc' : Document) : Prop :=
  ∃ d ∈ source, Accepts doc d ∧ verifySignature d doc = .ok () ∧ doc' = doc.record d

/-- Verified ingestion: recorded deltas, one after the other. -/
abbrev VerifiedRun (source : Set SignedDelta) : Document → Document → Prop :=
  Relation.ReflTransGen (VerifiedStep source)

namespace Document

theorem mergeVerifiedDelta_run {source : Set SignedDelta} (doc : Document) {d : SignedDelta}
    (hd : d ∈ source) : VerifiedRun source doc (doc.mergeVerifiedDelta d).1 := by
  rcases mergeVerifiedDelta_fst_eq doc d with ⟨haccepts, hsig, heq⟩ | ⟨_, heq⟩
  · rw [heq]
    exact .single ⟨d, hd, haccepts, hsig, rfl⟩
  · rw [heq]

/-- A replay skips a hash or records the delta of the index with that hash. -/
theorem replay_cons {byHash : BundleIndex} {working result : Document} {hash : DeltaHash}
    {order : List DeltaHash} (hok : replay byHash working (hash :: order) = .ok result) :
    replay byHash working order = .ok result ∨
      ∃ d, byHash[hash]? = some d ∧ Accepts working d ∧ verifySignature d working = .ok () ∧
        replay byHash (working.record d) order = .ok result := by
  rw [replay] at hok
  split_ifs at hok with hheld
  · exact Or.inl hok
  cases hget : byHash[hash]? with
  | none => exact Or.inl (by simpa only [hget] using hok)
  | some d =>
    simp only [hget] at hok
    cases hsig : verifySignature d working with
    | error e => simp [hsig] at hok
    | ok _ =>
      simp only [hsig] at hok
      by_cases haccepts : Accepts working d
      · rw [merge_of_accepts haccepts] at hok
        exact Or.inr ⟨d, rfl, haccepts, hsig, hok⟩
      · have hsame := (merge_of_not_accepts haccepts).1
        rcases hmerge : working.merge d with ⟨next, outcome⟩
        rw [hmerge] at hok hsame
        cases outcome with
        | error e => exact absurd hok (by simp)
        | ok _ =>
          obtain rfl : next = working := hsame
          exact Or.inl hok

theorem replay_run {source : Set SignedDelta} {byHash : BundleIndex}
    (hindex : ∀ (k : DeltaHash) (e : SignedDelta), byHash[k]? = some e → e ∈ source)
    (order : List DeltaHash) : ∀ working result : Document,
      replay byHash working order = .ok result → VerifiedRun source working result := by
  induction order with
  | nil =>
    intro working result hok
    rw [Except.ok.inj hok]
  | cons hash order ih =>
    intro working result hok
    rcases replay_cons hok with hskip | ⟨d, hget, haccepts, hsig, hrest⟩
    · exact ih working result hskip
    · exact .head ⟨d, hindex hash d hget, haccepts, hsig, rfl⟩ (ih _ result hrest)

theorem mem_of_indexBundle {bundled : List SignedDelta} {hash : DeltaHash} {d : SignedDelta}
    (hget : (indexBundle bundled)[hash]? = some d) :
    d ∈ bundled ∧ d.contentHash = hash := by
  have hloop : ∀ (l : List SignedDelta) (m : BundleIndex),
      (∀ k e, m[k]? = some e → e ∈ bundled ∧ e.contentHash = k) → (∀ e ∈ l, e ∈ bundled) →
      ∀ k e, (l.foldl (fun m d ↦ m.insert d.contentHash d) m)[k]? = some e →
        e ∈ bundled ∧ e.contentHash = k := by
    intro l
    induction l with
    | nil => exact fun m hm _ ↦ hm
    | cons a l ih =>
      intro m hm hl
      refine ih _ (fun k e hk ↦ ?_) fun e he ↦ hl e (List.mem_cons_of_mem _ he)
      rw [OrderedMaps.getElem?_insert] at hk
      split_ifs at hk with heq
      · obtain rfl := Option.some.inj hk
        exact ⟨hl a List.mem_cons_self, heq⟩
      · exact hm k e hk
  exact hloop bundled ∅ (fun k e hk ↦ by simp at hk) (fun e he ↦ he) hash d hget

/-- A bundle that is refused leaves the document as it was; one that is accepted is replayed. -/
theorem mergeVerifiedBundle_fst_eq (doc : Document) (bundle : ClosureBundle) :
    (doc.mergeVerifiedBundle bundle).1 = doc ∨
      ∃ order, topoOrderBundle (indexBundle bundle.deltas) = .ok order ∧
        replay (indexBundle bundle.deltas) doc order = .ok (doc.mergeVerifiedBundle bundle).1 := by
  unfold mergeVerifiedBundle
  by_cases htarget : (indexBundle bundle.deltas).contains bundle.target = true
  · simp only [htarget, Bool.not_true, Bool.false_eq_true, ↓reduceIte]
    cases (bundle.deltas.flatMap SignedDelta.parents).find? fun p ↦
        !(indexBundle bundle.deltas).contains p && !doc.dag.contains p with
    | some p => exact Or.inl rfl
    | none =>
      cases horder : topoOrderBundle (indexBundle bundle.deltas) with
      | error e => exact Or.inl rfl
      | ok order =>
        cases hreplay : replay (indexBundle bundle.deltas) doc order with
        | error e => exact Or.inl (by simp [hreplay])
        | ok working => exact Or.inr ⟨order, rfl, by simp [hreplay]⟩
  · simp [htarget]

theorem mergeVerifiedBundle_run {source : Set SignedDelta} (doc : Document)
    {bundle : ClosureBundle} (hbundle : ∀ d ∈ bundle.deltas, d ∈ source) :
    VerifiedRun source doc (doc.mergeVerifiedBundle bundle).1 := by
  rcases mergeVerifiedBundle_fst_eq doc bundle with heq | ⟨order, _, hreplay⟩
  · rw [heq]
  · refine replay_run (fun k e hget ↦ ?_) order doc _ hreplay
    exact hbundle e (mem_of_indexBundle hget).1

end Document

namespace Coherent

variable {deltas : Set SignedDelta} {root : SignedDelta} {doc doc' : Document}

theorem verifiedStep (h : Coherent deltas root doc) (hfree : CollisionFree deltas)
    (hstep : VerifiedStep deltas doc doc') : Coherent deltas root doc' := by
  obtain ⟨d, hd, haccepts, _, rfl⟩ := hstep
  obtain ⟨hnew, hadmissible, hheld⟩ := (h.accepts_iff hfree).mp haccepts
  exact h.record hd hnew hadmissible hheld

theorem verifiedRun (h : Coherent deltas root doc) (hfree : CollisionFree deltas)
    (hrun : VerifiedRun deltas doc doc') : Coherent deltas root doc' := by
  induction hrun with
  | refl => exact h
  | tail _ hstep ih => exact ih.verifiedStep hfree hstep

/-- What is loaded of a stored coherent document is that document. -/
theorem eq_of_fromBytes_toBytes [Codec] (hcodec : Codec.Faithful) (h : Coherent deltas root doc)
    (hload : Document.fromBytes doc.toBytes = .ok doc') : doc' = doc :=
  Document.eq_of_fromBytes_toBytes hcodec (List.ne_nil_of_mem h.history.root_mem) h.dag hload

end Coherent

/-! ### Documents that can be reached -/

/-- The documents reached from the creation of a key by merging deltas of the collection, with or
without verification, by joining such documents, and by loading what is stored of them. -/
inductive ReachedWith (loads : Document → Document → Prop) (deltas : Set SignedDelta)
    (publicKeyMultibase : String) : Document → Prop
  | new : ReachedWith loads deltas publicKeyMultibase (Document.new publicKeyMultibase).1
  | merge {doc : Document} {d : SignedDelta} : ReachedWith loads deltas publicKeyMultibase doc →
      d ∈ deltas → ReachedWith loads deltas publicKeyMultibase (doc.merge d).1
  | mergeVerifiedDelta {doc : Document} {d : SignedDelta} :
      ReachedWith loads deltas publicKeyMultibase doc → d ∈ deltas →
      ReachedWith loads deltas publicKeyMultibase (doc.mergeVerifiedDelta d).1
  | mergeVerifiedBundle {doc : Document} {bundle : ClosureBundle} :
      ReachedWith loads deltas publicKeyMultibase doc → (∀ d ∈ bundle.deltas, d ∈ deltas) →
      ReachedWith loads deltas publicKeyMultibase (doc.mergeVerifiedBundle bundle).1
  | mergeState {doc other : Document} : ReachedWith loads deltas publicKeyMultibase doc →
      ReachedWith loads deltas publicKeyMultibase other →
      ReachedWith loads deltas publicKeyMultibase (doc.mergeState other).1
  | load {doc doc' : Document} : ReachedWith loads deltas publicKeyMultibase doc → loads doc doc' →
      ReachedWith loads deltas publicKeyMultibase doc'

/-- The documents reached without storage. -/
abbrev Replica : Set SignedDelta → String → Document → Prop :=
  ReachedWith fun _ _ ↦ False

/-- The documents reached with storage and reload. -/
abbrev Reachable [Codec] : Set SignedDelta → String → Document → Prop :=
  ReachedWith fun doc doc' ↦ Document.fromBytes doc.toBytes = .ok doc'

/-- Assumes: the collection holds the creation delta and does not collide, and loading a coherent
document gives it back. -/
theorem ReachedWith.coherent {loads : Document → Document → Prop} {deltas : Set SignedDelta}
    {publicKeyMultibase : String} {doc : Document} (hfree : CollisionFree deltas)
    (hgenesis : Document.genesis publicKeyMultibase ∈ deltas)
    (hloads : ∀ {doc doc' : Document}, Coherent deltas (Document.genesis publicKeyMultibase) doc →
      loads doc doc' → doc' = doc)
    (h : ReachedWith loads deltas publicKeyMultibase doc) :
    Coherent deltas (Document.genesis publicKeyMultibase) doc := by
  induction h with
  | new => exact .new publicKeyMultibase hgenesis
  | merge _ hd ih => exact ih.merge hfree hd
  | mergeVerifiedDelta _ hd ih =>
    exact ih.verifiedRun hfree (Document.mergeVerifiedDelta_run _ hd)
  | mergeVerifiedBundle _ hbundle ih =>
    exact ih.verifiedRun hfree (Document.mergeVerifiedBundle_run _ hbundle)
  | mergeState _ _ ih ih' => exact ih.mergeState ih' hfree
  | load _ hload ih =>
    rw [hloads ih hload]
    exact ih

/-- Assumes: the collection holds the creation delta and does not collide. -/
theorem Replica.coherent {deltas : Set SignedDelta} {publicKeyMultibase : String} {doc : Document}
    (hfree : CollisionFree deltas) (hgenesis : Document.genesis publicKeyMultibase ∈ deltas)
    (h : Replica deltas publicKeyMultibase doc) :
    Coherent deltas (Document.genesis publicKeyMultibase) doc :=
  ReachedWith.coherent hfree hgenesis (fun _ hload ↦ hload.elim) h

/-- Assumes: the collection holds the creation delta and does not collide, and what is decoded of a stored
document is what was encoded. -/
theorem Reachable.coherent [Codec] {deltas : Set SignedDelta} {publicKeyMultibase : String}
    {doc : Document} (hcodec : Codec.Faithful) (hfree : CollisionFree deltas)
    (hgenesis : Document.genesis publicKeyMultibase ∈ deltas)
    (h : Reachable deltas publicKeyMultibase doc) :
    Coherent deltas (Document.genesis publicKeyMultibase) doc :=
  ReachedWith.coherent hfree hgenesis (fun hdoc hload ↦ hdoc.eq_of_fromBytes_toBytes hcodec hload) h

/-! ### The agreement spelled out -/

end

section Readable

attribute [local instance] Primitives.readable Codec.verbatim

end Readable

end DidCrdt
