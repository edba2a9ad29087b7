import DidCrdt.Theory.SignerBinding
import DidCrdt.Theory.StoreHistory

/-!
# What a store answers to a verified delta

What documents are created with, and keep when a delta is recorded, holds of every document of a store
(`DocumentsHave.runEvents`). So the facts that the checks of a stored document read are those of the deltas it
holds (`FactsHeld`): the floor, which is for facts without deltas, never decides, and the merge of a delta whose
signature verified is decided by the gates and by its causal past alone (`FactsHeld.merge_snd`).
-/

set_option autoImplicit false
set_option relaxedAutoImplicit false

namespace DidCrdt

/-! ### Invariants of stored documents -/

/-- Every document of the store has the property. -/
def DocumentsHave (P : Did → Document → Prop) (docs : Docs) : Prop :=
  ∀ (did : Did) (doc : Document), docs[did]? = some doc → P did doc

namespace DocumentsHave

variable {P : Did → Document → Prop} {docs : Docs} {did : Did} {doc : Document}

theorem empty (P : Did → Document → Prop) : DocumentsHave P ∅ :=
  fun _ _ hget ↦ absurd hget (by simp)

theorem insert (h : DocumentsHave P docs) (hdoc : P did doc) : DocumentsHave P (docs.insert did doc) := by
  intro other held hget
  rw [OrderedMaps.getElem?_insert] at hget
  split_ifs at hget with heq
  · rw [← heq, ← Option.some.inj hget]
    exact hdoc
  · exact h other held hget

end DocumentsHave

section

variable [Primitives]

/-- Documents are created with the property, and keep it when an accepted delta is recorded. -/
structure Inductive (P : Did → Document → Prop) : Prop where
  new : ∀ publicKeyMultibase, P (deriveDid publicKeyMultibase) (Document.new publicKeyMultibase).1
  record : ∀ did doc d, P did doc → Accepts doc d → P did (doc.record d)

namespace Inductive

variable {P : Did → Document → Prop} {docs : Docs} {did : Did} {doc : Document}

theorem merge (hP : Inductive P) (h : P did doc) (d : SignedDelta) : P did (doc.merge d).1 := by
  rcases Document.merge_fst_eq doc d with ⟨haccepts, heq⟩ | ⟨-, heq⟩
  · rw [heq]
    exact hP.record did doc d h haccepts
  · rwa [heq]

theorem recordAll (hP : Inductive P) {source : Set SignedDelta} {run : List SignedDelta} (h : P did doc)
    (hrun : Verifies source doc run) : P did (doc.recordAll run) := by
  induction run generalizing doc with
  | nil => exact h
  | cons d run ih => exact ih (hP.record did doc d h hrun.2.1) hrun.2.2.2

theorem mergeBatch (hP : Inductive P) (h : P did doc) (batch : List SignedDelta) :
    P did (doc.mergeBatch batch) := by
  obtain ⟨run, hspec⟩ := mergeBatch_spec doc batch
  rw [hspec.reaches]
  exact hP.recordAll h hspec.verifies

/-- One write. -/
theorem apply [StateDigests] (hP : Inductive P) (h : DocumentsHave P docs) (event : StoreEvent) :
    DocumentsHave P (event.apply docs) := by
  cases event with
  | createDid publicKeyMultibase => exact h.insert (hP.new publicKeyMultibase)
  | submitDelta didStr delta =>
    change DocumentsHave P (submitDelta docs didStr delta).1
    rcases submitDelta_fst docs didStr delta with ⟨hsame, -⟩ | ⟨doc, hget, -, -, hmerged, -⟩
    · rwa [hsame]
    · rw [hmerged]
      exact h.insert (hP.merge (h _ doc hget) delta)
  | mergeInbound msg policy =>
    change DocumentsHave P (mergeInbound docs msg policy).1
    rcases mergeInbound_cases docs msg policy with ⟨hsame, -⟩ | ⟨did, deltas, -, hmerged⟩
    · rwa [hsame]
    rcases hmerged with ⟨doc, hget, hmerged⟩ | ⟨-, -, publicKeyMultibase, rfl, -, hmerged⟩
    · rw [hmerged]
      exact h.insert (hP.mergeBatch (h did doc hget) deltas)
    · rw [hmerged]
      exact h.insert (hP.mergeBatch (hP.new publicKeyMultibase) _)

/-- A run of writes. -/
theorem runEvents [StateDigests] (hP : Inductive P) (h : DocumentsHave P docs) (events : List StoreEvent) :
    DocumentsHave P (runEvents docs events) := by
  induction events generalizing docs with
  | nil => exact h
  | cons event events ih => exact ih (hP.apply h event)

end Inductive

/-! ### Facts and the deltas behind them -/

/-- Some held delta has the operation. -/
def DeltaDag.Holds (dag : DeltaDag) (op : DeltaOp) : Prop := ∃ d ∈ dag.values, d.op = op

theorem DeltaDag.holds_insert {dag : DeltaDag} {d : SignedDelta} (hnew : dag.contains d.contentHash = false)
    {op : DeltaOp} (h : dag.Holds op ∨ d.op = op) : (dag.insert d).Holds op := by
  have hnew' : ¬ dag.contains d.contentHash = true := by rw [hnew]; exact Bool.false_ne_true
  rcases h with ⟨a, ha, hop⟩ | hop
  · obtain ⟨hash, hget⟩ := (dag.mem_values_iff a).mp ha
    refine ⟨a, (DeltaDag.mem_values_iff _ a).mpr ⟨hash, ?_⟩, hop⟩
    rw [DeltaDag.get_insert, if_neg hnew', if_neg, hget]
    rintro rfl
    exact hnew' ((dag.contains_iff _).mpr ⟨a, hget⟩)
  · refine ⟨d, (DeltaDag.mem_values_iff _ d).mpr ⟨d.contentHash, ?_⟩, hop⟩
    rw [DeltaDag.get_insert, if_neg hnew', if_pos rfl]

/-- The document has a method, and the facts that its checks read are those of held deltas. -/
structure FactsHeld (doc : Document) : Prop where
  grounded : doc.dag.isEmpty = false
  bootstrapped : ∃ e, e ∈ doc.verificationMethods
  methods : ∀ e ∈ doc.verificationMethods, doc.dag.Holds e.addition
  revocations : ∀ k ∈ doc.revokedVerificationMethods, doc.dag.Holds (.revokeVerificationMethod k)
  deactivation : doc.deactivated = true → doc.dag.Holds .deactivate

omit [Primitives] in
/-- An undecided delta misses something. -/
theorem exists_mem_of_unknown {dag : DeltaDag} {d : SignedDelta} {missing : List DeltaHash}
    (h : verifyCausal d dag = .unknown missing) : ∃ hash, hash ∈ missing := by
  by_cases hparents : d.parents = []
  · unfold verifyCausal at h
    rw [hparents] at h
    simp only [List.isEmpty_nil, ↓reduceIte] at h
    grind
  · obtain ⟨hincomplete, -, -, rfl⟩ := (verifyCausal_eq_unknown_iff hparents missing).mp h
    rw [← scanClosure_missing_isEmpty_iff dag d.parents d.signer, List.isEmpty_iff] at hincomplete
    exact List.exists_mem_of_ne_nil _ hincomplete

omit [Primitives] in
/-- A delta that misses nothing is valid when its past authorises it. -/
theorem verifyCausal_eq_valid_iff_of_missingParents {doc : Document} {d : SignedDelta}
    (hgrounded : doc.dag.isEmpty = false) (hmissing : doc.missingParents d = []) :
    verifyCausal d doc.dag = .valid ↔ CausallyAuthorised doc.dag d := by
  by_cases hparents : d.parents = []
  · rw [verifyCausal_of_nil hparents hgrounded]
    refine iff_of_false (by simp) fun hpast ↦ ?_
    obtain ⟨hash, hreaches, -⟩ := hpast.1
    rw [hparents] at hreaches
    clear hpast hmissing
    induction hreaches with
    | root hroot => exact List.not_mem_nil hroot
    | step _ _ _ ih => exact ih
  · rw [verifyCausal_eq_valid_iff hparents]
    refine and_iff_right_of_imp fun hpast ↦ ?_
    by_contra hincomplete
    have hunknown := (verifyCausal_eq_unknown_iff hparents _).mpr ⟨hincomplete, hpast.2.1, hpast.2.2, rfl⟩
    obtain ⟨hash, hmem⟩ := exists_mem_of_unknown hunknown
    rw [Document.missingParents, hunknown] at hmissing
    simp only at hmissing
    rw [hmissing] at hmem
    exact List.not_mem_nil hmem

namespace FactsHeld

variable {doc : Document} {d : SignedDelta}

theorem new (publicKeyMultibase : String) : FactsHeld (Document.new publicKeyMultibase).1 := by
  have hnew : DeltaDag.new.contains (Document.genesis publicKeyMultibase).contentHash = false :=
    Std.ExtTreeMap.contains_empty
  have hroot : (Document.new publicKeyMultibase).1.dag.Holds (Document.genesisOp publicKeyMultibase) :=
    DeltaDag.holds_insert hnew (Or.inr rfl)
  have hmethods : ∀ e : VerificationMethodEntry, e ∈ (Document.new publicKeyMultibase).1.verificationMethods ↔
      e ∈ (∅ : VerificationMethods) ∨ e.addition = Document.genesisOp publicKeyMultibase :=
    fun e ↦ mem_verificationMethods_apply (CrdtState.empty _ _) (Document.genesisOp publicKeyMultibase)
      .default [] e
  refine ⟨?_, ⟨⟨_, _, _, _⟩, (hmethods _).mpr (Or.inr rfl)⟩, fun e he ↦ ?_, fun k hk ↦ ?_, fun hset ↦ ?_⟩
  · exact DeltaDag.isEmpty_eq_false_of_contains _ (GrownFrom.new publicKeyMultibase).contains_genesis
  · rcases (hmethods e).mp he with hnone | hop
    · exact absurd hnone Std.ExtTreeSet.not_mem_empty
    · rwa [hop]
  · have hset := Std.ExtTreeSet.contains_iff_mem.mpr hk
    exact absurd (hset.symm.trans (isVmRevoked_new publicKeyMultibase k)) (by decide)
  · exact absurd (hset.symm.trans (isDeactivated_new publicKeyMultibase)) (by decide)

theorem record (h : FactsHeld doc) (hnew : doc.dag.contains d.contentHash = false) :
    FactsHeld (doc.record d) := by
  have hkeeps : ∀ {op : DeltaOp}, doc.dag.Holds op ∨ op = d.op → (doc.record d).dag.Holds op := by
    intro op hop
    rw [Document.dag_record]
    exact DeltaDag.holds_insert hnew (hop.imp_right Eq.symm)
  refine ⟨?_, ?_, fun e he ↦ hkeeps ?_, fun k hk ↦ hkeeps ?_, fun hset ↦ hkeeps ?_⟩
  · exact DeltaDag.isEmpty_eq_false_of_contains _ (h := d.contentHash)
      ((DeltaDag.contains_insert _ _ _).mpr (Or.inr rfl))
  · obtain ⟨e, he⟩ := h.bootstrapped
    exact ⟨e, (mem_verificationMethods_apply doc.toCrdtState d.op d.timestamp _ e).mpr (Or.inl he)⟩
  · exact ((mem_verificationMethods_apply doc.toCrdtState d.op d.timestamp _ e).mp he).imp_left (h.methods e)
  · exact ((mem_revokedVerificationMethods_apply doc.toCrdtState d.op d.timestamp _ k).mp hk).imp_left
      (h.revocations k)
  · exact ((deactivated_apply doc.toCrdtState d.op d.timestamp _).mp hset).imp_left h.deactivation

/-- A signer whose signature verified is added by a held delta. -/
theorem hasAuthorisingDelta (h : FactsHeld doc) (hsig : verifySignature d doc = .ok ()) :
    doc.dag.hasAuthorisingDelta d.signer = true := by
  obtain ⟨e, hfound, -⟩ := (verifySignature_eq_ok_iff h.bootstrapped).mp hsig
  obtain ⟨he, hid, -⟩ := (VerificationMethods.findId_eq_some_iff _ _ _).mp hfound
  obtain ⟨a, ha, hop⟩ := h.methods e he
  rw [DeltaDag.hasAuthorisingDelta_iff, ← hid]
  exact ⟨a, ha, _, _, _, hop⟩

/-- The floor decides nothing. -/
theorem floor_eq_ok (h : FactsHeld doc) (hsig : verifySignature d doc = .ok ()) :
    doc.stateImportFloor d = .ok () := by
  have hadded := h.hasAuthorisingDelta hsig
  have hdeactivated : doc.deactivated = true → doc.dag.hasDeactivateDelta = true := fun hset ↦
    (doc.dag.hasDeactivateDelta_iff).mpr (h.deactivation hset)
  have hrevoked : doc.revokedVerificationMethods.contains d.signer = true →
      doc.dag.hasRevokingDelta d.signer = true := fun hset ↦
    (doc.dag.hasRevokingDelta_iff _).mpr (h.revocations _ (Std.ExtTreeSet.contains_iff_mem.mp hset))
  unfold Document.stateImportFloor
  cases hd : doc.deactivated <;> cases hr : doc.revokedVerificationMethods.contains d.signer <;>
    simp_all

/-- The causal check of a delta whose past is complete: it passes when it is authorised by its past. -/
theorem causalGate_cases (h : FactsHeld doc) (hsig : verifySignature d doc = .ok ())
    (hmissing : doc.missingParents d = []) :
    doc.causalGate d = .ok () ∧ CausallyAuthorised doc.dag d ∨
      (∃ reason, doc.causalGate d = .error (.unauthorised (causalRefusal reason))) ∧
        ¬ CausallyAuthorised doc.dag d := by
  have hadded := h.hasAuthorisingDelta hsig
  have hauthorised : verifyCausal d doc.dag = .valid ↔ CausallyAuthorised doc.dag d :=
    verifyCausal_eq_valid_iff_of_missingParents h.grounded hmissing
  cases hverdict : verifyCausal d doc.dag with
  | unknown missing =>
    obtain ⟨hash, hmem⟩ := exists_mem_of_unknown hverdict
    rw [Document.missingParents, hverdict] at hmissing
    simp only at hmissing
    rw [hmissing] at hmem
    exact absurd hmem List.not_mem_nil
  | valid => exact Or.inl ⟨by rw [Document.causalGate, hverdict], hauthorised.mp hverdict⟩
  | invalid reason =>
    refine Or.inr ⟨⟨reason, ?_⟩, fun hpast ↦ ?_⟩
    · simp only [Document.causalGate, hverdict, hadded, Bool.not_true, Bool.and_false, Bool.false_eq_true,
        ↓reduceIte]
      rfl
    · exact absurd (hverdict.symm.trans (hauthorised.mpr hpast)) (by simp)

/-- The merge of a delta whose signature verified and whose past is complete. -/
theorem merge_snd (h : FactsHeld doc) (hsig : verifySignature d doc = .ok ())
    (hmissing : doc.missingParents d = []) :
    (∃ err, doc.staticGates d = .error err ∧ (doc.merge d).2 = .error err) ∨
      doc.staticGates d = .ok () ∧
        (doc.dag.contains d.contentHash = true ∧ (doc.merge d).2 = .ok () ∨
          doc.dag.contains d.contentHash = false ∧
            (isCanonicalParents d.parents = false ∧
                (doc.merge d).2 = .error (.deltaRejected "delta parents are not sorted and deduplicated") ∨
              isCanonicalParents d.parents = true ∧
                (CausallyAuthorised doc.dag d ∧ (doc.merge d).2 = .ok () ∨
                  ¬ CausallyAuthorised doc.dag d ∧
                    ∃ reason, (doc.merge d).2 = .error (.unauthorised (causalRefusal reason))))) := by
  have hfloor := h.floor_eq_ok hsig
  unfold Document.merge
  cases hgates : doc.staticGates d with
  | error err => exact Or.inl ⟨err, rfl, rfl⟩
  | ok _ =>
    refine Or.inr ⟨rfl, ?_⟩
    cases hheld : doc.dag.contains d.contentHash with
    | true => exact Or.inl ⟨rfl, by simp⟩
    | false =>
      refine Or.inr ⟨rfl, ?_⟩
      cases hcanonical : isCanonicalParents d.parents with
      | false => exact Or.inl ⟨rfl, by simp⟩
      | true =>
        refine Or.inr ⟨rfl, ?_⟩
        rcases h.causalGate_cases hsig hmissing with ⟨hgate, hpast⟩ | ⟨⟨reason, hgate⟩, hpast⟩
        · exact Or.inl ⟨hpast, by simp [hgate, hfloor]⟩
        · exact Or.inr ⟨hpast, reason, by simp [hgate]⟩

end FactsHeld

/-- The documents of a store were created from their identifier, and hold the deltas behind their facts. -/
theorem inductive_factsHeld :
    Inductive fun (did : Did) (doc : Document) ↦ doc.did = did ∧ FactsHeld doc where
  new publicKeyMultibase := ⟨did_apply _ _ _ _, .new publicKeyMultibase⟩
  record _ doc d h haccepts := ⟨(Document.did_record doc d).trans h.1, h.2.record haccepts.new⟩

end

end DidCrdt
