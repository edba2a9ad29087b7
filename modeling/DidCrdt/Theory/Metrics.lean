import DidCrdt.Service.Metrics
import DidCrdt.Theory.StoreVerdicts
import Mathlib.Algebra.BigOperators.Group.Finset.Basic

/-!
# What the metrics say

Every answer to a write is counted once, under what its status says (`AppState.submitDelta_spec`), so that over
every run of a service the counters are the numbers of its answers (`runService_accounted`). The size recorded
under a label is that of the document of the last accepted write under the label, when it was accepted
(`stateSize_runService`): what peers deliver does not update it. The reasons are less reliable. A delta that is
refused since its document was deactivated is counted as unauthorised, and the reasons for deactivated documents
and stale rotations are only given to aliases that the grammar refuses, for what their text contains
(`rejections_labelled`).
-/

set_option autoImplicit false
set_option relaxedAutoImplicit false

namespace DidCrdt

open scoped BigOperators

/-! ### Sums of counters -/

instance instFintypeRejectionReason : Fintype RejectionReason where
  elems := {.unknownDid, .pending, .invalidSignature, .deactivatedDid, .staleRotation, .unauthorised,
    .rejected}
  complete reason := by cases reason <;> decide

instance instFintypeDocumentSizeBucket : Fintype DocumentSizeBucket where
  elems := {.small, .medium, .large}
  complete bucket := by cases bucket <;> decide

theorem increment_self {κ : Type} [DecidableEq κ] (counter : κ → ℕ) (label : κ) :
    increment counter label label = counter label + 1 := Function.update_self ..

theorem increment_of_ne {κ : Type} [DecidableEq κ] (counter : κ → ℕ) {label other : κ} (h : other ≠ label) :
    increment counter label other = counter other := Function.update_of_ne h ..

theorem increment_apply {κ : Type} [DecidableEq κ] (counter : κ → ℕ) (label other : κ) :
    increment counter label other = counter other + if label = other then 1 else 0 := by
  split_ifs with heq
  · rw [heq, increment_self]
  · exact increment_of_ne counter (Ne.symm heq)

theorem sum_increment {κ : Type} [DecidableEq κ] [Fintype κ] (counter : κ → ℕ) (label : κ) :
    ∑ k, increment counter label k = ∑ k, counter k + 1 := by
  simp only [increment_apply, Finset.sum_add_distrib, Finset.sum_ite_eq, Finset.mem_univ, if_true]

/-! ### What a submission is counted as -/

/-- What a submission is counted as. -/
inductive Counted
  | nothing
  | accepted
  | rejected (reason : RejectionReason)
deriving DecidableEq, Repr

/-- What the merge of a submission is counted as. -/
def Counted.ofMerge : Except Error Unit → Counted
  | .ok () => .accepted
  | .error (.deltaPending _) => .rejected .pending
  | .error err => .rejected (rejectionReason err)

/-- The outcome that is counted. -/
def Counted.outcome : Counted → Option DeltaOutcome
  | .nothing => none
  | .accepted => some .accepted
  | .rejected _ => some .rejected

/-- The outcome that an answer tells. -/
def Response.outcome (response : Response) : Option DeltaOutcome :=
  match response.status with
  | .created | .accepted => some .accepted
  | .forbidden | .notFound | .conflict => some .rejected
  | .badRequest | .payloadTooLarge => none

/-- The metrics after a submission. -/
def Metrics.count (metrics : Metrics) (label : String) (size : ℤ) : Counted → Metrics
  | .nothing => metrics
  | .accepted => metrics.recordDeltaAccepted label size
  | .rejected reason => metrics.recordDeltaRejected reason

/-- What a service answers. A delivery has no answer. -/
inductive ServiceAnswer
  | written (response : Response)
  | resolved (answer : ResolutionAnswer)
  | silent

namespace ServiceAnswer

/-- The outcome that the answer to a write tells. -/
def outcome : ServiceAnswer → Option DeltaOutcome
  | .written response => response.outcome
  | _ => none

/-- The result that the answer to a resolution carries. -/
def result : ServiceAnswer → Option ResolutionResult
  | .resolved answer => answer.result
  | _ => none

end ServiceAnswer

/-! ### Counters and answers -/

/-- The counters are the numbers of the answers: of the writes by the outcome that they tell, and of the
resolutions that carry a result. Every rejection has a reason. -/
structure Accounted (metrics : Metrics) (answers : List ServiceAnswer) : Prop where
  deltasMerged : ∀ outcome,
    metrics.deltasMerged outcome = answers.countP fun answer ↦ answer.outcome = some outcome
  deltaRejections : ∑ reason, metrics.deltaRejections reason = metrics.deltasMerged .rejected
  resolutions : ∑ bucket, metrics.resolutions bucket = answers.countP fun answer ↦ answer.result.isSome

namespace Accounted

variable {metrics : Metrics} {answers : List ServiceAnswer}

theorem new : Accounted .new [] := ⟨fun _ ↦ rfl, Finset.sum_const_zero, Finset.sum_const_zero⟩

/-- One answer, which tells an outcome and carries no result. -/
theorem count (h : Accounted metrics answers) (answer : ServiceAnswer) (counted : Counted)
    (label : String) (size : ℤ) (houtcome : answer.outcome = counted.outcome) (hresult : answer.result = none) :
    Accounted (metrics.count label size counted) (answers ++ [answer]) := by
  have hmerged : ∀ outcome, (metrics.count label size counted).deltasMerged outcome =
      metrics.deltasMerged outcome + if counted.outcome = some outcome then 1 else 0 := by
    intro outcome
    cases counted with
    | nothing => simp [Metrics.count, Counted.outcome]
    | accepted =>
      refine (increment_apply metrics.deltasMerged .accepted outcome).trans ?_
      simp [Counted.outcome]
    | rejected reason =>
      refine (increment_apply metrics.deltasMerged .rejected outcome).trans ?_
      simp [Counted.outcome]
  refine ⟨fun outcome ↦ ?_, ?_, ?_⟩
  · rw [hmerged, h.deltasMerged, List.countP_append, List.countP_singleton, houtcome]
    simp
  · rw [hmerged, ← h.deltaRejections]
    cases counted with
    | nothing => simp [Metrics.count, Counted.outcome]
    | accepted => simp [Metrics.count, Metrics.recordDeltaAccepted, Counted.outcome]
    | rejected reason => exact sum_increment metrics.deltaRejections reason
  · rw [List.countP_append, List.countP_singleton, hresult]
    cases counted <;> exact h.resolutions

/-- One resolution, whose answer tells no outcome. -/
theorem observe (h : Accounted metrics answers) (answer : ServiceAnswer) (houtcome : answer.outcome = none)
    (fieldCount : ResolutionResult → ℕ) :
    Accounted (answer.result.elim metrics fun result ↦ metrics.observeResolution (fieldCount result))
      (answers ++ [answer]) := by
  have hmerged : ∀ outcome, (answers ++ [answer]).countP (fun answer ↦ answer.outcome = some outcome) =
      answers.countP fun answer ↦ answer.outcome = some outcome := by
    intro outcome
    rw [List.countP_append, List.countP_singleton, houtcome]
    simp
  cases hresult : answer.result with
  | none =>
    refine ⟨fun outcome ↦ (h.deltasMerged outcome).trans (hmerged outcome).symm, h.deltaRejections, ?_⟩
    rw [List.countP_append, List.countP_singleton, hresult]
    exact h.resolutions
  | some result =>
    refine ⟨fun outcome ↦ (h.deltasMerged outcome).trans (hmerged outcome).symm, h.deltaRejections, ?_⟩
    rw [List.countP_append, List.countP_singleton, hresult, ← h.resolutions]
    exact sum_increment metrics.resolutions _

end Accounted

@[simp] theorem Metrics.stateSize_count_accepted (metrics : Metrics) (label : String) (size : ℤ) :
    (metrics.count label size .accepted).stateSize label = some size := Function.update_self ..

theorem Metrics.stateSize_count_of_ne (metrics : Metrics) {label other : String} (size : ℤ) (h : other ≠ label) :
    (metrics.count label size .accepted).stateSize other = metrics.stateSize other :=
  Function.update_of_ne h ..

theorem Metrics.count_eq_rejected_iff (metrics : Metrics) (label : String) (size : ℤ) (counted : Counted)
    (reason : RejectionReason) :
    metrics.count label size counted = metrics.recordDeltaRejected reason ↔ counted = .rejected reason := by
  refine ⟨fun h ↦ ?_, fun h ↦ by rw [h]; rfl⟩
  have hcount : (metrics.count label size counted).deltaRejections reason =
      metrics.deltaRejections reason + 1 := by
    rw [h]
    exact increment_self _ _
  cases counted with
  | rejected other =>
    have hother := (increment_apply metrics.deltaRejections other reason).symm.trans hcount
    split_ifs at hother with heq
    · rw [heq]
    · omega
  | _ => exact absurd hcount (Nat.succ_ne_self _).symm

/-- The refusal of a reserved name contains neither word. -/
theorem rejectionReason_reserved [Primitives] : ∀ key ∈ reservedDocumentProperties,
    rejectionReason (.deltaRejected
      s!"documentData key {debugString key} is a reserved DID Core property") = .rejected := by
  have htext : ∀ key, (s!"documentData key {debugString key} is a reserved DID Core property").toList =
      "documentData key ".toList ++
        ((debugString key).toList ++ " is a reserved DID Core property".toList) := by
    intro key
    simp only [String.toList_append, List.append_assoc]
    rfl
  -- the words are looked for in the parts, which are short enough to be computed
  have hwords : ∀ key ∈ reservedDocumentProperties, ∀ word ∈ ["deactivated", "seq"],
      ¬ word.toList <:+: "documentData key ".toList ++
        (('"' :: key.toList ++ ['"']) ++ " is a reserved DID Core property".toList) := by decide +kernel
  have hplain : ∀ key ∈ reservedDocumentProperties, ∀ c ∈ key.toList,
      31 < c.toNat ∧ c.toNat < 127 ∧ c ≠ '"' ∧ c ≠ '\\' := by simp [reservedDocumentProperties]
  intro key hkey
  simp only [rejectionReason, containsWord, htext, toList_debugString_of_plain (hplain key hkey)]
  rw [decide_eq_false (hwords key hkey _ (by simp)), decide_eq_false (hwords key hkey _ (by simp))]
  rfl

section

variable [Primitives]

/-- What a submission to a store is counted as. -/
def countedAs (docs : Docs) (didStr : String) (delta : SignedDelta) : Counted :=
  if maxDeltaSize < Primitives.serialisedSize delta ∨ delta.did.toString ≠ didStr then .nothing
  else
    match docs[delta.did]? with
    | none => .rejected .unknownDid
    | some doc =>
      if doc.missingParents delta ≠ [] then .rejected .pending
      else
        match verifySignature delta doc with
        | .error _ => .rejected .invalidSignature
        | .ok () => .ofMerge (doc.merge delta).2

/-- A delta that is not too large is not refused for its size. -/
theorem merge_ne_tooLarge (doc : Document) {d : SignedDelta}
    (hsize : ¬ maxDeltaSize < Primitives.serialisedSize d) (size max : ℕ) :
    (doc.merge d).2 ≠ .error (.deltaTooLarge size max) := by
  intro h
  unfold Document.merge at h
  cases hgates : doc.staticGates d with
  | error e =>
    simp only [hgates, Except.error.injEq] at h
    subst h
    unfold Document.staticGates at hgates
    rw [if_neg hsize] at hgates
    have haliases := fun uris (hu : recogniseAlsoKnownAs uris = .error (.deltaTooLarge size max)) ↦
      recogniseAlsoKnownAs_error hu
    grind
  | ok _ =>
    simp only [hgates] at h
    unfold Document.causalGate Document.stateImportFloor at h
    grind

/-- A submission with its metrics: it leaves and answers what the plain one does, and counts it under the
outcome that the answer tells. -/
theorem AppState.submitDelta_spec (storedSize : Document → ℤ) (state : AppState) (didStr : String)
    (delta : SignedDelta) :
    (state.submitDelta storedSize didStr delta).1.docs = (DidCrdt.submitDelta state.docs didStr delta).1 ∧
      (state.submitDelta storedSize didStr delta).2 = (DidCrdt.submitDelta state.docs didStr delta).2 ∧
      (state.submitDelta storedSize didStr delta).1.metrics = state.metrics.count (truncateDid didStr)
        (((DidCrdt.submitDelta state.docs didStr delta).1[delta.did]?).elim 0 storedSize)
        (countedAs state.docs didStr delta) ∧
      (DidCrdt.submitDelta state.docs didStr delta).2.outcome =
        (countedAs state.docs didStr delta).outcome := by
  unfold AppState.submitDelta DidCrdt.submitDelta countedAs
  by_cases hsize : maxDeltaSize < Primitives.serialisedSize delta
  · simp [hsize, Metrics.count, Counted.outcome, Response.outcome]
  by_cases hpath : delta.did.toString = didStr
  · cases hget : state.docs[delta.did]? with
    | none => simp [hsize, hpath, hget, Metrics.count, Counted.outcome, Response.outcome]
    | some doc =>
      by_cases hmissing : doc.missingParents delta = []
      · cases hsig : verifySignature delta doc with
        | error err => simp [hsize, hpath, hget, hmissing, hsig, Metrics.count, Counted.outcome, Response.outcome]
        | ok _ =>
          have hlarge := merge_ne_tooLarge doc hsize
          rcases hmerge : doc.merge delta with ⟨next, outcome⟩
          rw [hmerge] at hlarge
          cases outcome with
          | ok _ =>
            simp [hsize, hpath, hget, hmissing, hsig, hmerge, Metrics.count, Counted.ofMerge, Counted.outcome,
              Response.outcome]
          | error err =>
            cases err with
            | deltaTooLarge size max => exact absurd rfl (hlarge size max)
            | _ =>
              simp [hsize, hpath, hget, hmissing, hsig, hmerge, Metrics.count, Counted.ofMerge, Counted.outcome,
                Response.outcome, pendingResponse, coreErrorResponse, rejectionReason]
      · simp [hsize, hpath, hget, hmissing, Metrics.count, Counted.outcome, Response.outcome, pendingResponse]
  · simp [hsize, hpath, Metrics.count, Counted.outcome, Response.outcome]

/-- A creation with its metrics. -/
theorem AppState.createDid_spec [StateDigests] (storedSize : Document → ℤ) (state : AppState)
    (publicKeyMultibase : String) :
    (state.createDid storedSize publicKeyMultibase).1.docs =
        state.docs.insert (deriveDid publicKeyMultibase) (Document.new publicKeyMultibase).1 ∧
      (state.createDid storedSize publicKeyMultibase).1.metrics =
        state.metrics.count (truncateDid (deriveDid publicKeyMultibase).toString)
          (storedSize (Document.new publicKeyMultibase).1) .accepted ∧
      (state.createDid storedSize publicKeyMultibase).2.outcome = some .accepted := by
  have hdid : (Document.new publicKeyMultibase).1.did = deriveDid publicKeyMultibase := did_apply _ _ _ _
  unfold AppState.createDid
  rw [← hdid]
  exact ⟨rfl, rfl, rfl⟩

/-- A resolution with its metrics. -/
theorem AppState.resolveDid_spec [StateDigests] (state : AppState) (didStr : String)
    (includeClosure : Option String) :
    (state.resolveDid didStr includeClosure).1.docs = state.docs ∧
      (state.resolveDid didStr includeClosure).1.metrics =
        (state.resolveDid didStr includeClosure).2.result.elim state.metrics
          (fun result ↦ state.metrics.observeResolution result.fieldCount) ∧
      (state.resolveDid didStr includeClosure).2 = DidCrdt.resolveDid state.docs didStr includeClosure := by
  unfold AppState.resolveDid
  cases hresult : (DidCrdt.resolveDid state.docs didStr includeClosure).result with
  | none => simp [hresult]
  | some result => simp [hresult]

/-! ### Runs of a service -/

/-- What happens to a service: a request, or the delivery of a payload. -/
inductive ServiceEvent
  | createDid (publicKeyMultibase : String)
  | submitDelta (didStr : String) (delta : SignedDelta)
  | resolveDid (didStr : String) (includeClosure : Option String)
  | mergeInbound (msg : SyncMessage) (policy : BootstrapPolicy)

namespace ServiceEvent

/-- The write to the store. -/
def write : ServiceEvent → Option StoreEvent
  | .createDid publicKeyMultibase => some (.createDid publicKeyMultibase)
  | .submitDelta didStr delta => some (.submitDelta didStr delta)
  | .resolveDid _ _ => none
  | .mergeInbound msg policy => some (.mergeInbound msg policy)

/-- The document that a request to write is for. -/
def target : ServiceEvent → Option Did
  | .createDid publicKeyMultibase => some (deriveDid publicKeyMultibase)
  | .submitDelta _ delta => some delta.did
  | _ => none

variable [StateDigests] (storedSize : Document → ℤ)

/-- The service after an event, and its answer. -/
def apply (state : AppState) : ServiceEvent → AppState × ServiceAnswer
  | .createDid publicKeyMultibase =>
    let (state, response) := state.createDid storedSize publicKeyMultibase
    (state, .written response)
  | .submitDelta didStr delta =>
    let (state, response) := state.submitDelta storedSize didStr delta
    (state, .written response)
  | .resolveDid didStr includeClosure =>
    let (state, answer) := state.resolveDid didStr includeClosure
    (state, .resolved answer)
  | .mergeInbound msg policy => (state.mergeInbound msg policy, .silent)

end ServiceEvent

section Runs

variable [StateDigests] (storedSize : Document → ℤ)

/-- A service after some events, from no documents and nothing counted, and what it answered. -/
def runService (events : List ServiceEvent) : AppState × List ServiceAnswer :=
  events.foldl
    (fun run event ↦
      ((event.apply storedSize run.1).1, run.2 ++ [(event.apply storedSize run.1).2]))
    (.new, [])

theorem runService_concat (events : List ServiceEvent) (event : ServiceEvent) :
    runService storedSize (events ++ [event]) =
      ((event.apply storedSize (runService storedSize events).1).1,
        (runService storedSize events).2 ++ [(event.apply storedSize (runService storedSize events).1).2]) := by
  unfold runService
  rw [List.foldl_append]
  rfl

/-- The documents after an event are those of the store. -/
theorem ServiceEvent.docs_apply (state : AppState) (event : ServiceEvent) :
    (event.apply storedSize state).1.docs =
      (event.write.toList.foldl StoreEvent.apply state.docs) := by
  cases event with
  | createDid publicKeyMultibase => rfl
  | submitDelta didStr delta => exact (state.submitDelta_spec storedSize didStr delta).1
  | resolveDid didStr includeClosure => exact (state.resolveDid_spec didStr includeClosure).1
  | mergeInbound msg policy => rfl

theorem runService_docs (events : List ServiceEvent) :
    (runService storedSize events).1.docs = runEvents ∅ (events.filterMap ServiceEvent.write) := by
  induction events using List.reverseRecOn with
  | nil => rfl
  | append_singleton events event ih =>
    rw [runService_concat, ServiceEvent.docs_apply, ih, List.filterMap_append, runEvents, runEvents,
      List.foldl_append]
    cases hwrite : event.write <;> simp [hwrite]

/-! ### The counters -/

/-- An event keeps the counters accounted. -/
theorem ServiceEvent.accounted {state : AppState} {answers : List ServiceAnswer}
    (h : Accounted state.metrics answers) (event : ServiceEvent) :
    Accounted (event.apply storedSize state).1.metrics (answers ++ [(event.apply storedSize state).2]) := by
  cases event with
  | createDid publicKeyMultibase =>
    obtain ⟨-, hmetrics, houtcome⟩ := state.createDid_spec storedSize publicKeyMultibase
    change Accounted (state.createDid storedSize publicKeyMultibase).1.metrics
      (answers ++ [.written (state.createDid storedSize publicKeyMultibase).2])
    rw [hmetrics]
    exact h.count (.written _) .accepted _ _ houtcome rfl
  | submitDelta didStr delta =>
    obtain ⟨-, hanswer, hmetrics, houtcome⟩ := state.submitDelta_spec storedSize didStr delta
    change Accounted (state.submitDelta storedSize didStr delta).1.metrics
      (answers ++ [.written (state.submitDelta storedSize didStr delta).2])
    rw [hmetrics, hanswer]
    exact h.count (.written _) _ _ _ houtcome rfl
  | resolveDid didStr includeClosure =>
    change Accounted (state.resolveDid didStr includeClosure).1.metrics
      (answers ++ [.resolved (state.resolveDid didStr includeClosure).2])
    rw [(state.resolveDid_spec didStr includeClosure).2.1]
    exact h.observe (.resolved _) rfl _
  | mergeInbound msg policy => exact h.count .silent .nothing "" 0 rfl rfl

/-- Over every run the documents are those of the writes, and the counters are the numbers of the answers. -/
theorem runService_accounted (events : List ServiceEvent) :
    (runService storedSize events).1.docs = runEvents ∅ (events.filterMap ServiceEvent.write) ∧
      Accounted (runService storedSize events).1.metrics (runService storedSize events).2 := by
  refine ⟨runService_docs storedSize events, ?_⟩
  induction events using List.reverseRecOn with
  | nil => exact .new
  | append_singleton events event ih =>
    rw [runService_concat]
    exact event.accounted storedSize ih

/-! ### The recorded sizes -/

/-- The label of the document that a request to write is for. -/
def ServiceEvent.label (event : ServiceEvent) : Option String :=
  event.target.map fun did ↦ truncateDid did.toString

/-- The event is a write under the label that is accepted. -/
def ServiceEvent.Records (state : AppState) (label : String) (event : ServiceEvent) : Prop :=
  event.label = some label ∧ (event.apply storedSize state).2.outcome = some .accepted

omit [StateDigests] in
/-- An accepted submission names the document of its path, and leaves it stored. -/
theorem countedAs_eq_accepted {docs : Docs} {didStr : String} {delta : SignedDelta}
    (h : countedAs docs didStr delta = .accepted) :
    delta.did.toString = didStr ∧
      ∃ doc, (DidCrdt.submitDelta docs didStr delta).1[delta.did]? = some doc := by
  have hpath : delta.did.toString = didStr := by
    by_contra hpath
    simp [countedAs, hpath] at h
  have hheld : ∃ doc, docs[delta.did]? = some doc := by
    cases hget : docs[delta.did]? with
    | none =>
      unfold countedAs at h
      split_ifs at h
      simp [hget] at h
    | some doc => exact ⟨doc, rfl⟩
  refine ⟨hpath, ?_⟩
  rcases submitDelta_fst docs didStr delta with ⟨hsame, -⟩ | ⟨doc, -, -, -, hmerged, -⟩
  · rwa [hsame]
  · rw [hmerged]
    exact ⟨_, Std.ExtTreeMap.getElem?_insert_self⟩

/-- An accepted write records the size of its document under its label. -/
theorem ServiceEvent.Records.stateSize {state : AppState} {label : String} {event : ServiceEvent}
    (h : event.Records storedSize state label) :
    ∃ did doc, event.target = some did ∧ (event.apply storedSize state).1.docs[did]? = some doc ∧
      (event.apply storedSize state).1.metrics.stateSize label = some (storedSize doc) := by
  obtain ⟨hlabel, houtcome⟩ := h
  cases event with
  | createDid publicKeyMultibase =>
    obtain ⟨hdocs, hmetrics, -⟩ := state.createDid_spec storedSize publicKeyMultibase
    obtain rfl : truncateDid (deriveDid publicKeyMultibase).toString = label := Option.some.inj hlabel
    refine ⟨deriveDid publicKeyMultibase, (Document.new publicKeyMultibase).1, rfl,
      (congrArg (·[deriveDid publicKeyMultibase]?) hdocs).trans Std.ExtTreeMap.getElem?_insert_self, ?_⟩
    change (state.createDid storedSize publicKeyMultibase).1.metrics.stateSize _ = _
    rw [hmetrics, Metrics.stateSize_count_accepted]
  | submitDelta didStr delta =>
    obtain ⟨hdocs, hanswer, hmetrics, hspec⟩ := state.submitDelta_spec storedSize didStr delta
    have hcounted : (countedAs state.docs didStr delta).outcome = some .accepted := by
      rw [← hspec, ← hanswer]
      exact houtcome
    have haccepted : countedAs state.docs didStr delta = .accepted := by
      cases hcase : countedAs state.docs didStr delta with
      | accepted => rfl
      | _ => simp [hcase, Counted.outcome] at hcounted
    obtain ⟨hpath, doc, hget⟩ := countedAs_eq_accepted haccepted
    obtain rfl : truncateDid didStr = label := by
      rw [← hpath]
      exact Option.some.inj hlabel
    refine ⟨delta.did, doc, rfl, (congrArg (·[delta.did]?) hdocs).trans hget, ?_⟩
    change (state.submitDelta storedSize didStr delta).1.metrics.stateSize _ = _
    rw [hmetrics, haccepted, hget, Metrics.stateSize_count_accepted]
    rfl
  | resolveDid didStr includeClosure => exact absurd hlabel (by simp [ServiceEvent.label, target])
  | mergeInbound msg policy => exact absurd hlabel (by simp [ServiceEvent.label, target])

/-- Every other event leaves the size that is recorded under the label. -/
theorem ServiceEvent.stateSize_apply {state : AppState} {label : String} {event : ServiceEvent}
    (h : ¬ event.Records storedSize state label) :
    (event.apply storedSize state).1.metrics.stateSize label = state.metrics.stateSize label := by
  cases event with
  | createDid publicKeyMultibase =>
    obtain ⟨-, hmetrics, houtcome⟩ := state.createDid_spec storedSize publicKeyMultibase
    change (state.createDid storedSize publicKeyMultibase).1.metrics.stateSize label = _
    rw [hmetrics, Metrics.stateSize_count_of_ne]
    exact fun heq ↦ h ⟨congrArg some heq.symm, houtcome⟩
  | submitDelta didStr delta =>
    obtain ⟨-, hanswer, hmetrics, hspec⟩ := state.submitDelta_spec storedSize didStr delta
    change (state.submitDelta storedSize didStr delta).1.metrics.stateSize label = _
    rw [hmetrics]
    cases hcase : countedAs state.docs didStr delta with
    | accepted =>
      refine Metrics.stateSize_count_of_ne _ _ fun heq ↦ h ⟨?_, ?_⟩
      · rw [heq, ← (countedAs_eq_accepted hcase).1]
        rfl
      · exact (congrArg Response.outcome hanswer).trans (hspec.trans (congrArg Counted.outcome hcase))
    | _ => rfl
  | resolveDid didStr includeClosure =>
    change (state.resolveDid didStr includeClosure).1.metrics.stateSize label = _
    rw [(state.resolveDid_spec didStr includeClosure).2.1]
    cases (state.resolveDid didStr includeClosure).2.result <;> rfl
  | mergeInbound msg policy => rfl

/-- The size that is recorded under a label is that of the document of the last accepted write under the label,
as it was after that write. -/
theorem stateSize_runService (before after : List ServiceEvent) (event : ServiceEvent) (label : String)
    (hevent : event.Records storedSize (runService storedSize before).1 label)
    (hafter : ∀ first later rest, after = first ++ later :: rest →
      ¬ later.Records storedSize (runService storedSize (before ++ event :: first)).1 label) :
    ∃ did doc, event.target = some did ∧
      (runService storedSize (before ++ [event])).1.docs[did]? = some doc ∧
      (runService storedSize (before ++ event :: after)).1.metrics.stateSize label = some (storedSize doc) := by
  obtain ⟨did, doc, htarget, hget, hsize⟩ := hevent.stateSize
  refine ⟨did, doc, htarget, ?_, ?_⟩
  · rw [runService_concat]
    exact hget
  induction after using List.reverseRecOn with
  | nil =>
    rw [runService_concat]
    exact hsize
  | append_singleton after later ih =>
    have hbefore := ih fun first other rest hsplit ↦ hafter first other (rest ++ [later]) (by simp [hsplit])
    rw [← List.cons_append, ← List.append_assoc, runService_concat,
      ServiceEvent.stateSize_apply storedSize (hafter after later [] rfl)]
    exact hbefore

/-! ### The reasons -/

/-- The submission comes to the merge of its delta into the document. -/
structure ReachesMerge (docs : Docs) (didStr : String) (delta : SignedDelta) (doc : Document) : Prop where
  size : ¬ maxDeltaSize < Primitives.serialisedSize delta
  path : delta.did.toString = didStr
  held : docs[delta.did]? = some doc
  complete : doc.missingParents delta = []
  verified : verifySignature delta doc = .ok ()

/-- The reasons that are read off the text of an error. -/
def RejectionReason.OfText (reason : RejectionReason) : Prop :=
  reason = .deactivatedDid ∨ reason = .staleRotation

omit [StateDigests] in
theorem ReachesMerge.countedAs {docs : Docs} {didStr : String} {delta : SignedDelta} {doc : Document}
    (h : ReachesMerge docs didStr delta doc) : countedAs docs didStr delta = .ofMerge (doc.merge delta).2 := by
  simp [DidCrdt.countedAs, h.size, h.path, h.held, h.complete, h.verified]

omit [StateDigests] in
/-- A rejection that is not for an earlier check is for the merge. -/
theorem exists_reachesMerge {docs : Docs} {didStr : String} {delta : SignedDelta} {reason : RejectionReason}
    (h : countedAs docs didStr delta = .rejected reason)
    (hreason : reason.OfText ∨ reason = .unauthorised) : ∃ doc, ReachesMerge docs didStr delta doc := by
  have hnot : reason ≠ .unknownDid ∧ reason ≠ .pending ∧ reason ≠ .invalidSignature := by
    rcases hreason with (rfl | rfl) | rfl <;> decide
  unfold DidCrdt.countedAs at h
  split_ifs at h with hearly
  push Not at hearly
  cases hget : docs[delta.did]? with
  | none =>
    simp only [hget, Counted.rejected.injEq] at h
    exact absurd h.symm hnot.1
  | some doc =>
    simp only [hget] at h
    split_ifs at h with hmissing
    · exact absurd (Counted.rejected.inj h).symm hnot.2.1
    cases hsig : verifySignature delta doc with
    | error err =>
      simp only [hsig, Counted.rejected.injEq] at h
      exact absurd h.symm hnot.2.2
    | ok _ => exact ⟨doc, not_lt.mpr hearly.1, hearly.2, hget, not_not.mp hmissing, hsig⟩

omit [StateDigests] in
/-- The gates of a stored document refuse reserved names, and aliases that the grammar refuses. -/
theorem staticGates_eq_error {doc : Document} {d : SignedDelta} {err : Error}
    (hsize : ¬ maxDeltaSize < Primitives.serialisedSize d) (hdid : d.did = doc.did)
    (h : doc.staticGates d = .error err) :
    (∃ uris, d.op = .setAlsoKnownAs uris ∧ recogniseAlsoKnownAs uris = .error err) ∨
      (∀ uris, d.op ≠ .setAlsoKnownAs uris) ∧ rejectionReason err = .rejected := by
  rw [Document.staticGates, if_neg hsize, if_neg (not_not.mpr hdid)] at h
  cases hop : d.op with
  | setAlsoKnownAs uris =>
    rw [hop] at h
    exact Or.inl ⟨uris, rfl, h⟩
  | setDocumentData key value =>
    simp only [hop] at h
    split_ifs at h with hreserved
    rw [← Except.error.inj h]
    exact Or.inr ⟨by simp, rejectionReason_reserved key (List.contains_iff_mem.mp hreserved)⟩
  | _ => simp [hop] at h

omit [StateDigests] in
/-- What a submission that comes to the merge is counted as: its aliases are refused, or else it is refused by
another gate, accepted, or not authorised by its past. -/
theorem ReachesMerge.cases {docs : Docs} {didStr : String} {delta : SignedDelta} {doc : Document}
    (h : ReachesMerge docs didStr delta doc) (hdid : doc.did = delta.did) (hfacts : FactsHeld doc) :
    (∃ uris err, delta.op = .setAlsoKnownAs uris ∧ recogniseAlsoKnownAs uris = .error err ∧
        DidCrdt.countedAs docs didStr delta = .rejected (rejectionReason err)) ∨
      (∀ uris, delta.op = .setAlsoKnownAs uris → recogniseAlsoKnownAs uris = .ok ()) ∧
        (DidCrdt.countedAs docs didStr delta = .rejected .rejected ∧ ¬ PassesGates doc.did delta ∨
          DidCrdt.countedAs docs didStr delta = .accepted ∧
            (doc.dag.contains delta.contentHash = true ∨ CausallyAuthorised doc.dag delta) ∨
          DidCrdt.countedAs docs didStr delta = .rejected .unauthorised ∧ PassesGates doc.did delta ∧
            doc.dag.contains delta.contentHash = false ∧ ¬ CausallyAuthorised doc.dag delta) := by
  have hpasses := staticGates_eq_ok_iff doc delta
  rw [h.countedAs]
  rcases hfacts.merge_snd h.verified h.complete with ⟨err, hgates, hmerge⟩ | ⟨hgates, hmerge⟩
  · have hcounted : Counted.ofMerge (doc.merge delta).2 = .rejected (rejectionReason err) := by
      rw [hmerge]
      rcases staticGates_error hgates with ⟨text, rfl⟩ | ⟨size, max, rfl⟩ <;> rfl
    rw [hcounted]
    rcases staticGates_eq_error h.size hdid.symm hgates with ⟨uris, hop, hrefused⟩ | ⟨hop, hreason⟩
    · exact Or.inl ⟨uris, err, hop, hrefused, rfl⟩
    · refine Or.inr ⟨fun uris huris ↦ absurd huris (hop uris), Or.inl ⟨by rw [hreason], fun hpassed ↦ ?_⟩⟩
      exact absurd (hgates.symm.trans (hpasses.mpr hpassed).1) (by simp)
  have haliases : ∀ uris, delta.op = .setAlsoKnownAs uris → recogniseAlsoKnownAs uris = .ok () := by
    intro uris hop
    rw [Document.staticGates, if_neg h.size, if_neg (not_not.mpr hdid.symm), hop] at hgates
    exact hgates
  refine Or.inr ⟨haliases, ?_⟩
  rcases hmerge with ⟨hheld, hmerge⟩ | ⟨hnew, ⟨hcanonical, hmerge⟩ | ⟨hcanonical, hmerge⟩⟩
  · rw [hmerge]
    exact Or.inr (Or.inl ⟨rfl, Or.inl hheld⟩)
  · rw [hmerge]
    refine Or.inl ⟨by decide, fun hgates' ↦ ?_⟩
    exact absurd (hcanonical.symm.trans hgates'.canonical) (by decide)
  · rcases hmerge with ⟨hpast, hmerge⟩ | ⟨hpast, reason, hmerge⟩
    · rw [hmerge]
      exact Or.inr (Or.inl ⟨rfl, Or.inr hpast⟩)
    · rw [hmerge]
      exact Or.inr (Or.inr ⟨rfl, hpasses.mp ⟨hgates, hcanonical⟩, hnew, hpast⟩)

/-- In every run, a submission is counted under a reason that is read off a text exactly when it comes to the
merge and sets aliases that the grammar refuses with such a text. A new delta that passes the gates and is not
authorised by its past, as when its past deactivates the document, is counted as unauthorised, and no other. -/
theorem rejections_labelled (events : List ServiceEvent) (didStr : String) (delta : SignedDelta) :
    (∀ reason : RejectionReason, reason.OfText →
      (((runService storedSize events).1.submitDelta storedSize didStr delta).1.metrics =
          (runService storedSize events).1.metrics.recordDeltaRejected reason ↔
        ∃ doc uris err, ReachesMerge (runService storedSize events).1.docs didStr delta doc ∧
          delta.op = .setAlsoKnownAs uris ∧ recogniseAlsoKnownAs uris = .error err ∧
          rejectionReason err = reason)) ∧
      (((runService storedSize events).1.submitDelta storedSize didStr delta).1.metrics =
          (runService storedSize events).1.metrics.recordDeltaRejected .unauthorised ↔
        ∃ doc, ReachesMerge (runService storedSize events).1.docs didStr delta doc ∧
          PassesGates doc.did delta ∧ doc.dag.contains delta.contentHash = false ∧
          ¬ CausallyAuthorised doc.dag delta) := by
  have hstored : DocumentsHave (fun did doc ↦ doc.did = did ∧ FactsHeld doc)
      (runService storedSize events).1.docs := by
    rw [runService_docs]
    exact inductive_factsHeld.runEvents (.empty _) _
  rw [((runService storedSize events).1.submitDelta_spec storedSize didStr delta).2.2.1]
  generalize (runService storedSize events).1.docs = docs at hstored ⊢
  simp only [Metrics.count_eq_rejected_iff]
  constructor
  · intro reason hreason
    have hother : reason ≠ .rejected ∧ reason ≠ .unauthorised := by
      rcases hreason with rfl | rfl <;> decide
    constructor
    · intro hcounted
      obtain ⟨doc, hreaches⟩ := exists_reachesMerge hcounted (Or.inl hreason)
      obtain ⟨hdid, hfacts⟩ := hstored _ _ hreaches.held
      rcases hreaches.cases hdid hfacts with ⟨uris, err, hop, hrefused, hcase⟩ | ⟨-, hcase⟩
      · exact ⟨doc, uris, err, hreaches, hop, hrefused, Counted.rejected.inj (hcase.symm.trans hcounted)⟩
      · rcases hcase with ⟨hcase, -⟩ | ⟨hcase, -⟩ | ⟨hcase, -⟩
        · exact absurd (Counted.rejected.inj (hcounted.symm.trans hcase)) hother.1
        · exact Counted.noConfusion (hcounted.symm.trans hcase)
        · exact absurd (Counted.rejected.inj (hcounted.symm.trans hcase)) hother.2
    · rintro ⟨doc, uris, err, hreaches, hop, hrefused, rfl⟩
      obtain ⟨hdid, hfacts⟩ := hstored _ _ hreaches.held
      rcases hreaches.cases hdid hfacts with ⟨uris', err', hop', hrefused', hcase⟩ | ⟨haliases, -⟩
      · obtain rfl : uris' = uris := DeltaOp.setAlsoKnownAs.inj (hop'.symm.trans hop)
        obtain rfl : err' = err := Except.error.inj (hrefused'.symm.trans hrefused)
        exact hcase
      · exact absurd ((haliases uris hop).symm.trans hrefused) (by simp)
  · constructor
    · intro hcounted
      obtain ⟨doc, hreaches⟩ := exists_reachesMerge hcounted (Or.inr rfl)
      obtain ⟨hdid, hfacts⟩ := hstored _ _ hreaches.held
      rcases hreaches.cases hdid hfacts with ⟨uris, err, -, hrefused, hcase⟩ | ⟨-, hcase⟩
      · obtain ⟨text, rfl⟩ := recogniseAlsoKnownAs_error hrefused
        have hreason := Counted.rejected.inj (hcase.symm.trans hcounted)
        unfold rejectionReason at hreason
        grind
      · rcases hcase with ⟨hcase, -⟩ | ⟨hcase, -⟩ | ⟨-, hgates, hnew, hpast⟩
        · exact RejectionReason.noConfusion (Counted.rejected.inj (hcounted.symm.trans hcase))
        · exact Counted.noConfusion (hcounted.symm.trans hcase)
        · exact ⟨doc, hreaches, hgates, hnew, hpast⟩
    · rintro ⟨doc, hreaches, hgates, hnew, hpast⟩
      obtain ⟨hdid, hfacts⟩ := hstored _ _ hreaches.held
      rcases hreaches.cases hdid hfacts with ⟨uris, err, hop, hrefused, -⟩ | ⟨-, hcase⟩
      · exact absurd ((hgates.aliases uris hop).symm.trans hrefused) (by simp)
      · rcases hcase with ⟨-, hfails⟩ | ⟨-, hheld | hauthorised⟩ | ⟨hcase, -⟩
        · exact absurd hgates hfails
        · exact absurd (hnew.symm.trans hheld) (by decide)
        · exact absurd hauthorised hpast
        · exact hcase

end Runs

end

section Readable

attribute [local instance] Primitives.readable StateDigests.readable

/-- A revocation of a credential by the creation key of the document of the key `u7`. -/
def revokedCredential (credential : String) (wallMs : U64) (parents : List String) : SignedDelta :=
  .readable "did:crdt:u7" "did:crdt:u7#key-0" "u7" wallMs 55 (.revokeCredential credential) parents

/-- A document is created, a revocation is submitted, and another is delivered by a peer: the size that is
recorded is that of two deltas, while three are stored. -/
theorem stateSize_runService_delivered :
    let size := fun doc : Document ↦ (doc.deltaLog.length : ℤ)
    let submitted := ServiceEvent.submitDelta "did:crdt:u7" (revokedCredential "c" 1 ["0.0.0"])
    let delivered := ServiceEvent.mergeInbound
      (.deltas (deriveDid "u7") [revokedCredential "d" 2 ["1.0.55"]]) .solicitedOnly
    let last := (runService size [.createDid "u7", submitted, delivered]).1
    last.metrics.stateSize "u7" = some 2 ∧ (last.docs[deriveDid "u7"]?).map size = some 3 := by
  intro size submitted delivered last
  have hdelivered : ∀ first later rest, [delivered] = first ++ later :: rest →
      ¬ later.Records size (runService size ([.createDid "u7"] ++ submitted :: first)).1 "u7" := by
    intro first later rest hsplit hrecords
    have hmem : later ∈ [delivered] := hsplit ▸ by simp
    rw [List.mem_singleton.mp hmem] at hrecords
    exact absurd hrecords.1 (by decide)
  obtain ⟨did, doc, htarget, hget, hsize⟩ := stateSize_runService size [.createDid "u7"] [delivered] submitted
    "u7" ⟨by decide, by decide⟩ hdelivered
  obtain rfl : deriveDid "u7" = did := Option.some.inj htarget
  have hstored : ((runService size [.createDid "u7", submitted]).1.docs[deriveDid "u7"]?).map size = some 2 := by
    decide
  have hdoc : size doc = 2 := Option.some.inj ((congrArg (Option.map size) hget).symm.trans hstored)
  exact ⟨hsize.trans (congrArg some hdoc), by decide⟩

/-- After the deactivation of its document a revocation is counted as unauthorised, and an alias that is not a
URI is counted as one for a deactivated document. -/
example :
    let deactivation := SignedDelta.readable "did:crdt:u7" "did:crdt:u7#key-0" "u7" 1 55 .deactivate ["0.0.0"]
    let renamed := SignedDelta.readable "did:crdt:u7" "did:crdt:u7#key-0" "u7" 1 55
      (.setAlsoKnownAs ["deactivated"]) ["0.0.0"]
    countedAs (runEvents ∅ [.createDid "u7", .submitDelta "did:crdt:u7" deactivation]) "did:crdt:u7"
        (revokedCredential "d" 2 ["1.0.55"]) = .rejected .unauthorised ∧
      countedAs (runEvents ∅ [.createDid "u7"]) "did:crdt:u7" renamed = .rejected .deactivatedDid := by
  decide

end Readable

end DidCrdt
