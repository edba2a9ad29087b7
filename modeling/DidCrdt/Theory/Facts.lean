import DidCrdt.Theory.History

/-!
# The fields as facts of the deltas

Apart from the live service endpoints, every replicated field of a document is a function of the set
of operations and timestamps that were applied to it, in whatever order and by whatever path. The
predicate `Describes events s` says which function. It holds of an empty state with no events, an
operation adds its event (`Describes.apply`), and the join of two states takes the union of their
events (`Describes.mergeFields`). States described by the same events agree on these fields when a
timestamp names one operation (`Describes.agree`).
-/

set_option autoImplicit false
set_option relaxedAutoImplicit false

namespace DidCrdt

open LastWriter (LWWReg Latest)

/-- An operation and its timestamp. -/
abbrev Event : Type := DeltaOp × HlcTimestamp

/-- The operation and the timestamp of a delta. -/
def SignedDelta.event (d : SignedDelta) : Event := (d.op, d.timestamp)

/-- The events of a collection of deltas. -/
def eventsOf (deltas : Set SignedDelta) : Set Event := SignedDelta.event '' deltas

/-! ### What the events say about a field -/

/-- The operation that adds an entry. -/
def VerificationMethodEntry.addition (e : VerificationMethodEntry) : DeltaOp :=
  .addVerificationMethod e.id e.publicKeyMultibase e.suiteType e.relationships

theorem VerificationMethodEntry.addition_injective :
    Function.Injective VerificationMethodEntry.addition := by
  rintro ⟨id, key, suite, rels⟩ ⟨id', key', suite', rels'⟩ h
  obtain ⟨rfl, rfl, rfl, rfl⟩ := DeltaOp.addVerificationMethod.inj h
  rfl

/-- The operation that adds an endpoint. -/
def ServiceEntry.addition (e : ServiceEntry) : DeltaOp :=
  .addServiceEndpoint e.id e.serviceType e.endpoint

/-- Additions and removals of service endpoints. -/
def DeltaOp.IsService : DeltaOp → Prop
  | .addServiceEndpoint _ _ _ => True
  | .removeServiceEndpoint _ => True
  | _ => False

section Readings

variable (events : Set Event)

/-- Some event has the operation. -/
def Occurs (op : DeltaOp) : Prop := ∃ t, (op, t) ∈ events

/-- The timestamps of the operations on service endpoints. -/
def serviceDots : Set Dot := {t | ∃ op, (op, t) ∈ events ∧ op.IsService}

/-- The writes of document data. -/
def dataWrites (key : String) (value : Json) (t : HlcTimestamp) : Prop :=
  (.setDocumentData key value, t) ∈ events

/-- The writes of the alias set. -/
def aliasWrites (aliases : List String) (t : HlcTimestamp) : Prop :=
  ∃ uris, aliases = OrderedMaps.sortDedup uris ∧ (.setAlsoKnownAs uris, t) ∈ events

/-- The rotations. -/
def rotations [Primitives] (value : Option String) (marker : ActiveKeyMarker) : Prop :=
  ∃ seq keyRef, value = some keyRef ∧ marker = ActiveKeyMarker.new seq keyRef ∧
    Occurs events (.rotateKey seq keyRef)

/-- The greatest wall time of the events, or zero. -/
structure LatestWall (wall : U64) : Prop where
  upper : ∀ e ∈ events, e.2.wallMs ≤ wall
  source : wall = 0 ∨ ∃ e ∈ events, e.2.wallMs = wall

end Readings

/-- The fields of a state, as functions of the events. -/
structure Describes [Primitives] (events : Set Event) (s : CrdtState) : Prop where
  verificationMethods : ∀ e, e ∈ s.verificationMethods ↔ Occurs events e.addition
  revocations : ∀ c, c ∈ s.revocations ↔ Occurs events (.revokeCredential c)
  revokedVerificationMethods : ∀ k, k ∈ s.revokedVerificationMethods ↔
    Occurs events (.revokeVerificationMethod k)
  deactivated : s.deactivated = true ↔ Occurs events .deactivate
  documentData : DocumentData.Written (dataWrites events) s.documentData
  alsoKnownAs : Latest AlsoKnownAs.new (aliasWrites events) s.alsoKnownAs
  activeKey : Latest ActiveKey.new (rotations events) s.activeKey
  context : ServiceEndpoints.Witnesses (serviceDots events) s.serviceEndpoints.context
  live : ∀ (t : Dot) (e : ServiceEntry), s.serviceEndpoints.live[t]? = some e →
    (e.addition, t) ∈ events
  createdMs : s.createdMs = some 0
  updatedMs : ∃ wall, s.updatedMs = some wall ∧ LatestWall events wall

/-! ### What an event adds to the readings -/

section Insert

variable (events : Set Event) (op : DeltaOp) (t : HlcTimestamp)

theorem occurs_insert (op' : DeltaOp) :
    Occurs (insert (op, t) events) op' ↔ Occurs events op' ∨ op' = op := by
  constructor
  · rintro ⟨t', heq | hmem⟩
    · exact Or.inr (Prod.mk.inj heq).1
    · exact Or.inl ⟨t', hmem⟩
  · rintro (⟨t', hmem⟩ | rfl)
    · exact ⟨t', Or.inr hmem⟩
    · exact ⟨t, Or.inl rfl⟩

theorem serviceDots_insert_of_isService (hop : op.IsService) :
    serviceDots (insert (op, t) events) = insert t (serviceDots events) := by
  ext t'
  constructor
  · rintro ⟨op', heq | hmem, hservice⟩
    · exact Or.inl (Prod.mk.inj heq).2
    · exact Or.inr ⟨op', hmem, hservice⟩
  · rintro (rfl | ⟨op', hmem, hservice⟩)
    · exact ⟨op, Or.inl rfl, hop⟩
    · exact ⟨op', Or.inr hmem, hservice⟩

theorem serviceDots_insert_of_not_isService (hop : ¬ op.IsService) :
    serviceDots (insert (op, t) events) = serviceDots events := by
  ext t'
  constructor
  · rintro ⟨op', heq | hmem, hservice⟩
    · exact absurd ((Prod.mk.inj heq).1 ▸ hservice) hop
    · exact ⟨op', hmem, hservice⟩
  · rintro ⟨op', hmem, hservice⟩
    exact ⟨op', Or.inr hmem, hservice⟩

theorem latestWall_insert {wall : U64} (h : LatestWall events wall) :
    LatestWall (insert (op, t) events) (max wall t.wallMs) := by
  constructor
  · rintro e (rfl | he)
    · exact le_max_right _ _
    · exact (h.upper e he).trans (le_max_left _ _)
  · rcases le_total wall t.wallMs with hle | hle
    · exact Or.inr ⟨(op, t), Or.inl rfl, (max_eq_right hle).symm⟩
    · rw [max_eq_left hle]
      exact h.source.imp_right fun ⟨e, he, heq⟩ ↦ ⟨e, Or.inr he, heq⟩

end Insert

theorem serviceDots_union (events events' : Set Event) :
    serviceDots (events ∪ events') = serviceDots events ∪ serviceDots events' := by
  ext t
  constructor
  · rintro ⟨op, hmem | hmem, hop⟩
    · exact Or.inl ⟨op, hmem, hop⟩
    · exact Or.inr ⟨op, hmem, hop⟩
  · rintro (⟨op, hmem, hop⟩ | ⟨op, hmem, hop⟩)
    · exact ⟨op, Or.inl hmem, hop⟩
    · exact ⟨op, Or.inr hmem, hop⟩

theorem occurs_union (events events' : Set Event) (op : DeltaOp) :
    Occurs (events ∪ events') op ↔ Occurs events op ∨ Occurs events' op :=
  exists_or

theorem latestWall_union {events events' : Set Event} {wall wall' : U64}
    (h : LatestWall events wall) (h' : LatestWall events' wall') :
    LatestWall (events ∪ events') (max wall wall') := by
  constructor
  · rintro e (he | he)
    · exact (h.upper e he).trans (le_max_left _ _)
    · exact (h'.upper e he).trans (le_max_right _ _)
  · rcases le_total wall wall' with hle | hle
    · rw [max_eq_right hle]
      exact h'.source.imp_right fun ⟨e, he, heq⟩ ↦ ⟨e, Or.inr he, heq⟩
    · rw [max_eq_left hle]
      exact h.source.imp_right fun ⟨e, he, heq⟩ ↦ ⟨e, Or.inl he, heq⟩

theorem LatestWall.unique {events : Set Event} {wall wall' : U64} (h : LatestWall events wall)
    (h' : LatestWall events wall') : wall = wall' := by
  have hle : ∀ {w w' : U64}, LatestWall events w → LatestWall events w' → w ≤ w' := by
    intro w w' hw hw'
    rcases hw.source with rfl | ⟨e, he, rfl⟩
    · exact Fin.zero_le _
    · exact hw'.upper e he
  exact le_antisymm (hle h h') (hle h' h)

/-! ### What an operation does to each field -/

section Apply

variable [Primitives] (s : CrdtState) (op : DeltaOp) (t : HlcTimestamp) (observed : List Dot)

@[simp] theorem did_apply : (s.apply op t observed).did = s.did := by
  cases op <;> rfl

@[simp] theorem createdMs_apply : (s.apply op t observed).createdMs = s.createdMs := by
  cases op <;> rfl

theorem updatedMs_apply :
    (s.apply op t observed).updatedMs = CrdtState.touch s.updatedMs t.wallMs := by
  cases op <;> rfl

theorem mem_verificationMethods_apply (e : VerificationMethodEntry) :
    e ∈ (s.apply op t observed).verificationMethods ↔
      e ∈ s.verificationMethods ∨ e.addition = op := by
  cases op with
  | addVerificationMethod id pk suite rels =>
    obtain ⟨id', pk', suite', rels'⟩ := e
    change _ ∈ s.verificationMethods.insert _ ↔ _
    rw [OrderedMaps.set_mem_insert, or_comm]
    simp [VerificationMethodEntry.addition]
  | _ => exact (or_iff_left (by simp [VerificationMethodEntry.addition])).symm

theorem mem_revocations_apply (c : String) :
    c ∈ (s.apply op t observed).revocations ↔ c ∈ s.revocations ∨ .revokeCredential c = op := by
  cases op with
  | revokeCredential id =>
    change _ ∈ s.revocations.insert _ ↔ _
    rw [OrderedMaps.set_mem_insert, or_comm]
    simp
  | _ => exact (or_iff_left (by simp)).symm

theorem mem_revokedVerificationMethods_apply (k : String) :
    k ∈ (s.apply op t observed).revokedVerificationMethods ↔
      k ∈ s.revokedVerificationMethods ∨ .revokeVerificationMethod k = op := by
  cases op with
  | revokeVerificationMethod id =>
    change _ ∈ s.revokedVerificationMethods.insert _ ↔ _
    rw [OrderedMaps.set_mem_insert, or_comm]
    simp
  | _ => exact (or_iff_left (by simp)).symm

theorem deactivated_apply :
    (s.apply op t observed).deactivated = true ↔ s.deactivated = true ∨ .deactivate = op := by
  cases op with
  | deactivate => simp [CrdtState.apply]
  | _ => exact (or_iff_left (by simp)).symm

end Apply

/-! ### The description is kept -/

namespace Describes

variable [Primitives] {events events' : Set Event} {s s' : CrdtState}

theorem empty (did : Did) : Describes ∅ (CrdtState.empty did 0) where
  verificationMethods e := by simp [CrdtState.empty, Occurs]
  revocations c := by simp [CrdtState.empty, Occurs]
  revokedVerificationMethods k := by simp [CrdtState.empty, Occurs]
  deactivated := by simp [CrdtState.empty, Occurs]
  documentData := DocumentData.Written.nothing
  alsoKnownAs := .nothing fun v t ⟨_, _, h⟩ ↦ h
  activeKey := .nothing fun v m ⟨_, _, _, _, _, h⟩ ↦ h
  context := by
    have hdots : serviceDots ∅ = ∅ := by
      ext t
      simp [serviceDots]
    rw [hdots]
    exact ServiceEndpoints.Witnesses.nothing
  live t e h := by simp [CrdtState.empty, ServiceEndpoints.new] at h
  createdMs := rfl
  updatedMs := ⟨0, rfl, fun e he ↦ absurd he (Set.notMem_empty e), Or.inl rfl⟩

/-- Assumes: the observed dots are dots of the events. An operation adds its event. -/
theorem apply (h : Describes events s) (op : DeltaOp) (t : HlcTimestamp) (observed : List Dot)
    (hobserved : ∀ d ∈ observed, d ∈ serviceDots events) :
    Describes (insert (op, t) events) (s.apply op t observed) where
  verificationMethods e := by
    rw [mem_verificationMethods_apply, h.verificationMethods, occurs_insert]
  revocations c := by rw [mem_revocations_apply, h.revocations, occurs_insert]
  revokedVerificationMethods k := by
    rw [mem_revokedVerificationMethods_apply, h.revokedVerificationMethods, occurs_insert]
  deactivated := by rw [deactivated_apply, h.deactivated, occurs_insert]
  documentData := by
    cases op with
    | setDocumentData key value =>
      refine h.documentData.set key value t fun k v t' ↦ ?_
      simp only [dataWrites, Set.mem_insert_iff, Prod.mk.injEq, DeltaOp.setDocumentData.injEq]
      tauto
    | _ => exact h.documentData.congr fun k v t' ↦ by simp [dataWrites]
  alsoKnownAs := by
    cases op with
    | setAlsoKnownAs uris =>
      refine h.alsoKnownAs.update (OrderedMaps.sortDedup uris) t fun v t' ↦ ?_
      simp only [aliasWrites, Set.mem_insert_iff, Prod.mk.injEq, DeltaOp.setAlsoKnownAs.injEq]
      constructor
      · rintro ⟨u, hv, ⟨rfl, rfl⟩ | hmem⟩
        · exact Or.inr ⟨hv, rfl⟩
        · exact Or.inl ⟨u, hv, hmem⟩
      · rintro (⟨u, hv, hmem⟩ | ⟨hv, rfl⟩)
        · exact ⟨u, hv, Or.inr hmem⟩
        · exact ⟨uris, hv, Or.inl ⟨rfl, rfl⟩⟩
    | _ => exact h.alsoKnownAs.congr fun v t' ↦ by simp [aliasWrites]
  activeKey := by
    cases op with
    | rotateKey seq keyRef =>
      refine h.activeKey.update (some keyRef) (ActiveKeyMarker.new seq keyRef) fun v m ↦ ?_
      simp only [rotations, occurs_insert, DeltaOp.rotateKey.injEq]
      constructor
      · rintro ⟨seq', keyRef', hv, hm, hmem | ⟨rfl, rfl⟩⟩
        · exact Or.inl ⟨seq', keyRef', hv, hm, hmem⟩
        · exact Or.inr ⟨hv, hm⟩
      · rintro (⟨seq', keyRef', hv, hm, hmem⟩ | ⟨hv, hm⟩)
        · exact ⟨seq', keyRef', hv, hm, Or.inl hmem⟩
        · exact ⟨seq, keyRef, hv, hm, Or.inr ⟨rfl, rfl⟩⟩
    | _ => exact h.activeKey.congr fun v m ↦ by simp [rotations, occurs_insert]
  context := by
    cases op with
    | addServiceEndpoint id serviceType endpoint =>
      rw [serviceDots_insert_of_isService]
      · exact h.context.observe t
      · exact trivial
    | removeServiceEndpoint id =>
      rw [serviceDots_insert_of_isService]
      · exact h.context.applyRemove observed t hobserved
      · exact trivial
    | _ =>
      rw [serviceDots_insert_of_not_isService]
      · exact h.context
      · exact not_false
  live t' e hlive := by
    cases op with
    | addServiceEndpoint id serviceType endpoint =>
      change (s.serviceEndpoints.applyAdd ⟨id, serviceType, endpoint⟩ t).live[t']? = _ at hlive
      rw [ServiceEndpoints.getElem?_live_applyAdd] at hlive
      split_ifs at hlive with heq
      · obtain rfl := Option.some.inj hlive
        exact Or.inl (by rw [ServiceEntry.addition, heq])
      · exact Or.inr (h.live t' e hlive)
    | removeServiceEndpoint id =>
      change (s.serviceEndpoints.applyRemove observed t).live[t']? = _ at hlive
      rw [ServiceEndpoints.getElem?_live_applyRemove] at hlive
      split_ifs at hlive with hmem
      exact Or.inr (h.live t' e hlive)
    | _ => exact Or.inr (h.live t' e hlive)
  createdMs := by rw [createdMs_apply, h.createdMs]
  updatedMs := by
    obtain ⟨wall, hwall, hlatest⟩ := h.updatedMs
    refine ⟨max wall t.wallMs, ?_, latestWall_insert events op t hlatest⟩
    rw [updatedMs_apply, hwall, CrdtState.touch]
    split_ifs with hlt
    · rw [max_eq_right hlt.le]
    · rw [max_eq_left (not_lt.mp hlt)]

/-- The join takes the union of the events. -/
theorem mergeFields (h : Describes events s) (h' : Describes events' s') :
    Describes (events ∪ events') (Document.mergeFields s s') where
  verificationMethods e := by
    rw [occurs_union, ← h.verificationMethods, ← h'.verificationMethods]
    exact GSet.mem_merge _ _ e
  revocations c := by
    rw [occurs_union, ← h.revocations, ← h'.revocations]
    exact GSet.mem_merge _ _ c
  revokedVerificationMethods k := by
    rw [occurs_union, ← h.revokedVerificationMethods, ← h'.revokedVerificationMethods]
    exact GSet.mem_merge _ _ k
  deactivated := by
    rw [occurs_union, ← h.deactivated, ← h'.deactivated]
    exact Bool.or_eq_true_iff
  documentData := h.documentData.merge h'.documentData fun _ _ _ ↦ Iff.rfl
  alsoKnownAs := by
    refine h.alsoKnownAs.merge h'.alsoKnownAs fun v t ↦ ?_
    simp only [aliasWrites, Set.mem_union, and_or_left, exists_or]
  activeKey := by
    refine h.activeKey.merge h'.activeKey fun v m ↦ ?_
    simp only [rotations, occurs_union, and_or_left, exists_or]
  context := by
    rw [serviceDots_union]
    exact h.context.merge h'.context
  live t e hlive := by
    change (s.serviceEndpoints.merge s'.serviceEndpoints).live[t]? = some e at hlive
    rw [ServiceEndpoints.live_merge] at hlive
    cases hl : s.serviceEndpoints.live[t]? with
    | none =>
      cases hr : s'.serviceEndpoints.live[t]? with
      | none => rw [hl, hr] at hlive; exact absurd hlive (by simp [ObservedRemove.survivor])
      | some e' =>
        rw [hl, hr] at hlive
        simp only [ObservedRemove.survivor] at hlive
        split_ifs at hlive
        exact Or.inr (h'.live t e (hr.trans hlive))
    | some e' =>
      cases hr : s'.serviceEndpoints.live[t]? with
      | none =>
        rw [hl, hr] at hlive
        simp only [ObservedRemove.survivor] at hlive
        split_ifs at hlive
        exact Or.inl (h.live t e (hl.trans hlive))
      | some e'' =>
        rw [hl, hr] at hlive
        simp only [ObservedRemove.survivor] at hlive
        split_ifs at hlive
        exact Or.inr (h'.live t e (hr.trans hlive))
  createdMs := by
    change Document.mergeCreated s.createdMs s'.createdMs = _
    rw [h.createdMs, h'.createdMs, Document.mergeCreated, min_self]
  updatedMs := by
    obtain ⟨wall, hwall, hlatest⟩ := h.updatedMs
    obtain ⟨wall', hwall', hlatest'⟩ := h'.updatedMs
    refine ⟨max wall wall', ?_, latestWall_union hlatest hlatest'⟩
    change Document.mergeUpdated s.updatedMs s'.updatedMs = _
    rw [hwall, hwall', Document.mergeUpdated]

/-- A live dot was seen. -/
theorem seen_of_live (h : Describes events s) {t : Dot} {e : ServiceEntry}
    (hlive : s.serviceEndpoints.live[t]? = some e) :
    ServiceEndpoints.seen s.serviceEndpoints.context t = true :=
  (h.context.seen_iff t).mpr ⟨t, ⟨e.addition, h.live t e hlive, trivial⟩, rfl, le_rfl⟩

end Describes

/-! ### Agreement -/

/-- A timestamp names one operation. -/
def TimestampsDistinct (events : Set Event) : Prop :=
  ∀ op op' t, (op, t) ∈ events → (op', t) ∈ events → op = op'

/-- The digests of the key references of the rotations do not collide. -/
def KeyRefsDistinct [Primitives] (events : Set Event) : Prop :=
  ∀ seq seq' keyRef keyRef', Occurs events (.rotateKey seq keyRef) →
    Occurs events (.rotateKey seq' keyRef') →
    Primitives.keyDigest keyRef = Primitives.keyDigest keyRef' → keyRef = keyRef'

theorem KeyRefsDistinct.mono [Primitives] {events events' : Set Event} (h : KeyRefsDistinct events)
    (hsub : events' ⊆ events) : KeyRefsDistinct events' :=
  fun seq seq' keyRef keyRef' ⟨t, ht⟩ ⟨t', ht'⟩ ↦
    h seq seq' keyRef keyRef' ⟨t, hsub ht⟩ ⟨t', hsub ht'⟩

theorem TimestampsDistinct.mono {events events' : Set Event} (h : TimestampsDistinct events)
    (hsub : events' ⊆ events) : TimestampsDistinct events' :=
  fun op op' t hop hop' ↦ h op op' t (hsub hop) (hsub hop')

namespace Describes

variable [Primitives] {events : Set Event} {s s' : CrdtState}

/-- The rotations determine the active key. -/
theorem activeKey_eq (hkeys : KeyRefsDistinct events) (h : Describes events s)
    (h' : Describes events s') : s.activeKey = s'.activeKey := by
  refine Latest.unique (fun v v' m _ ↦ ?_) h.activeKey h'.activeKey
  rintro ⟨seq, keyRef, rfl, rfl, hw⟩ ⟨seq', keyRef', rfl, hm, hw'⟩
  have hdigest := congrArg ActiveKeyMarker.keyHash hm
  rw [hkeys seq seq' keyRef keyRef' hw hw' hdigest]

/-- Assumes: a timestamp names one operation, and the digests of key references do not collide. Two
states of one document described by the same events are equal when their live endpoints are. -/
theorem agree (htimes : TimestampsDistinct events) (hkeys : KeyRefsDistinct events)
    (h : Describes events s) (h' : Describes events s') (hdid : s.did = s'.did)
    (hlive : s.serviceEndpoints.live = s'.serviceEndpoints.live) : s = s' := by
  have hcontext := h.context.unique h'.context
  refine CrdtState.ext hdid ?_ ?_ ?_ ?_ (h.activeKey_eq hkeys h') ?_ ?_ ?_ ?_ ?_
  · exact Std.ExtTreeSet.ext_mem fun e ↦
      (h.verificationMethods e).trans (h'.verificationMethods e).symm
  · exact ServiceEndpoints.ext hlive hcontext
  · exact DocumentData.Written.unique (fun k v v' t _ hw hw' ↦
      (DeltaOp.setDocumentData.inj (htimes _ _ t hw hw')).2) h.documentData h'.documentData
  · refine Latest.unique ?_ h.alsoKnownAs h'.alsoKnownAs
    rintro v v' t _ ⟨uris, rfl, hw⟩ ⟨uris', rfl, hw'⟩
    rw [DeltaOp.setAlsoKnownAs.inj (htimes _ _ t hw hw')]
  · exact Std.ExtTreeSet.ext_mem fun c ↦ (h.revocations c).trans (h'.revocations c).symm
  · exact Std.ExtTreeSet.ext_mem fun k ↦
      (h.revokedVerificationMethods k).trans (h'.revokedVerificationMethods k).symm
  · exact Bool.eq_iff_iff.mpr (h.deactivated.trans h'.deactivated.symm)
  · rw [h.createdMs, h'.createdMs]
  · obtain ⟨wall, hwall, hlatest⟩ := h.updatedMs
    obtain ⟨wall', hwall', hlatest'⟩ := h'.updatedMs
    rw [hwall, hwall', hlatest.unique hlatest']

end Describes

end DidCrdt
