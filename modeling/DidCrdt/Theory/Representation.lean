import DidCrdt.Core.Representation
import DidCrdt.Theory.Projection

/-!
# Names of members

Document data of a reserved name is not projected, so no object that is written has two members of one name
(`ResolutionResult.distinct_toJson`).
-/

set_option autoImplicit false
set_option relaxedAutoImplicit false

namespace DidCrdt

open Records (written)

/-! ### Names of members -/

namespace Json

mutual

/-- Whether the members of every object have different names. -/
def distinct : Json → Bool
  | .array items => itemsDistinct items
  | .object members => (members.map Prod.fst).Nodup && membersDistinct members
  | _ => true

def itemsDistinct : List Json → Bool
  | [] => true
  | v :: items => distinct v && itemsDistinct items

def membersDistinct : List (String × Json) → Bool
  | [] => true
  | (_, v) :: members => distinct v && membersDistinct members

end

@[simp] theorem distinct_string (s : String) : (Json.string s).distinct = true := by rw [distinct] <;> simp

theorem distinct_array {items : List Json} :
    (Json.array items).distinct = true ↔ ∀ v ∈ items, v.distinct = true := by
  rw [distinct]
  induction items with
  | nil => simp [itemsDistinct]
  | cons v items ih => rw [itemsDistinct, Bool.and_eq_true, ih, List.forall_mem_cons]

theorem distinct_object {members : List (String × Json)} :
    (Json.object members).distinct = true ↔
      (members.map Prod.fst).Nodup ∧ ∀ m ∈ members, m.2.distinct = true := by
  have hmembers : ∀ l, membersDistinct l = true ↔ ∀ m ∈ l, m.2.distinct = true := by
    intro l
    induction l with
    | nil => simp [membersDistinct]
    | cons m members ih => rw [membersDistinct, Bool.and_eq_true, ih, List.forall_mem_cons]
  rw [distinct, Bool.and_eq_true, decide_eq_true_iff, hmembers]

/-- The items of a value are values. -/
theorem IsValue.of_mem_array {items : List Json} (h : (Json.array items).IsValue) {v : Json}
    (hv : v ∈ items) : v.IsValue := by
  rw [IsValue, toValue_array, Json.array.injEq] at h
  exact List.map_inj_left.mp (h.trans (List.map_id items).symm) v hv

theorem IsValue.members {members : List (String × Json)} (h : (Json.object members).IsValue) :
    Records.Ascending members ∧ ∀ m ∈ members, m.2.IsValue := by
  rw [IsValue, toValue_object, Json.object.injEq] at h
  have hascending : Records.Ascending members := h ▸ Records.ascending_ofEntries _
  have hnames : Records.Ascending (members.map fun m ↦ (m.1, m.2.toValue)) :=
    List.pairwise_map.mpr hascending
  rw [Records.ofEntries_of_ascending hnames] at h
  refine ⟨hascending, fun m hm ↦ ?_⟩
  exact (Prod.mk.inj (List.map_inj_left.mp (h.trans (List.map_id members).symm) m hm)).2

/-- The members of a map have different names. -/
theorem IsValue.distinct {v : Json} (h : v.IsValue) : v.distinct = true := by
  induction v using Json.induction with
  | array items ih => exact distinct_array.mpr fun v hv ↦ ih v hv (h.of_mem_array hv)
  | object members ih =>
    obtain ⟨hascending, hvalues⟩ := h.members
    refine distinct_object.mpr ⟨?_, fun m hm ↦ ih m hm (hvalues m hm)⟩
    exact List.pairwise_map.mpr (hascending.imp ne_of_lt)
  | _ => rw [Json.distinct] <;> simp

/-! ### Parts that are left out -/

/-- A record has no two members of one name when the parts that are written of it have none. -/
theorem distinct_written {parts : List (String × Option Json)} (hnames : (parts.map Prod.fst).Nodup) :
    (Json.object (written parts)).distinct = true ↔ ∀ p ∈ parts, ∀ v ∈ p.2, v.distinct = true := by
  rw [distinct_object, and_iff_right ((Records.names_written_sublist parts).nodup hnames)]
  exact Records.forall_mem_written (P := fun v : Json ↦ v.distinct = true)

theorem eq_of_mem_nonEmpty {items : List Json} {v : Json} (h : v ∈ nonEmpty items) : v = .array items := by
  cases items with
  | nil => exact absurd h (by simp [nonEmpty])
  | cons w items => exact (Option.some.inj h).symm

/-- A reference to a key, a context or an endpoint: a string. -/
def IsText (v : Json) : Prop := ∃ s, v = .string s

theorem IsText.distinct {v : Json} (h : v.IsText) : v.distinct = true := by
  obtain ⟨s, rfl⟩ := h
  exact distinct_string s

/-- A key as it is projected. -/
def IsJwk (v : Json) : Prop :=
  ∃ x, v = .object [("crv", .string "Ed25519"), ("kty", .string "OKP"), ("x", .string x)]

theorem IsJwk.distinct {v : Json} (h : v.IsJwk) : v.distinct = true := by
  obtain ⟨x, rfl⟩ := h
  exact distinct_object.mpr (by simp)

end Json

/-! ### Parts of documents -/

theorem VerificationMethod.distinct_toJson {m : VerificationMethod} (h : ∀ v ∈ m.publicKeyJwk, v.IsJwk) :
    m.toJson.distinct = true := by
  refine (Json.distinct_written (by simp [parts])).mpr ?_
  simp only [parts, List.forall_mem_cons, Option.mem_def, Option.some.injEq, forall_eq',
    Json.distinct_string, Option.map_eq_some_iff, true_and]
  refine ⟨?_, fun v hv ↦ (h v hv).distinct, fun p hp ↦ absurd hp List.not_mem_nil⟩
  rintro v ⟨s, -, rfl⟩
  exact Json.distinct_string s

theorem ServiceEndpoint.distinct_toJson {s : ServiceEndpoint} (h : s.endpoint.IsText) :
    s.toJson.distinct = true :=
  Json.distinct_object.mpr (by simp [h.distinct])

/-! ### Documents -/

namespace DidDocument

variable {doc : DidDocument}

/-- What there is besides document data is made of strings, of keys and of records of strings. -/
structure Projected (doc : DidDocument) : Prop where
  context : ∀ v ∈ doc.context, v.IsText
  jwk : ∀ m ∈ doc.verificationMethod, ∀ v ∈ m.publicKeyJwk, v.IsJwk
  references : ∀ r, ∀ v ∈ doc.array r, v.IsText
  service : ∀ s ∈ doc.service, s.endpoint.IsText

/-- The document data is made of values under names that are not those of other members. -/
def ExtraData (doc : DidDocument) : Prop :=
  ∀ entry ∈ doc.extra.toList, entry.1 ∉ doc.parts.map Prod.fst ∧ entry.2.IsValue

theorem names_nodup (doc : DidDocument) : (doc.parts.map Prod.fst).Nodup := by
  have hnames : doc.parts.map Prod.fst = ["@context", "id", "alsoKnownAs", "verificationMethod",
      "authentication", "assertionMethod", "keyAgreement", "capabilityInvocation", "capabilityDelegation",
      "service"] := rfl
  rw [hnames]
  decide

/-- No two members have the same name. -/
theorem members_nodup (h : doc.ExtraData) :
    ((written doc.parts ++ doc.extra.toList).map Prod.fst).Nodup := by
  rw [List.map_append, List.nodup_append']
  refine ⟨(Records.names_written_sublist _).nodup doc.names_nodup, ?_, ?_⟩
  · rw [Std.ExtTreeMap.map_fst_toList_eq_keys]
    exact Std.ExtTreeMap.nodup_keys
  · intro name hname hextra
    obtain ⟨entry, hentry, rfl⟩ := List.mem_map.mp hextra
    exact (h entry hentry).1 ((Records.names_written_sublist _).subset hname)

theorem distinct_parts (h : doc.Projected) : ∀ p ∈ doc.parts, ∀ v ∈ p.2, v.distinct = true := by
  have hlist : ∀ {items : List Json} {v : Json}, (∀ w ∈ items, w.distinct = true) →
      v ∈ Json.nonEmpty items → v.distinct = true := by
    intro items v hitems hv
    rw [Json.eq_of_mem_nonEmpty hv]
    exact Json.distinct_array.mpr hitems
  have hreferences : ∀ r, ∀ w ∈ doc.array r, w.distinct = true := fun r w hw ↦ (h.references r w hw).distinct
  have hcontext : (Json.array doc.context).distinct = true :=
    Json.distinct_array.mpr fun w hw ↦ (h.context w hw).distinct
  simp only [parts, List.forall_mem_cons, Option.mem_def, Option.some.injEq, forall_eq', hcontext,
    Json.distinct_string, true_and]
  refine ⟨fun v ↦ hlist ?_, fun v ↦ hlist ?_, fun v ↦ hlist (hreferences .authentication),
    fun v ↦ hlist (hreferences .assertionMethod), fun v ↦ hlist (hreferences .keyAgreement),
    fun v ↦ hlist (hreferences .capabilityInvocation), fun v ↦ hlist (hreferences .capabilityDelegation),
    fun v ↦ hlist ?_, fun p hp ↦ absurd hp List.not_mem_nil⟩
  · rw [List.forall_mem_map]
    exact fun s _ ↦ Json.distinct_string s
  · rw [List.forall_mem_map]
    exact fun m hm ↦ VerificationMethod.distinct_toJson (h.jwk m hm)
  · rw [List.forall_mem_map]
    exact fun s hs ↦ ServiceEndpoint.distinct_toJson (h.service s hs)

theorem distinct_toJson (h : doc.Projected) (hextra : doc.ExtraData) : doc.toJson.distinct = true := by
  refine Json.distinct_object.mpr ⟨members_nodup hextra, fun m hm ↦ ?_⟩
  rcases List.mem_append.mp hm with hm | hm
  · exact (Records.forall_mem_written (P := fun v : Json ↦ v.distinct = true)).mpr (distinct_parts h) m hm
  · exact (hextra m hm).2.distinct

end DidDocument

/-! ### What is projected -/

theorem isJwk_of_jwkFromMultibase [Primitives] {multibase : String} {jwk : Json}
    (h : jwkFromMultibase multibase = some jwk) : jwk.IsJwk := by
  unfold jwkFromMultibase at h
  split at h
  · split at h
    · split_ifs at h
      exact ⟨_, (Option.some.inj h).symm⟩
    · simp at h
  · simp at h

namespace CrdtState

variable [Primitives] (s : CrdtState)

theorem context_didDocument : s.didDocument.context = DidDocument.baseContext := by
  have hplace : ∀ (ref : Json) (rels : List VerificationRelationship) (doc : DidDocument),
      (rels.foldl (DidDocument.place ref) doc).context = doc.context := by
    intro ref rels
    induction rels with
    | nil => exact fun doc ↦ rfl
    | cons r rels ih => exact fun doc ↦ (ih _).trans (by cases r <;> rfl)
  have hmethods : ∀ (entries : List VerificationMethodEntry) (doc : DidDocument),
      (entries.foldl (DidDocument.addMethod s.did) doc).context = doc.context := by
    intro entries
    induction entries with
    | nil => exact fun doc ↦ rfl
    | cons e entries ih => exact fun doc ↦ (ih _).trans (hplace ..)
  have htwins : ∀ (twins : List VerificationMethod) (doc : DidDocument),
      (twins.foldl DidDocument.addTwin doc).context = doc.context := by
    intro twins
    induction twins with
    | nil => exact fun doc ↦ rfl
    | cons t twins ih => exact fun doc ↦ ih _
  exact (htwins _ _).trans (hmethods _ _)

theorem verificationMethod_didDocument : s.didDocument.verificationMethod =
    s.authorisedMethods.map (VerificationMethodEntry.method s.did) ++ s.untwinned.twins s.did := by
  change ((s.untwinned.twins s.did).foldl DidDocument.addTwin s.untwinned).verificationMethod = _
  rw [DidDocument.verificationMethod_foldl_addTwin, verificationMethod_untwinned]

theorem isText_of_mem_array (r : VerificationRelationship) {v : Json} (h : v ∈ s.didDocument.array r) :
    v.IsText := by
  have harray : v ∈ ((s.untwinned.twins s.did).foldl DidDocument.addTwin s.untwinned).array r := by
    cases r <;> exact h
  rw [DidDocument.mem_array_foldl_addTwin, mem_array_untwinned] at harray
  rcases harray with ⟨e, -, rfl, -⟩ | ⟨-, t, -, rfl⟩
  · exact ⟨_, rfl⟩
  · exact ⟨_, rfl⟩

/-- The projection of a state. -/
theorem projected_didDocument : s.didDocument.Projected where
  context := by
    rw [context_didDocument]
    simp [DidDocument.baseContext, Json.IsText]
  jwk := by
    intro m hm v hv
    rw [verificationMethod_didDocument] at hm
    rcases List.mem_append.mp hm with hm | hm
    · obtain ⟨e, -, rfl⟩ := List.mem_map.mp hm
      exact absurd hv (by simp [VerificationMethodEntry.method])
    · obtain ⟨index, e, jwk, -, hjwk, rfl⟩ := (s.mem_twins_iff m).mp hm
      obtain rfl : jwk = v := Option.some.inj hv
      exact isJwk_of_jwkFromMultibase hjwk
  references := fun r v ↦ s.isText_of_mem_array r
  service := by
    intro service hservice
    obtain ⟨e, -, rfl⟩ := List.mem_map.mp hservice
    exact ⟨_, rfl⟩

/-- The document data of a projection is that of the state under names that are not reserved. -/
theorem mem_extra_didDocument {entry : String × Json} (h : entry ∈ s.didDocument.extra.toList) :
    entry ∈ s.dataEntries ∧ isReservedDocumentProperty entry.1 = false := by
  have hinserted : ∀ (entries : List (String × Json)) (extra : Std.ExtTreeMap String Json compare),
      entry ∈ (entries.foldl (fun extra e ↦ extra.insert e.1 e.2) extra).toList →
        entry ∈ entries ∨ entry ∈ extra.toList := by
    intro entries
    induction entries with
    | nil => exact fun extra h ↦ Or.inr h
    | cons e entries ih =>
      intro extra h
      rcases ih _ h with h | h
      · exact Or.inl (List.mem_cons_of_mem e h)
      · rw [OrderedMaps.mem_toList_iff, OrderedMaps.getElem?_insert] at h
        split_ifs at h with hkey
        · exact Or.inl (List.mem_cons.mpr (Or.inl (Prod.ext hkey.symm (Option.some.inj h).symm)))
        · exact Or.inr ((OrderedMaps.mem_toList_iff ..).mpr h)
  rcases hinserted _ _ h with h | h
  · rw [List.mem_filter, Bool.not_eq_true'] at h
    exact h
  · rw [OrderedMaps.mem_toList_iff] at h
    simp at h

theorem extraData_didDocument (h : ∀ entry ∈ s.dataEntries, entry.2.IsValue) :
    s.didDocument.ExtraData := by
  intro entry hentry
  obtain ⟨hmem, hreserved⟩ := s.mem_extra_didDocument hentry
  refine ⟨fun hname ↦ ?_, h entry hmem⟩
  have hnames : ∀ name ∈ s.didDocument.parts.map Prod.fst, isReservedDocumentProperty name = true := by
    simp [DidDocument.parts, isReservedDocumentProperty, reservedDocumentProperties]
  exact Bool.noConfusion (hreserved.symm.trans (hnames _ hname))

end CrdtState

/-! ### Bundles -/

/-- A delta is written with no two members of one name. -/
theorem SignedDelta.distinct_toJson {d : SignedDelta}
    (h : ∀ key value, d.op = .setDocumentData key value → value.IsValue) : d.toJson.distinct = true := by
  have htexts : ∀ texts : List String, (Json.strings texts).distinct = true := by
    intro texts
    rw [Json.strings, Json.distinct_array, List.forall_mem_map]
    exact fun s _ ↦ Json.distinct_string s
  have hinteger : ∀ n : ℤ, (Json.integer n).distinct = true := fun n ↦ by rw [Json.distinct] <;> simp
  have hop : d.op.toJson.distinct = true := by
    rw [DeltaOp.toJson, Json.distinct_object]
    cases hd : d.op with
    | setDocumentData key value => simp [DeltaOp.fields, (h key value hd).distinct]
    | _ => simp [DeltaOp.fields, htexts, hinteger]
  rw [toJson, Json.distinct_object]
  simp [HlcTimestamp.toJson, DeltaProof.toJson, Json.distinct_object, htexts, hinteger, hop]

theorem ClosureBundle.distinct_toJson {bundle : ClosureBundle}
    (h : ∀ d ∈ bundle.deltas, ∀ key value, d.op = .setDocumentData key value → value.IsValue) :
    bundle.toJson.distinct = true := by
  rw [toJson, Json.distinct_object]
  simp only [List.map_cons, List.map_nil, List.forall_mem_cons, Json.distinct_string, true_and]
  refine ⟨by simp, ?_, fun m hm ↦ absurd hm List.not_mem_nil⟩
  rw [Json.distinct_array, List.forall_mem_map]
  exact fun d hd ↦ SignedDelta.distinct_toJson (h d hd)

/-! ### Results -/

theorem DidDocumentMetadata.distinct_toJson {m : DidDocumentMetadata} (h : ∀ bundle ∈ m.signedClosure,
    ∀ d ∈ bundle.deltas, ∀ key value, d.op = .setDocumentData key value → value.IsValue) :
    m.toJson.distinct = true := by
  have htexts : ∀ a : Option String, ∀ v ∈ a.map Json.string, v.distinct = true := by
    intro a v hv
    obtain ⟨s, -, rfl⟩ := Option.map_eq_some_iff.mp hv
    exact Json.distinct_string s
  have hbool : (Json.bool m.deactivated).distinct = true := by rw [Json.distinct] <;> simp
  refine (Json.distinct_written (by simp [parts])).mpr ?_
  simp only [parts, List.forall_mem_cons, Option.mem_def, Option.some.injEq, forall_eq', hbool,
    Json.distinct_string, true_and]
  refine ⟨htexts _, htexts _, htexts _, fun v hv ↦ ?_, fun p hp ↦ absurd hp List.not_mem_nil⟩
  obtain ⟨bundle, hbundle, rfl⟩ := Option.map_eq_some_iff.mp hv
  exact ClosureBundle.distinct_toJson (h bundle hbundle)

/-- Nothing that is written has two members of one name. -/
theorem ResolutionResult.distinct_toJson {r : ResolutionResult}
    (hprojected : ∀ doc ∈ r.didDocument, doc.Projected) (hextra : ∀ doc ∈ r.didDocument, doc.ExtraData)
    (hclosure : ∀ bundle ∈ r.didDocumentMetadata.signedClosure, ∀ d ∈ bundle.deltas, ∀ key value,
      d.op = .setDocumentData key value → value.IsValue) : r.toJson.distinct = true := by
  have hmetadata : (Json.object [("contentType", .string r.contentType)]).distinct = true :=
    Json.distinct_object.mpr (by simp)
  have hdocument : ((r.didDocument.map DidDocument.toJson).getD .null).distinct = true := by
    cases hdoc : r.didDocument with
    | none => rw [Option.map_none, Option.getD_none, Json.distinct] <;> simp
    | some doc => exact DidDocument.distinct_toJson (hprojected doc hdoc) (hextra doc hdoc)
  rw [toJson, Json.distinct_object]
  simp [hmetadata, hdocument, DidDocumentMetadata.distinct_toJson hclosure]

end DidCrdt
