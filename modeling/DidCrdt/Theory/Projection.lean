import DidCrdt.Core.Resolve
import DidCrdt.Theory.Verified

/-!
# The authority that the projection presents

A verification method grants its relationships to its own key. The projection lists identifiers: the
arrays of the relationships hold the ids of the methods, and so do the twins that it adds for the
asserting methods. A reader of the document takes every method that bears a listed id for one that has
the relationship.

`presents_iff` says what a reader takes from the projection, in terms of the methods of the document
that are not revoked. Two of them may share an id, and one may bear the id of a twin; the projection
confers no authority exactly on the states in which neither widens what was granted (`Unambiguous`). No
id does where the ids tell the methods apart and none is the id of a twin (`unambiguous_of_distinct`).
-/

set_option autoImplicit false
set_option relaxedAutoImplicit false

namespace DidCrdt

/-! ### What a reader takes from a document -/

/-- The array of a relationship. -/
def DidDocument.array (doc : DidDocument) : VerificationRelationship → List Json
  | .authentication => doc.authentication
  | .assertionMethod => doc.assertionMethod
  | .keyAgreement => doc.keyAgreement
  | .capabilityInvocation => doc.capabilityInvocation
  | .capabilityDelegation => doc.capabilityDelegation

/-- The document has the method, and lists the id of the method under the relationship. -/
def DidDocument.Presents (doc : DidDocument) (m : VerificationMethod)
    (r : VerificationRelationship) : Prop :=
  m ∈ doc.verificationMethod ∧ .string m.id ∈ doc.array r

/-- The method of the resolved document for an entry of the state. -/
def VerificationMethodEntry.method (did : Did) (e : VerificationMethodEntry) : VerificationMethod :=
  ⟨e.id, e.suiteType.verificationMethodType, did.toString, some e.publicKeyMultibase, none⟩

/-- The id of a twin. -/
def twinId (did : Did) (index : ℕ) : String := s!"{did.toString}{jwkFragmentPrefix}{index}"

/-- The twin with a number that carries a JWK. -/
def twinMethod (did : Did) (index : ℕ) (jwk : Json) : VerificationMethod :=
  ⟨twinId did index, jsonWebKeyType, did.toString, none, some jwk⟩

namespace DidDocument

@[simp] theorem verificationMethod_place (keyRef : Json) (doc : DidDocument)
    (r : VerificationRelationship) :
    (doc.place keyRef r).verificationMethod = doc.verificationMethod := by
  cases r <;> rfl

theorem mem_array_place (keyRef ref : Json) (doc : DidDocument) (r r' : VerificationRelationship) :
    ref ∈ (doc.place keyRef r').array r ↔ ref ∈ doc.array r ∨ ref = keyRef ∧ r = r' := by
  cases r' <;> cases r <;> simp [place, array]

@[simp] theorem verificationMethod_foldl_place (keyRef : Json) (rels : List VerificationRelationship) :
    ∀ doc : DidDocument,
      (rels.foldl (place keyRef) doc).verificationMethod = doc.verificationMethod := by
  induction rels with
  | nil => exact fun doc ↦ rfl
  | cons r rels ih => exact fun doc ↦ (ih (doc.place keyRef r)).trans (verificationMethod_place ..)

theorem mem_array_foldl_place (keyRef ref : Json) (r : VerificationRelationship)
    (rels : List VerificationRelationship) : ∀ doc : DidDocument,
    ref ∈ (rels.foldl (place keyRef) doc).array r ↔ ref ∈ doc.array r ∨ ref = keyRef ∧ r ∈ rels := by
  induction rels with
  | nil => simp
  | cons r' rels ih =>
    intro doc
    rw [List.foldl_cons, ih, mem_array_place, List.mem_cons]
    tauto

@[simp] theorem verificationMethod_addMethod (did : Did) (doc : DidDocument)
    (e : VerificationMethodEntry) :
    (doc.addMethod did e).verificationMethod = doc.verificationMethod ++ [e.method did] := by
  rw [addMethod, verificationMethod_foldl_place]
  rfl

theorem mem_array_addMethod (did : Did) (doc : DidDocument) (e : VerificationMethodEntry) (ref : Json)
    (r : VerificationRelationship) :
    ref ∈ (doc.addMethod did e).array r ↔
      ref ∈ doc.array r ∨ ref = .string e.id ∧ r ∈ e.relationships := by
  rw [addMethod, mem_array_foldl_place]
  cases r <;> rfl

/-- The methods of a document after some entries were added. -/
theorem verificationMethod_foldl_addMethod (did : Did) (entries : List VerificationMethodEntry) :
    ∀ doc : DidDocument, (entries.foldl (addMethod did) doc).verificationMethod =
      doc.verificationMethod ++ entries.map (VerificationMethodEntry.method did) := by
  induction entries with
  | nil => simp
  | cons e entries ih =>
    intro doc
    rw [List.foldl_cons, ih, verificationMethod_addMethod, List.append_assoc]
    rfl

/-- The arrays of a document after some entries were added. -/
theorem mem_array_foldl_addMethod (did : Did) (ref : Json) (r : VerificationRelationship)
    (entries : List VerificationMethodEntry) : ∀ doc : DidDocument,
    ref ∈ (entries.foldl (addMethod did) doc).array r ↔
      ref ∈ doc.array r ∨ ∃ e ∈ entries, ref = .string e.id ∧ r ∈ e.relationships := by
  induction entries with
  | nil => simp
  | cons e entries ih =>
    intro doc
    rw [List.foldl_cons, ih, mem_array_addMethod, List.exists_mem_cons_iff, or_assoc]

/-- The methods of a document after some twins were added. -/
theorem verificationMethod_foldl_addTwin (twins : List VerificationMethod) : ∀ doc : DidDocument,
    (twins.foldl addTwin doc).verificationMethod = doc.verificationMethod ++ twins := by
  induction twins with
  | nil => simp
  | cons t twins ih =>
    intro doc
    rw [List.foldl_cons, ih]
    simp [addTwin]

/-- The arrays of a document after some twins were added. -/
theorem mem_array_foldl_addTwin (ref : Json) (r : VerificationRelationship)
    (twins : List VerificationMethod) : ∀ doc : DidDocument,
    ref ∈ (twins.foldl addTwin doc).array r ↔
      ref ∈ doc.array r ∨ r = .assertionMethod ∧ ∃ t ∈ twins, ref = .string t.id := by
  induction twins with
  | nil => simp
  | cons t twins ih =>
    intro doc
    rw [List.foldl_cons, ih, List.exists_mem_cons_iff]
    have hadd : ref ∈ (addTwin doc t).array r ↔
        ref ∈ doc.array r ∨ r = .assertionMethod ∧ ref = .string t.id := by
      cases r <;> simp [addTwin, array]
    rw [hadd]
    tauto

end DidDocument

/-! ### The projection of a state -/

namespace CrdtState

/-- The methods whose ids are listed under the assertion relationship before the twins are added. -/
def assertingMethods (s : CrdtState) : List VerificationMethodEntry :=
  s.authorisedMethods.filter fun e ↦
    s.authorisedMethods.any fun e' ↦ e'.id = e.id ∧ .assertionMethod ∈ e'.relationships

/-- The document before the twins are added. -/
def untwinned (s : CrdtState) : DidDocument :=
  s.authorisedMethods.foldl (DidDocument.addMethod s.did) (.empty s.did)

theorem mem_authorisedMethods_iff (s : CrdtState) (e : VerificationMethodEntry) :
    e ∈ s.authorisedMethods ↔
      e ∈ s.verificationMethods ∧ e.id ∉ s.revokedVerificationMethods := by
  rw [authorisedMethods, List.mem_filter, GSet.mem_entries, Bool.not_eq_true',
    ← Bool.not_eq_true]
  exact and_congr_right fun _ ↦ not_congr Std.ExtTreeSet.mem_iff_contains.symm

/-- The methods are listed in the order of their ids. -/
theorem authorisedMethods_sorted (s : CrdtState) :
    s.authorisedMethods.Pairwise fun e e' ↦ e.id ≤ e'.id := by
  have hsorted : (GSet.entries s.verificationMethods).Pairwise fun e e' ↦ e.id ≤ e'.id := by
    have hcmp := Std.ExtTreeSet.ordered_toList (t := s.verificationMethods)
    refine hcmp.imp fun {e e'} h ↦ ?_
    have hlt : e.key < e'.key := compare_lt_iff_lt.mp h
    exact (Prod.Lex.lt_iff.mp hlt).elim le_of_lt fun heq ↦ heq.1.le
  exact hsorted.filter _

theorem mem_assertingMethods_iff (s : CrdtState) (e : VerificationMethodEntry) :
    e ∈ s.assertingMethods ↔ e ∈ s.authorisedMethods ∧
      ∃ e' ∈ s.authorisedMethods, e'.id = e.id ∧ .assertionMethod ∈ e'.relationships := by
  simp [assertingMethods]

theorem verificationMethod_untwinned (s : CrdtState) :
    s.untwinned.verificationMethod =
      s.authorisedMethods.map (VerificationMethodEntry.method s.did) := by
  rw [untwinned, DidDocument.verificationMethod_foldl_addMethod]
  rfl

theorem mem_array_untwinned (s : CrdtState) (ref : Json) (r : VerificationRelationship) :
    ref ∈ s.untwinned.array r ↔
      ∃ e ∈ s.authorisedMethods, ref = .string e.id ∧ r ∈ e.relationships := by
  rw [untwinned, DidDocument.mem_array_foldl_addMethod]
  have hempty : ref ∉ (DidDocument.empty s.did).array r := by cases r <;> exact List.not_mem_nil
  exact or_iff_right hempty

/-- Whether a reference names the id. -/
def refersTo (id : String) : Json → Bool
  | .string s => s = id
  | _ => false

/-- The methods are already in the order in which the twins are numbered. -/
theorem asserting_untwinned (s : CrdtState) :
    s.untwinned.asserting = s.assertingMethods.map (VerificationMethodEntry.method s.did) := by
  have hlisted : ∀ e : VerificationMethodEntry,
      s.untwinned.assertionMethod.any (refersTo (e.method s.did).id) =
      s.authorisedMethods.any fun e' ↦ e'.id = e.id ∧ .assertionMethod ∈ e'.relationships := by
    intro e
    rw [Bool.eq_iff_iff, List.any_eq_true, List.any_eq_true]
    have hmem := fun ref ↦ s.mem_array_untwinned ref .assertionMethod
    change ∀ ref, ref ∈ s.untwinned.assertionMethod ↔ _ at hmem
    constructor
    · rintro ⟨ref, href, hid⟩
      obtain ⟨e', he', rfl, hrel⟩ := (hmem ref).mp href
      exact ⟨e', he', by simpa using ⟨of_decide_eq_true hid, hrel⟩⟩
    · rintro ⟨e', he', hgrant⟩
      have hgrant' : e'.id = e.id ∧ .assertionMethod ∈ e'.relationships := by simpa using hgrant
      exact ⟨.string e'.id, (hmem _).mpr ⟨e', he', rfl, hgrant'.2⟩, decide_eq_true hgrant'.1⟩
  rw [DidDocument.asserting, verificationMethod_untwinned, List.filter_map]
  refine (congrArg
    (fun l ↦ (l.map (VerificationMethodEntry.method s.did)).insertionSort fun a b ↦ a.id ≤ b.id)
    (List.filter_congr fun e _ ↦ hlisted e)).trans ?_
  refine List.Pairwise.insertionSort_eq ?_
  exact List.pairwise_map.mpr (s.authorisedMethods_sorted.filter _)

variable [Primitives]

/-- The twins stand for the asserting methods whose keys can be rendered. -/
theorem mem_twins_iff (s : CrdtState) (t : VerificationMethod) :
    t ∈ s.untwinned.twins s.did ↔ ∃ index e jwk, s.assertingMethods[index]? = some e ∧
      jwkFromMultibase e.publicKeyMultibase = some jwk ∧ t = twinMethod s.did index jwk := by
  rw [DidDocument.twins, asserting_untwinned, List.mem_filterMap]
  constructor
  · rintro ⟨⟨m, index⟩, hmem, hrender⟩
    rw [List.mem_zipIdx_iff_getElem?, List.getElem?_map] at hmem
    obtain ⟨e, hget, rfl⟩ := Option.map_eq_some_iff.mp hmem
    obtain ⟨jwk, hjwk, rfl⟩ := Option.map_eq_some_iff.mp hrender
    exact ⟨index, e, jwk, hget, hjwk, rfl⟩
  · rintro ⟨index, e, jwk, hget, hjwk, rfl⟩
    refine ⟨(e.method s.did, index), ?_, Option.map_eq_some_iff.mpr ⟨jwk, hjwk, rfl⟩⟩
    rw [List.mem_zipIdx_iff_getElem?, List.getElem?_map, hget]
    rfl

/-- What a reader takes from the projection: a method that is not revoked or a twin, under a relationship
that a method with the id has, or under the assertion relationship if a twin has the id. -/
theorem presents_iff (s : CrdtState) (m : VerificationMethod) (r : VerificationRelationship) :
    s.didDocument.Presents m r ↔
      ((∃ e ∈ s.authorisedMethods, m = e.method s.did) ∨ m ∈ s.untwinned.twins s.did) ∧
      ((∃ e ∈ s.authorisedMethods, e.id = m.id ∧ r ∈ e.relationships) ∨
        r = .assertionMethod ∧ ∃ t ∈ s.untwinned.twins s.did, t.id = m.id) := by
  have hmethods : s.didDocument.verificationMethod =
      s.authorisedMethods.map (VerificationMethodEntry.method s.did) ++ s.untwinned.twins s.did := by
    change ((s.untwinned.twins s.did).foldl DidDocument.addTwin s.untwinned).verificationMethod = _
    rw [DidDocument.verificationMethod_foldl_addTwin, verificationMethod_untwinned]
  have harray : ∀ ref, ref ∈ s.didDocument.array r ↔
      ref ∈ ((s.untwinned.twins s.did).foldl DidDocument.addTwin s.untwinned).array r := by
    cases r <;> exact fun ref ↦ Iff.rfl
  rw [DidDocument.Presents, harray, DidDocument.mem_array_foldl_addTwin, mem_array_untwinned, hmethods,
    List.mem_append, List.mem_map]
  simp only [Json.string.injEq, eq_comm]

end CrdtState

/-! ### Authority -/

section

variable [Primitives]

/-- The bytes of a key: what its multibase form decodes to, or the form itself where it does not. -/
def keyBytes (multibase : String) : List UInt8 ⊕ String :=
  match decodeMultibaseU multibase with
  | .ok raw => .inl raw
  | .error _ => .inr multibase

/-- The method carries the key of the entry, in either of the two forms. -/
def VerificationMethod.Carries (m : VerificationMethod) (e : VerificationMethodEntry) : Prop :=
  (∃ multibase, m.publicKeyMultibase = some multibase ∧
    keyBytes multibase = keyBytes e.publicKeyMultibase) ∨
  ∃ jwk, m.publicKeyJwk = some jwk ∧ jwkFromMultibase e.publicKeyMultibase = some jwk

/-- An entry of the state that is not revoked has the key of the method and the relationship. -/
def CrdtState.Grants (s : CrdtState) (m : VerificationMethod) (r : VerificationRelationship) : Prop :=
  ∃ e ∈ s.verificationMethods, e.id ∉ s.revokedVerificationMethods ∧ r ∈ e.relationships ∧ m.Carries e

/-- Whatever the resolved document presents, the state grants. -/
def Document.ConfersNothing [StateDigests] (doc : Document) : Prop :=
  ∀ resolved, doc.resolve.didDocument = some resolved → ∀ m r, resolved.Presents m r →
    doc.toCrdtState.Grants m r

/-- Ids that are shared widen nothing. -/
structure CrdtState.Unambiguous (s : CrdtState) : Prop where
  /-- Of two methods with one id, the key of each has the relationships of the other. -/
  shared : ∀ e ∈ s.authorisedMethods, ∀ e' ∈ s.authorisedMethods, e.id = e'.id →
    ∀ r ∈ e.relationships, ∃ e'' ∈ s.authorisedMethods, r ∈ e''.relationships ∧
      keyBytes e'.publicKeyMultibase = keyBytes e''.publicKeyMultibase
  /-- The key of a twin has the relationships of a method with the id of the twin. -/
  twinned : ∀ index source jwk, s.assertingMethods[index]? = some source →
    jwkFromMultibase source.publicKeyMultibase = some jwk → ∀ e ∈ s.authorisedMethods,
    e.id = twinId s.did index → ∀ r ∈ e.relationships, ∃ e' ∈ s.authorisedMethods,
      r ∈ e'.relationships ∧ jwkFromMultibase e'.publicKeyMultibase = some jwk
  /-- The key of a method with the id of a twin asserts. -/
  asserting : ∀ index source jwk, s.assertingMethods[index]? = some source →
    jwkFromMultibase source.publicKeyMultibase = some jwk → ∀ e ∈ s.authorisedMethods,
    e.id = twinId s.did index → ∃ e' ∈ s.authorisedMethods, .assertionMethod ∈ e'.relationships ∧
      keyBytes e.publicKeyMultibase = keyBytes e'.publicKeyMultibase

/-- Keys with the same bytes have the same JWK. -/
theorem jwkFromMultibase_congr {multibase multibase' : String}
    (h : keyBytes multibase = keyBytes multibase') :
    jwkFromMultibase multibase = jwkFromMultibase multibase' := by
  have hrender : ∀ text, jwkFromMultibase text =
      match decodeMultibaseU text with
      | .ok raw =>
        if raw.length ≠ 32 then none
        else
          some (.object [("crv", .string "Ed25519"), ("kty", .string "OKP"),
            ("x", .string (Primitives.base64Encode raw))])
      | .error _ => none := by
    intro text
    unfold jwkFromMultibase decodeMultibaseU
    grind
  rw [hrender, hrender]
  unfold keyBytes at h
  cases hleft : decodeMultibaseU multibase with
  | ok raw =>
    cases hright : decodeMultibaseU multibase' with
    | ok raw' => rw [hleft, hright] at h; rw [Sum.inl.inj h]
    | error e => rw [hleft, hright] at h; exact absurd h Sum.inl_ne_inr
  | error e =>
    cases hright : decodeMultibaseU multibase' with
    | ok raw' => rw [hleft, hright] at h; exact absurd h Sum.inr_ne_inl
    | error e' => rfl

namespace CrdtState

theorem grants_method_iff (s : CrdtState) (e : VerificationMethodEntry)
    (r : VerificationRelationship) :
    s.Grants (e.method s.did) r ↔ ∃ e' ∈ s.authorisedMethods, r ∈ e'.relationships ∧
      keyBytes e.publicKeyMultibase = keyBytes e'.publicKeyMultibase := by
  simp [Grants, mem_authorisedMethods_iff, VerificationMethod.Carries,
    VerificationMethodEntry.method, and_assoc]

theorem grants_twin_iff (s : CrdtState) (index : ℕ) (jwk : Json) (r : VerificationRelationship) :
    s.Grants (twinMethod s.did index jwk) r ↔ ∃ e ∈ s.authorisedMethods, r ∈ e.relationships ∧
      jwkFromMultibase e.publicKeyMultibase = some jwk := by
  simp [Grants, mem_authorisedMethods_iff, VerificationMethod.Carries, twinMethod, and_assoc]

/-- A method that is listed by its id is granted what the id is listed under. -/
theorem Unambiguous.grants {s : CrdtState} (h : s.Unambiguous) {m : VerificationMethod}
    {r : VerificationRelationship} (hpresents : s.didDocument.Presents m r) : s.Grants m r := by
  obtain ⟨hmethod, hlisted⟩ := (s.presents_iff m r).mp hpresents
  rcases hmethod with ⟨e', he', rfl⟩ | htwin
  · rw [grants_method_iff]
    rcases hlisted with ⟨e, he, hid, hr⟩ | ⟨rfl, t, ht, hid⟩
    · exact h.shared e he e' he' hid r hr
    · obtain ⟨index, source, jwk, hget, hjwk, rfl⟩ := (s.mem_twins_iff t).mp ht
      exact h.asserting index source jwk hget hjwk e' he' hid.symm
  · obtain ⟨index, source, jwk, hget, hjwk, rfl⟩ := (s.mem_twins_iff m).mp htwin
    rw [grants_twin_iff]
    rcases hlisted with ⟨e, he, hid, hr⟩ | ⟨rfl, _⟩
    · exact h.twinned index source jwk hget hjwk e he hid r hr
    · -- the twin stands for a method that shares its id with one that asserts
      obtain ⟨hsource, e, he, hid, hr⟩ :=
        (s.mem_assertingMethods_iff source).mp (List.mem_of_getElem? hget)
      obtain ⟨e'', he'', hr'', hbytes⟩ := h.shared e he source hsource hid _ hr
      exact ⟨e'', he'', hr'', (jwkFromMultibase_congr hbytes).symm.trans hjwk⟩

/-- Where whatever is presented is granted, shared ids widen nothing. -/
theorem unambiguous_of_grants {s : CrdtState}
    (h : ∀ m r, s.didDocument.Presents m r → s.Grants m r) : s.Unambiguous where
  shared := by
    intro e he e' he' hid r hr
    refine (s.grants_method_iff e' r).mp (h _ _ ?_)
    exact (s.presents_iff _ r).mpr ⟨.inl ⟨e', he', rfl⟩, .inl ⟨e, he, hid, hr⟩⟩
  twinned := by
    intro index source jwk hget hjwk e he hid r hr
    have htwin := (s.mem_twins_iff _).mpr ⟨index, source, jwk, hget, hjwk, rfl⟩
    refine (s.grants_twin_iff index jwk r).mp (h _ _ ?_)
    exact (s.presents_iff _ r).mpr ⟨.inr htwin, .inl ⟨e, he, hid, hr⟩⟩
  asserting := by
    intro index source jwk hget hjwk e he hid
    have htwin := (s.mem_twins_iff _).mpr ⟨index, source, jwk, hget, hjwk, rfl⟩
    refine (s.grants_method_iff e _).mp (h _ _ ?_)
    exact (s.presents_iff _ _).mpr ⟨.inl ⟨e, he, rfl⟩, .inr ⟨rfl, _, htwin, hid.symm⟩⟩

/-- Ids that tell the methods apart, and of which none is the id of a twin, widen nothing. -/
theorem unambiguous_of_distinct {s : CrdtState}
    (hdistinct : ∀ e ∈ s.authorisedMethods, ∀ e' ∈ s.authorisedMethods, e.id = e'.id → e = e')
    (hfree : ∀ e ∈ s.authorisedMethods, ∀ index, e.id ≠ twinId s.did index) : s.Unambiguous where
  shared := fun e he e' he' hid r hr ↦ ⟨e, he, hr, by rw [hdistinct e he e' he' hid]⟩
  twinned := fun index _ _ _ _ e he hid ↦ absurd hid (hfree e he index)
  asserting := fun index _ _ _ _ e he hid ↦ absurd hid (hfree e he index)

end CrdtState

/-- The projection of a document confers no authority exactly if the document is deactivated or no shared
id widens what was granted. -/
theorem Document.confersNothing_iff [StateDigests] (doc : Document) :
    doc.ConfersNothing ↔ doc.isDeactivated = true ∨ doc.toCrdtState.Unambiguous := by
  constructor
  · intro h
    by_cases hdeactivated : doc.isDeactivated = true
    · exact .inl hdeactivated
    · exact .inr (CrdtState.unambiguous_of_grants (h _ (if_neg hdeactivated)))
  · rintro (hdeactivated | hunambiguous) resolved hresolved m r hpresents
    · have hnone : doc.resolve.didDocument = none := if_pos hdeactivated
      exact absurd (hnone.symm.trans hresolved) (Option.some_ne_none _).symm
    · have hsome : resolved = doc.toCrdtState.didDocument := by
        change (if doc.isDeactivated then none else some doc.toCrdtState.didDocument) = _ at hresolved
        split_ifs at hresolved with hdeactivated
        exact (Option.some.inj hresolved).symm
      exact hunambiguous.grants (hsome ▸ hpresents)

end

section Readable

attribute [local instance] Primitives.readable StateDigests.readable

/-- The creation key may only authenticate. Its holder adds a key that may assert under the same id, and
the creation key is presented as one that may assert. -/
theorem Document.projection_widens_authority :
    let d := SignedDelta.readable "did:crdt:u7" "did:crdt:u7#key-0" "u7" 1 55
      (.addVerificationMethod "did:crdt:u7#key-0" "uA" .default [.assertionMethod]) ["0.0.0"]
    let result := (Document.new "u7").1.mergeVerifiedDelta d
    result.2 = .ok () ∧ ¬ result.1.ConfersNothing := by
  intro d result
  have hmerged : result = ((Document.new "u7").1.record d, .ok ()) :=
    Document.mergeVerifiedDelta_of_accepts
      ⟨by decide, by decide, by decide, by decide, by decide⟩ (by decide)
  refine ⟨by rw [hmerged], fun h ↦ ?_⟩
  have hgrants := h _ (if_neg (by rw [hmerged]; decide))
  have hunambiguous := CrdtState.unambiguous_of_grants hgrants
  rw [hmerged] at hunambiguous
  -- the two methods, and the keys under which the second one asserts
  let creation : VerificationMethodEntry :=
    ⟨"did:crdt:u7#key-0", "u7", .default, defaultRelationships⟩
  let asserting : VerificationMethodEntry :=
    ⟨"did:crdt:u7#key-0", "uA", .default, [.assertionMethod]⟩
  have hmethods : ((Document.new "u7").1.record d).authorisedMethods = [creation, asserting] := by
    decide
  obtain ⟨e, he, hr, hbytes⟩ := hunambiguous.shared asserting (by simp [hmethods]) creation
    (by simp [hmethods]) rfl .assertionMethod (List.mem_singleton.mpr rfl)
  rw [hmethods, List.mem_pair] at he
  rcases he with rfl | rfl
  · exact absurd hr (by decide)
  · exact absurd hbytes (by decide)

end Readable

end DidCrdt
