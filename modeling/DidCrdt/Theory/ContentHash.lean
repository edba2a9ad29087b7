import DidCrdt.Core.Resolve
import DidCrdt.Theory.StateMerge

/-!
# What the content hash identifies

The content hash is a digest of the replicated fields but for the alias set. Documents with the same
content hash agree on all fields of the tuple (`fields_eq_of_stateContent_eq`). They resolve to the same
document and version, before and after they are joined with a third document, exactly when their alias
registers hold the same write (`contentHash_identifies_iff`): registers with one value and different
timestamps are told apart by a third that was written in between (`alsoKnownAs_eq_of_joined`).

An alias write is invisible to the content hash unless it advances the update time
(`stateContent_record_alias`).
-/

set_option autoImplicit false
set_option relaxedAutoImplicit false

namespace DidCrdt

/-! ### The tuple -/

/-- The state with another alias set. -/
def CrdtState.withAliases (s : CrdtState) (aliases : AlsoKnownAs) : CrdtState :=
  { s with alsoKnownAs := aliases }

@[simp] theorem alsoKnownAs_withAliases (s : CrdtState) (aliases : AlsoKnownAs) :
    (s.withAliases aliases).alsoKnownAs = aliases := rfl

/-- The tuple holds every field but the alias set. -/
theorem fields_eq_of_stateContent_eq {s s' : CrdtState} (h : s.stateContent = s'.stateContent) :
    s = s'.withAliases s.alsoKnownAs :=
  CrdtState.ext (congrArg StateContent.did h) (congrArg StateContent.verificationMethods h)
    (congrArg StateContent.serviceEndpoints h) (congrArg StateContent.documentData h) rfl
    (congrArg StateContent.activeKey h) (congrArg StateContent.revocations h)
    (congrArg StateContent.revokedVerificationMethods h) (congrArg StateContent.deactivated h)
    (congrArg StateContent.createdMs h) (congrArg StateContent.updatedMs h)

/-- The tuple and the aliases are all fields. -/
theorem fields_eq_of_alsoKnownAs_eq {a b : Document}
    (htuple : a.toCrdtState.stateContent = b.toCrdtState.stateContent)
    (haliases : a.alsoKnownAs = b.alsoKnownAs) : a.toCrdtState = b.toCrdtState := by
  rw [fields_eq_of_stateContent_eq htuple, haliases]
  rfl

section

variable [Primitives]

/-- An alias write that does not advance the update time leaves the tuple as it is. -/
theorem stateContent_record_alias {doc : Document} {d : SignedDelta} {uris : List String}
    {wall : U64} (hop : d.op = .setAlsoKnownAs uris) (hupdated : doc.updatedMs = some wall)
    (hwall : d.timestamp.wallMs ≤ wall) :
    (doc.record d).toCrdtState.stateContent = doc.toCrdtState.stateContent := by
  have htouch : CrdtState.touch doc.updatedMs d.timestamp.wallMs = doc.updatedMs := by
    rw [hupdated, CrdtState.touch, if_neg (not_lt.mpr hwall)]
  change (doc.toCrdtState.apply d.op d.timestamp _).stateContent = _
  rw [hop]
  change { doc.toCrdtState.stateContent with
    updatedMs := CrdtState.touch doc.updatedMs d.timestamp.wallMs } = _
  rw [htouch]
  rfl

/-! ### Documents with one content hash -/

/-- The aliases after a join. -/
theorem alsoKnownAs_joined {a c : Document} (hdid : c.did = a.did) :
    (a.joined c).alsoKnownAs = AlsoKnownAs.merge a.alsoKnownAs c.alsoKnownAs := by
  unfold Document.joined Document.mergeState
  rw [if_neg (not_not.mpr hdid)]
  rfl

/-- A join reads the fields alone, and so does a join into another document. -/
theorem joined_congr {a b : Document} (h : a.toCrdtState = b.toCrdtState) (c : Document) :
    (a.joined c).toCrdtState = (b.joined c).toCrdtState ∧
      (c.joined a).toCrdtState = (c.joined b).toCrdtState := by
  have hdid : a.did = b.did := congrArg CrdtState.did h
  unfold Document.joined Document.mergeState
  rw [hdid]
  constructor
  · split_ifs with hother
    · exact h
    · exact congrArg (fun s ↦ Document.mergeFields s c.toCrdtState) h
  · split_ifs with hother
    · rfl
    · exact congrArg (Document.mergeFields c.toCrdtState) h

/-- The document after its aliases were written. -/
def Document.writeAliases (doc : Document) (uris : List String) (timestamp : HlcTimestamp) :
    Document :=
  { doc with alsoKnownAs := doc.alsoKnownAs.set uris timestamp }

/-- Documents of one DID whose aliases are alike, before and after they are joined with the older of
the two once its aliases were written again, hold the same write. -/
theorem alsoKnownAs_eq_of_joined {a b : Document} (hdid : a.did = b.did)
    (hentries : a.alsoKnownAs.entries = b.alsoKnownAs.entries)
    (hjoined : ∀ c : Document,
      (a.joined c).alsoKnownAs.entries = (b.joined c).alsoKnownAs.entries) :
    a.alsoKnownAs = b.alsoKnownAs := by
  obtain ⟨uris, hother⟩ : ∃ uris, OrderedMaps.sortDedup uris ≠ a.alsoKnownAs.entries := by
    by_cases hnone : a.alsoKnownAs.entries = []
    · exact ⟨["a:b"], by rw [hnone]; decide⟩
    · exact ⟨[], fun hempty ↦ hnone hempty.symm⟩
  have ha := hjoined (a.writeAliases uris b.alsoKnownAs.marker)
  have hb := hjoined (b.writeAliases uris a.alsoKnownAs.marker)
  have hself : ∀ (doc : Document) timestamp, (doc.writeAliases uris timestamp).did = doc.did :=
    fun _ _ ↦ rfl
  rw [alsoKnownAs_joined (hself a _), alsoKnownAs_joined ((hself a _).trans hdid)] at ha
  rw [alsoKnownAs_joined ((hself b _).trans hdid.symm), alsoKnownAs_joined (hself b _)] at hb
  exact LastWriter.LWWReg.eq_of_val_update_eq hentries hother ha hb

variable [StateDigests]

/-- A resolver returns the same document and version for both, and both have one content hash. -/
structure Document.Alike (a b : Document) : Prop where
  contentHash : a.contentHash = b.contentHash
  didDocument : a.resolve.didDocument = b.resolve.didDocument
  versionId : a.resolve.didDocumentMetadata.versionId = b.resolve.didDocumentMetadata.versionId

theorem Document.Alike.of_fields {a b : Document} (h : a.toCrdtState = b.toCrdtState) :
    a.Alike b where
  contentHash := by rw [Document.contentHash, Document.contentHash, h]
  didDocument := by rw [Document.resolve_congr h]
  versionId := by rw [Document.resolve_congr h]

theorem Document.Alike.aliases {a b : Document} (h : a.Alike b)
    (hversion : StateDigests.version a.toCrdtState.versionContent =
      StateDigests.version b.toCrdtState.versionContent →
      a.toCrdtState.versionContent = b.toCrdtState.versionContent) :
    a.alsoKnownAs.entries = b.alsoKnownAs.entries :=
  congrArg VersionContent.alsoKnownAs (hversion h.versionId)

/-- Assumes: the digests of the tuples of the two documents do not collide, and neither do those of
their versions, also after a join with a third. Two documents with the same content hash are alike, and
stay alike when a third is joined into both and when both are joined into a third, exactly when their
aliases were written alike, value and timestamp. -/
theorem contentHash_identifies_iff (a b : Document)
    (hcontent : StateDigests.content a.toCrdtState.stateContent =
      StateDigests.content b.toCrdtState.stateContent →
      a.toCrdtState.stateContent = b.toCrdtState.stateContent)
    (hversion : StateDigests.version a.toCrdtState.versionContent =
      StateDigests.version b.toCrdtState.versionContent →
      a.toCrdtState.versionContent = b.toCrdtState.versionContent)
    (hjoined : ∀ c : Document,
      StateDigests.version (a.joined c).toCrdtState.versionContent =
        StateDigests.version (b.joined c).toCrdtState.versionContent →
      (a.joined c).toCrdtState.versionContent = (b.joined c).toCrdtState.versionContent)
    (hsame : a.contentHash = b.contentHash) :
    (a.Alike b ∧ ∀ c : Document, (a.joined c).Alike (b.joined c) ∧ (c.joined a).Alike (c.joined b)) ↔
      a.alsoKnownAs = b.alsoKnownAs := by
  have htuple := hcontent hsame
  constructor
  · rintro ⟨halike, hthird⟩
    refine alsoKnownAs_eq_of_joined (congrArg StateContent.did htuple) (halike.aliases hversion) ?_
    exact fun c ↦ (hthird c).1.aliases (hjoined c)
  · intro haliases
    have hfields := fields_eq_of_alsoKnownAs_eq htuple haliases
    refine ⟨.of_fields hfields, fun c ↦ ?_⟩
    exact ⟨.of_fields (joined_congr hfields c).1, .of_fields (joined_congr hfields c).2⟩

end

section Readable

attribute [local instance] Primitives.readable StateDigests.readable

/-- A document of the key `u7` with a revoked credential. -/
def credentialRevoked : Document :=
  ((Document.new "u7").1.merge
    (.readable "did:crdt:u7" "did:crdt:u7#key-0" "u7" 5 55 (.revokeCredential "c") ["0.0.0"])).1

/-- An alias write of an earlier time. -/
def aliasWrite (uris : List String) : SignedDelta :=
  .readable "did:crdt:u7" "did:crdt:u7#key-0" "u7" 4 55 (.setAlsoKnownAs uris) ["0.0.0"]

/-- Another revocation of the credential, of an earlier time. -/
def revokedAgain : SignedDelta :=
  .readable "did:crdt:u7" "did:crdt:u7#key-0" "u7" 4 55 (.revokeCredential "c") ["0.0.0"]

theorem toCrdtState_merge_revokedAgain :
    (credentialRevoked.merge revokedAgain).1.toCrdtState = credentialRevoked.toCrdtState := by
  have haccepts : Accepts credentialRevoked revokedAgain :=
    ⟨by decide, by decide, by decide, by decide, by decide⟩
  have hupdated : credentialRevoked.updatedMs = some 5 := by decide
  have hwall : (4 : U64) ≤ 5 := by decide
  have htouch : CrdtState.touch credentialRevoked.updatedMs 4 = credentialRevoked.updatedMs := by
    rw [hupdated, CrdtState.touch, if_neg (not_lt.mpr hwall)]
  have hheld : credentialRevoked.revocations.insert "c" = credentialRevoked.revocations := by
    decide
  rw [Document.merge_of_accepts haccepts]
  change { credentialRevoked.toCrdtState with
    updatedMs := CrdtState.touch credentialRevoked.updatedMs 4
    revocations := credentialRevoked.revocations.insert "c" } = credentialRevoked.toCrdtState
  rw [htouch, hheld]

theorem stateContent_merge_aliasWrite (uris : List String)
    (haccepts : Accepts credentialRevoked (aliasWrite uris)) :
    (credentialRevoked.merge (aliasWrite uris)).1.toCrdtState.stateContent =
      credentialRevoked.toCrdtState.stateContent := by
  rw [Document.merge_of_accepts haccepts]
  have hupdated : credentialRevoked.updatedMs = some 5 := by decide
  have hwall : (4 : U64) ≤ 5 := by decide
  exact stateContent_record_alias rfl hupdated hwall

/-- Revoking the credential once more, at an earlier time, is seen by neither the content hash nor the
resolver, and by no join. -/
theorem contentHash_identifies_iff_repeated :
    let doc := (credentialRevoked.merge revokedAgain).1
    credentialRevoked.logHashes ≠ doc.logHashes ∧
      doc.Alike credentialRevoked ∧
        ∀ c : Document, (doc.joined c).Alike (credentialRevoked.joined c) ∧
          (c.joined doc).Alike (c.joined credentialRevoked) := by
  intro doc
  have hfields : doc.toCrdtState = credentialRevoked.toCrdtState := toCrdtState_merge_revokedAgain
  refine ⟨by decide, (contentHash_identifies_iff doc credentialRevoked (fun _ ↦ ?_) (fun _ ↦ ?_)
    (fun c _ ↦ ?_) ?_).mpr ?_⟩
  · rw [hfields]
  · rw [hfields]
  · rw [(joined_congr hfields c).1]
  · rw [Document.contentHash, hfields, Document.contentHash]
  · rw [hfields]

/-- An admitted alias write changes the version that is resolved and leaves the hashed tuple, and so
the content hash, as it was. -/
theorem contentHash_misses_alias :
    let doc := (credentialRevoked.merge (aliasWrite ["a:b"])).1
    (credentialRevoked.merge (aliasWrite ["a:b"])).2 = .ok () ∧
      doc.toCrdtState.stateContent = credentialRevoked.toCrdtState.stateContent ∧
      doc.contentHash = credentialRevoked.contentHash ∧
      doc.resolve.didDocument ≠ credentialRevoked.resolve.didDocument ∧
      doc.resolve.didDocumentMetadata.versionId ≠
        credentialRevoked.resolve.didDocumentMetadata.versionId := by
  intro doc
  have haccepts : Accepts credentialRevoked (aliasWrite ["a:b"]) :=
    ⟨by decide, by decide, by decide, by decide, by decide⟩
  have htuple := stateContent_merge_aliasWrite ["a:b"] haccepts
  have haliases : doc.resolve.didDocument.map DidDocument.alsoKnownAs ≠
      credentialRevoked.resolve.didDocument.map DidDocument.alsoKnownAs := by decide
  refine ⟨by rw [Document.merge_of_accepts haccepts], htuple, ?_, fun hsame ↦ haliases (by rw [hsame]),
    by decide⟩
  rw [Document.contentHash, htuple, Document.contentHash]

end Readable

end DidCrdt
