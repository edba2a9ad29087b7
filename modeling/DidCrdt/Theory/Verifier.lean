import DidCrdt.Theory.ClosureReplay
import DidCrdt.Theory.PeerAnswers
import DidCrdt.Theory.Resolution
import DidCrdt.Theory.SelfCertifying

/-!
# Verifiers

A verifier trusts none of the projection. It takes the closure out of an answer, creates the document of the
genesis key anew and replays the closure on it (`verify`). The answer of a resolver that holds the document
takes it to the state that was served (`resolution_verifies`). Whatever answer it accepts, the document that it
reaches holds only payloads that the holders of the keys have issued, and with each of them all that it builds
on (`verify_sound`): a resolver can withhold deltas, but not make them up.
-/

set_option autoImplicit false
set_option relaxedAutoImplicit false

namespace DidCrdt

open scoped List

section

variable [Primitives]

/-- Replays a bundle on the document created from the key of its delta without parents. -/
def ClosureBundle.replay (bundle : ClosureBundle) : Option Document :=
  match (bundle.deltas.find? fun d ↦ d.parents.isEmpty).map SignedDelta.op with
  | some (.addVerificationMethod _ publicKeyMultibase _ _) =>
    match (Document.new publicKeyMultibase).1.mergeVerifiedBundle bundle with
    | (doc, .ok _) => some doc
    | (_, .error _) => none
  | _ => none

/-- Verifies what a resolver answered about an identifier. -/
def verify (did : Did) (result : ResolutionResult) : Option Document := do
  let bundle ← result.didDocumentMetadata.signedClosure
  let doc ← bundle.replay
  if doc.did = did then some doc else none

section Served

variable {deltas : Set SignedDelta} {root : SignedDelta} {doc : Document}

/-- Assumes: no two additions of the log have the same id, and its timestamps are distinct. The log replays
on the document created from its key to the same fields. -/
theorem replay_of_perm {publicKeyMultibase : String} (hfree : CollisionFree deltas)
    (hkeys : KeyRefsDistinct (eventsOf deltas)) (hgenesis : Document.genesis publicKeyMultibase ∈ deltas)
    (h : IngestedWhile (fun _ _ ↦ True) deltas publicKeyMultibase doc)
    (hids : DistinctMethodIds doc.deltaLog) (hdistinct : DistinctTimestamps doc.deltaLog)
    {target : DeltaHash} {closure : List SignedDelta} (htarget : target ∈ doc.logHashes)
    (hperm : closure ~ doc.deltaLog) :
    ∃ replayed, ClosureBundle.replay ⟨target, closure⟩ = some replayed ∧
      replayed.toCrdtState = doc.toCrdtState ∧ replayed.frontier = doc.frontier := by
  have hcoherent := h.coherent hfree hgenesis
  -- the delta without parents is the creation delta
  have hroot : closure.find? (fun d ↦ d.parents.isEmpty) = some (Document.genesis publicKeyMultibase) := by
    cases hfind : closure.find? fun d ↦ d.parents.isEmpty with
    | none =>
      have hmem := hperm.mem_iff.mpr hcoherent.history.root_mem
      exact absurd rfl (List.find?_eq_none.mp hfind _ hmem)
    | some d =>
      have hparents := List.find?_some hfind
      have hmem := hperm.mem_iff.mp (List.mem_of_find?_eq_some hfind)
      rw [hcoherent.history.eq_root hmem (List.isEmpty_iff.mp hparents)]
  have hstart : ReplayOf deltas (Document.genesis publicKeyMultibase) doc
      (Document.new publicKeyMultibase).1 := by
    refine ⟨.new publicKeyMultibase hgenesis, fun e he ↦ ?_, .new publicKeyMultibase⟩
    rw [List.mem_singleton.mp he]
    exact hcoherent.history.root_mem
  obtain ⟨run, hmerged, hreplay, hrun⟩ := mergeVerifiedBundle_replays hstart hcoherent
    (h.attested hfree hgenesis) hfree hids hdistinct htarget hperm
  have hlog : ((Document.new publicKeyMultibase).1.recordAll run).deltaLog ~ doc.deltaLog := by
    rwa [deltaLog_recordAll]
  have hsame : heldHashes doc = heldHashes ((Document.new publicKeyMultibase).1.recordAll run) :=
    Set.ext fun hash ↦ (hlog.map SignedDelta.contentHash).symm.mem_iff
  refine ⟨_, ?_, (fields_eq_of_held_eq hcoherent hreplay.coherent hfree hkeys hsame hdistinct
    (h.liveExact hfree hgenesis hdistinct) hreplay.live).symm,
    (frontier_eq_of_held_eq hcoherent hreplay.coherent hfree hsame).symm⟩
  have hop : (Document.genesis publicKeyMultibase).op = .addVerificationMethod
      s!"{(deriveDid publicKeyMultibase).toString}#key-0" publicKeyMultibase .default
      defaultRelationships := rfl
  simp only [ClosureBundle.replay, hroot, Option.map_some, hop, hmerged]

/-- A result with a bundle that replays to a document takes a verifier of its identifier to that document. -/
theorem verify_of_replay {result : ResolutionResult} {bundle : ClosureBundle}
    (hbundle : result.didDocumentMetadata.signedClosure = some bundle) {replayed : Document}
    (hreplay : bundle.replay = some replayed) : verify replayed.did result = some replayed := by
  rw [verify, hbundle]
  change (bundle.replay >>= _) = _
  rw [hreplay]
  exact if_pos rfl

variable [StateDigests]

/-- Assumes: the collection holds the creation delta and does not collide, and neither do the digests of
key references; the identifier is well formed. The answer about a document of verified ingestion, whose held
additions of methods have distinct ids and whose held deltas have distinct timestamps, takes a verifier to the
state and the frontier of the document. -/
theorem resolution_verifies {publicKeyMultibase : String} (hfree : CollisionFree deltas)
    (hkeys : KeyRefsDistinct (eventsOf deltas)) (hgenesis : Document.genesis publicKeyMultibase ∈ deltas)
    (hdid : (deriveDid publicKeyMultibase).WellFormed) {docs : Docs} (hget : docs[doc.did]? = some doc)
    (h : IngestedWhile (fun _ _ ↦ True) deltas publicKeyMultibase doc)
    (hids : DistinctMethodIds doc.deltaLog) (hdistinct : DistinctTimestamps doc.deltaLog) :
    ∃ result replayed, (resolveDid docs doc.did.toString (some "true")).result = some result ∧
      verify doc.did result = some replayed ∧ replayed.toCrdtState = doc.toCrdtState ∧
      replayed.frontier = doc.frontier ∧ replayed.resolve.didDocument = result.didDocument := by
  have hcoherent := h.coherent hfree hgenesis
  obtain ⟨target, closure, -, hclosure, -, hperm, -, htarget, -⟩ := closureBundle_spec hcoherent
  have hheld : target ∈ doc.logHashes := by
    have hhead := (DeltaDag.mem_frontier _ _).mp htarget
    rw [hcoherent.dag] at hhead
    exact ((mem_frontier_of_history hcoherent.history target).mp hhead).1
  obtain ⟨replayed, hreplay, hstate, hfrontier⟩ := replay_of_perm hfree hkeys hgenesis h hids hdistinct
    hheld hperm
  let result : ResolutionResult :=
    { doc.resolve with
      didDocumentMetadata := { doc.resolve.didDocumentMetadata with signedClosure := some ⟨target, closure⟩ } }
  have hresult : doc.resolution (flag (some "true")) = .ok result := by
    rw [Document.resolution, if_pos (by decide), hclosure]
    rfl
  have hwell : doc.did.WellFormed := by
    rw [hcoherent.did]
    exact hdid
  have hanswer : (resolveDid docs doc.did.toString (some "true")).result = some result := by
    unfold resolveDid
    simp only [Did.fromStr_toString hwell, hget, hresult]
    split_ifs <;> rfl
  have hverify : verify replayed.did result = some replayed := verify_of_replay rfl hreplay
  have hsame : replayed.did = doc.did := congrArg CrdtState.did hstate
  rw [hsame] at hverify
  refine ⟨result, replayed, hanswer, hverify, hstate, hfrontier, ?_⟩
  rw [Document.resolve_congr hstate]

end Served

/-! ### Answers of any resolver -/

/-- The payloads were issued by the holders of the keys: no signature of another payload verifies under a key
that one of them adds. -/
def Unforgeable (issued : Set SigningPayload) : Prop :=
  ∀ payload ∈ issued, ∀ id key suite relationships,
    payload.op = .addVerificationMethod id key suite relationships →
      ∀ d, SignedUnder d key → d.signingInput ∈ issued

/-- The parents of an accepted delta are held. -/
theorem Accepts.parents_held {doc : Document} {d : SignedDelta} (h : Accepts doc d) :
    ∀ p ∈ d.parents, doc.dag.contains p = true := by
  intro p hp
  by_contra habsent
  have hmissing : (scanClosure doc.dag d.parents d.signer).missing.isEmpty = false := by
    rw [← Bool.not_eq_true, scanClosure_missing_isEmpty_iff]
    exact fun hcomplete ↦ habsent (hcomplete p (.root hp not_false))
  have hgate := h.causal
  rw [Document.causalGate, verifyCausal_of_ne_nil (List.ne_nil_of_mem hp)] at hgate
  generalize scanClosure doc.dag d.parents d.signer = facts at hgate hmissing
  obtain ⟨added, revoked, deactivated, missing⟩ := facts
  cases revoked <;> cases deactivated <;> simp_all

/-- What a verifier holds is issued, and the keys that it verifies with are those of issued payloads. -/
structure Authentic (issued : Set SigningPayload) (doc : Document) : Prop where
  exists_method : ∃ entry, entry ∈ doc.verificationMethods
  methods : ∀ entry ∈ doc.verificationMethods, ∃ payload ∈ issued, payload.op = entry.addition
  payloads : ∀ d ∈ doc.deltaLog, d.signingInput ∈ issued
  closed : ∀ d ∈ doc.deltaLog, ∀ p ∈ d.parents, doc.dag.contains p = true

namespace Authentic

variable {issued : Set SigningPayload} {doc : Document} {d : SignedDelta}

theorem new {publicKeyMultibase : String}
    (hgenesis : (Document.genesis publicKeyMultibase).signingInput ∈ issued) :
    Authentic issued (Document.new publicKeyMultibase).1 := by
  have hmethods : ∀ entry, entry ∈ (Document.new publicKeyMultibase).1.verificationMethods ↔
      entry.addition = Document.genesisOp publicKeyMultibase := by
    intro entry
    refine (mem_verificationMethods_apply _ _ _ _ entry).trans (or_iff_right fun hempty ↦ ?_)
    exact absurd hempty Std.ExtTreeSet.not_mem_empty
  refine ⟨⟨⟨_, _, _, _⟩, (hmethods _).mpr rfl⟩, fun entry hentry ↦ ⟨_, hgenesis, ?_⟩, fun d hd ↦ ?_,
    fun d hd p hp ↦ ?_⟩
  · exact ((hmethods entry).mp hentry).symm
  · rwa [List.mem_singleton.mp hd]
  · rw [List.mem_singleton.mp hd] at hp
    exact absurd hp List.not_mem_nil

/-- A delta that is recorded after it verified was issued: its key is that of an issued payload. -/
theorem record (hunforgeable : Unforgeable issued) (h : Authentic issued doc) (haccepts : Accepts doc d)
    (hsig : verifySignature d doc = .ok ()) : Authentic issued (doc.record d) := by
  obtain ⟨entry, hfound, hsigned⟩ := (verifySignature_eq_ok_iff h.exists_method).mp hsig
  obtain ⟨hentry, -, -⟩ := (VerificationMethods.findId_eq_some_iff _ _ _).mp hfound
  obtain ⟨payload, hpayload, hop⟩ := h.methods entry hentry
  have hissued : d.signingInput ∈ issued := hunforgeable payload hpayload _ _ _ _ hop d hsigned
  have hheld : ∀ p, doc.dag.contains p = true → (doc.record d).dag.contains p = true := fun p hp ↦
    (DeltaDag.contains_insert _ _ p).mpr (Or.inl hp)
  refine ⟨⟨entry, (mem_verificationMethods_apply _ _ _ _ entry).mpr (Or.inl hentry)⟩, fun e he ↦ ?_,
    fun e he ↦ ?_, fun e he p hp ↦ ?_⟩
  · rcases (mem_verificationMethods_apply _ _ _ _ e).mp he with he | hadds
    · exact h.methods e he
    · exact ⟨_, hissued, hadds.symm⟩
  · rcases List.mem_append.mp he with he | he
    · exact h.payloads e he
    · rwa [List.mem_singleton.mp he]
  · rcases List.mem_append.mp he with he | he
    · exact hheld p (h.closed e he p hp)
    · rw [List.mem_singleton.mp he] at hp
      exact hheld p (haccepts.parents_held p hp)

end Authentic

end

/-- The key `uA` under the id `a`, added by the creation key of `u7`. -/
def addedKey (did : String) : SignedDelta :=
  .readable did (did ++ "#key-0") "u7" 1 55 (.addVerificationMethod "a" "uA" .default defaultRelationships)
    ["0.0.0"]

/-- A revocation by that key. -/
def revokedByKey (did : String) : SignedDelta := .readable did "a" "uA" 2 65 (.revokeCredential "c") ["1.0.55"]

section Hexadecimal

/-- The readable primitives, with documents named after their keys in hexadecimal. -/
@[reducible]
def Primitives.hexadecimal : Primitives :=
  { Primitives.readable with
    seedDigest := fun seed ↦ String.ofList ((seed.2.2.toList.flatMap fun c ↦
      [JsonText.hexDigit (c.toNat / 16), JsonText.hexDigit (c.toNat % 16)]).leftpad 64 '0') }

attribute [local instance] Primitives.hexadecimal StateDigests.readable

/-- The identifier of the document of `u7`. -/
def hexDid : String := "did:crdt:0000000000000000000000000000000000000000000000000000000000007537"

/-- A document that holds the addition and the revocation. -/
def hexDocument : Document :=
  (((Document.new "u7").1.mergeVerifiedDelta (addedKey hexDid)).1.mergeVerifiedDelta (revokedByKey hexDid)).1

theorem deltaLog_hexDocument :
    hexDocument.deltaLog = [Document.genesis "u7", addedKey hexDid, revokedByKey hexDid] := by
  have hfirst : ((Document.new "u7").1.mergeVerifiedDelta (addedKey hexDid)).1 =
      (Document.new "u7").1.record (addedKey hexDid) :=
    Document.mergeVerifiedDelta_fst_of_accepts
      ⟨by decide, by decide, by decide, by decide, by decide⟩ (by decide)
  have hsecond : (((Document.new "u7").1.record (addedKey hexDid)).mergeVerifiedDelta (revokedByKey hexDid)).1 =
      ((Document.new "u7").1.record (addedKey hexDid)).record (revokedByKey hexDid) :=
    Document.mergeVerifiedDelta_fst_of_accepts
      ⟨by decide, by decide, by decide, by decide, by decide⟩ (by decide)
  simp only [hexDocument, hfirst, hsecond, Document.deltaLog_record]
  rfl

/-- The creation and the deltas of the document. -/
abbrev hexIssued : Set SignedDelta := members [Document.genesis "u7", addedKey hexDid, revokedByKey hexDid]

theorem keyRefsDistinct_hexIssued : KeyRefsDistinct (eventsOf hexIssued) := by
  simp [KeyRefsDistinct, occurs_eventsOf_iff, Document.genesis, Document.genesisOp, SignedDelta.unsigned,
    addedKey, revokedByKey]

theorem distinctMethodIds_hexDocument : DistinctMethodIds hexDocument.deltaLog := by
  have honly : ∀ d ∈ hexDocument.deltaLog, ∀ id, d.AddsMethod id →
      d = Document.genesis "u7" ∧ id = hexDid ++ "#key-0" ∨ d = addedKey hexDid ∧ id = "a" := by
    rw [deltaLog_hexDocument]
    rintro d hd id ⟨key, suite, relationships, hop⟩
    simp only [List.mem_cons, List.not_mem_nil, or_false] at hd
    rcases hd with rfl | rfl | rfl
    · exact Or.inl ⟨rfl, (DeltaOp.addVerificationMethod.inj hop).1.symm⟩
    · exact Or.inr ⟨rfl, (DeltaOp.addVerificationMethod.inj hop).1.symm⟩
    · exact absurd hop (by simp [revokedByKey])
  intro d hd e he id hadds hadds'
  rcases honly d hd id hadds with ⟨rfl, rfl⟩ | ⟨rfl, rfl⟩ <;>
    rcases honly e he _ hadds' with ⟨rfl, hid⟩ | ⟨rfl, hid⟩ <;>
      first | rfl | exact absurd hid (by decide)

/-- The answer about the document takes a verifier, which checks both signatures, to the state that it holds. -/
theorem resolution_verifies_signed :
    (revokedByKey hexDid).contentHash ∈ hexDocument.logHashes ∧
      ∃ result replayed, (resolveDid ((∅ : Docs).insert hexDocument.did hexDocument)
          hexDocument.did.toString (some "true")).result = some result ∧
        verify hexDocument.did result = some replayed ∧
        replayed.toCrdtState = hexDocument.toCrdtState ∧ replayed.frontier = hexDocument.frontier ∧
        replayed.resolve.didDocument = result.didDocument := by
  have hdid : (deriveDid "u7").WellFormed := by
    refine ⟨List.replicate 60 '0' ++ ['7', '5', '3', '7'], by decide, rfl, fun c hc ↦ ?_⟩
    simp only [List.mem_append, List.mem_replicate, List.mem_cons, List.not_mem_nil, or_false] at hc
    rcases hc with ⟨-, rfl⟩ | rfl | rfl | rfl | rfl <;> decide
  have hreached : IngestedWhile (fun _ _ ↦ True) hexIssued "u7" hexDocument :=
    .delta (.delta .new (by simp) trivial) (by simp) trivial
  refine ⟨?_, resolution_verifies (.of_nodup (by decide)) keyRefsDistinct_hexIssued (by simp) hdid
    Std.ExtTreeMap.getElem?_insert_self hreached ?_ ?_⟩
  · rw [Document.logHashes, deltaLog_hexDocument]
    simp
  · exact distinctMethodIds_hexDocument
  · rw [DistinctTimestamps, deltaLog_hexDocument]
    decide

end Hexadecimal

section Signing

/-- Whether the payload is that of the addition or of the revocation. -/
def isSigned (payload : SigningPayload) : Bool :=
  payload.did = ⟨"did:crdt:u7"⟩ &&
    match payload.op with
    | .addVerificationMethod id key suite relationships =>
      (id, key, suite, relationships) = ("a", "uA", .default, defaultRelationships) &&
        (payload.parents, payload.timestamp) = ([⟨"0.0.0"⟩], ⟨1, 0, 55⟩)
    | .revokeCredential credentialId =>
      credentialId = "c" && (payload.parents, payload.timestamp) = ([⟨"1.0.55"⟩], ⟨2, 0, 65⟩)
    | _ => false

/-- The readable primitives, under which a key verifies only what was signed. -/
@[reducible]
def Primitives.signing : Primitives :=
  { Primitives.readable with
    ed25519Verifies := fun key payload signature ↦ key = signature && isSigned payload
    secp256k1Verifies := fun key payload signature ↦ key = signature && isSigned payload }

attribute [local instance] Primitives.signing

/-- An answer without a document, and with the closure of the revocation. -/
def answered : ResolutionResult :=
  ⟨"", none, ⟨false, "", none, none, none, some ⟨(revokedByKey "did:crdt:u7").contentHash,
    [revokedByKey "did:crdt:u7", Document.genesis "u7", addedKey "did:crdt:u7"]⟩⟩⟩

end Signing

end DidCrdt
