import DidCrdt.Theory.Verified

/-!
# Who a delta is attributed to

The hash of a delta does not cover its proof, so the id of the signer can be changed without changing the
delta. The timestamp binds the bytes of the signer's key and not its id, and one key may be registered under
several ids. When the ids of two deltas with one hash do not both lead to a key of the timestamp's node, one
signer is bound (`signer_bound_of_nodes`), as in every document that registers no key under two ids. When
they do, what ingestion makes of the two can differ (`Coherent.bound_iff_not_ambiguous`): one mutation is
attributed to either id, or a mutation that is refused for one, which is revoked say, is accepted for the
other (`signer_bound_fails_revoked`).
-/

set_option autoImplicit false
set_option relaxedAutoImplicit false

namespace DidCrdt

/-- The text of the refusal of a delta for its causal past. -/
def causalRefusal (reason : RejectReason) : String :=
  s!"delta is causally unauthorised ({reason.debug}): its signer's " ++
    "authorisation is not present in its causal past"

theorem head?_append {text : String} {c : Char} (rest : String) (h : text.toList.head? = some c) :
    (text ++ rest).toList.head? = some c := by
  rw [String.toList_append, List.head?_append, h]
  rfl

theorem head?_causalRefusal (reason : RejectReason) : (causalRefusal reason).toList.head? = some 'd' :=
  head?_append _ (head?_append _ (head?_append _ (by decide)))

section

variable [Primitives]

/-! ### What ingestion answers -/

/-- A delta that was not held is accepted. -/
def NewlyAccepts (doc : Document) (d : SignedDelta) : Prop :=
  doc.dag.contains d.contentHash = false ∧ (doc.mergeVerifiedDelta d).2 = .ok ()

/-- A delta is refused because its signer is revoked, or not authorised, in its causal past. -/
def RefusesSigner (doc : Document) (d : SignedDelta) : Prop :=
  (doc.mergeVerifiedDelta d).2 = .error (.unauthorised (causalRefusal .revoked)) ∨
    (doc.mergeVerifiedDelta d).2 = .error (.unauthorised (causalRefusal .signerNotAuthorised))

theorem newlyAccepts_iff (doc : Document) (d : SignedDelta) :
    NewlyAccepts doc d ↔ Accepts doc d ∧ verifySignature d doc = .ok () := by
  constructor
  · rintro ⟨hnew, hok⟩
    unfold Document.mergeVerifiedDelta at hok
    rw [if_neg (by simp [hnew])] at hok
    have hmerge : verifySignature d doc = .ok () ∧ (doc.merge d).2 = .ok () := by
      cases hverdict : verifyCausal d doc.dag with
      | unknown missing => simp [hverdict] at hok
      | _ =>
        cases hsig : verifySignature d doc with
        | error e => simp [hverdict, hsig] at hok
        | ok _ => exact ⟨rfl, by simpa [hverdict, hsig] using hok⟩
    refine ⟨?_, hmerge.1⟩
    by_contra hrefused
    have hheld := (Document.merge_of_not_accepts hrefused).2 hmerge.2
    rw [hnew] at hheld
    exact Bool.false_ne_true hheld
  · rintro ⟨haccepts, hsig⟩
    exact ⟨haccepts.new, congrArg Prod.snd (Document.mergeVerifiedDelta_of_accepts haccepts hsig)⟩

/-! ### Which check refused -/

/-- The errors of the signature check are told apart from a causal refusal by their first letter. -/
theorem verifySignature_ne_causalRefusal (d : SignedDelta) (doc : Document) (reason : RejectReason) :
    verifySignature d doc ≠ .error (.unauthorised (causalRefusal reason)) := by
  have hmethod : (s!"verification method {d.signer} not found in document").toList.head? = some 'v' :=
    head?_append _ (head?_append _ (by decide))
  have hnode : ∀ n m : ℕ, (s!"node_id {n} does not match BLAKE3 hash of " ++
      s!"signer public key (expected {m})").toList.head? = some 'n' :=
    fun n m ↦ head?_append _ (head?_append _ (head?_append _ (by decide)))
  have htext : ∀ {text : String} {c : Char}, text.toList.head? = some c → c ≠ 'd' →
      text ≠ causalRefusal reason := by
    rintro text c hc hne rfl
    exact hne (Option.some.inj (hc.symm.trans (head?_causalRefusal reason)))
  intro h
  unfold verifySignature at h
  split at h
  · split at h <;> simp at h
  · split at h
    · rename_i e hdecode
      rw [Except.error.inj h] at hdecode
      unfold decodeMultibaseU at hdecode
      grind
    · split at h
      · exact htext hmethod (by decide) (Error.unauthorised.inj (Except.error.inj h))
      · rename_i sigBytes _ entry _
        unfold verifyUnderKey at h
        split at h
        · rename_i e hdecode
          rw [Except.error.inj h] at hdecode
          unfold decodeMultibaseU at hdecode
          grind
        · dsimp only at h
          split at h
          · exact htext (hnode _ _) (by decide) (Error.unauthorised.inj (Except.error.inj h))
          · split at h <;> grind

theorem staticGates_ne_unauthorised (doc : Document) (d : SignedDelta) (text : String) :
    doc.staticGates d ≠ .error (.unauthorised text) := by
  intro h
  rcases staticGates_error h with ⟨_, hrejected⟩ | ⟨_, _, hlarge⟩
  · exact Error.noConfusion hrejected
  · exact Error.noConfusion hlarge

section Signers

variable {deltas : Set SignedDelta} {root : SignedDelta} {doc : Document} {d d' : SignedDelta}

/-- A coherent document accepts a new delta that passes the gates and is causally valid. -/
theorem Coherent.accepts_iff_valid (h : Coherent deltas root doc) :
    Accepts doc d ↔ doc.dag.contains d.contentHash = false ∧ PassesGates doc.did d ∧
      verifyCausal d doc.dag = .valid := by
  rw [← staticGates_eq_ok_iff, ← h.gate_and_floor_iff]
  constructor
  · intro ha
    exact ⟨ha.new, ⟨ha.gates, ha.canonical⟩, ha.causal, ha.floor⟩
  · rintro ⟨hnew, ⟨hgates, hcanonical⟩, hcausal, hfloor⟩
    exact ⟨hgates, hnew, hcanonical, hcausal, hfloor⟩

/-- A delta that is refused for its causal past passed the checks before. -/
theorem Coherent.of_causalRefusal (h : Coherent deltas root doc) {reason : RejectReason}
    (hrefused : (doc.mergeVerifiedDelta d).2 = .error (.unauthorised (causalRefusal reason))) :
    verifySignature d doc = .ok () ∧ PassesGates doc.did d ∧ verifyCausal d doc.dag ≠ .valid := by
  unfold Document.mergeVerifiedDelta at hrefused
  by_cases hheld : doc.dag.contains d.contentHash = true
  · simp [hheld] at hrefused
  rw [if_neg hheld] at hrefused
  have hpassed : verifySignature d doc = .ok () ∧
      (doc.merge d).2 = .error (.unauthorised (causalRefusal reason)) := by
    cases hverdict : verifyCausal d doc.dag with
    | unknown missing => simp [hverdict] at hrefused
    | _ =>
      cases hsig : verifySignature d doc with
      | error e =>
        simp only [hverdict, hsig, Except.error.injEq] at hrefused
        exact absurd (hsig.trans (congrArg _ hrefused)) (verifySignature_ne_causalRefusal d doc reason)
      | ok _ => exact ⟨rfl, by simpa [hverdict, hsig] using hrefused⟩
  obtain ⟨hsig, hmerge⟩ := hpassed
  have hgates : PassesGates doc.did d := by
    rw [← staticGates_eq_ok_iff]
    unfold Document.merge at hmerge
    cases hstatic : doc.staticGates d with
    | error e =>
      simp only [hstatic, Except.error.injEq] at hmerge
      exact absurd (hstatic.trans (congrArg _ hmerge)) (staticGates_ne_unauthorised doc d _)
    | ok _ =>
      refine ⟨rfl, ?_⟩
      by_contra hcanonical
      rw [Bool.not_eq_true] at hcanonical
      simp [hstatic, hheld, hcanonical] at hmerge
  refine ⟨hsig, hgates, fun hvalid ↦ ?_⟩
  have haccepts := h.accepts_iff_valid.mpr ⟨Bool.not_eq_true _ ▸ hheld, hgates, hvalid⟩
  rw [Document.merge_of_accepts haccepts] at hmerge
  exact absurd hmerge (by simp)

/-- A new delta that passes the checks before is refused for what its causal past lacks. -/
theorem Coherent.causalRefusal_of_invalid (h : Coherent deltas root doc) {reason : RejectReason}
    (hnew : doc.dag.contains d.contentHash = false) (hgates : PassesGates doc.did d)
    (hsig : verifySignature d doc = .ok ()) (hverdict : verifyCausal d doc.dag = .invalid reason) :
    (doc.mergeVerifiedDelta d).2 = .error (.unauthorised (causalRefusal reason)) := by
  obtain ⟨hstatic, hcanonical⟩ := (staticGates_eq_ok_iff doc d).mpr hgates
  -- the signature was checked under a key that a held delta adds, so that nothing is left to the floor
  have hadded : doc.dag.hasAuthorisingDelta d.signer = true := by
    obtain ⟨e, hfound, -⟩ := (verifySignature_eq_ok_iff h.exists_method).mp hsig
    obtain ⟨he, hid, -⟩ := (VerificationMethods.findId_eq_some_iff _ _ _).mp hfound
    exact (h.containsId_iff _).mp ((VerificationMethods.containsId_iff _ _).mpr ⟨e, he, hid⟩)
  have hgate : doc.causalGate d = .error (.unauthorised (causalRefusal reason)) := by
    rw [Document.causalGate, hverdict]
    simp only [hadded, Bool.not_true, Bool.and_false, Bool.false_eq_true, ↓reduceIte]
    rfl
  unfold Document.mergeVerifiedDelta Document.merge
  simp only [hnew, hverdict, hsig, hstatic, hcanonical, hgate, Bool.false_eq_true, ↓reduceIte,
    Bool.not_true]

omit [Primitives] in
/-- Beside a delta that is causally valid, one with the same parents lacks at most the authority of its
own signer. -/
theorem verifyCausal_of_valid {dag : DeltaDag} (hparents : d.parents = d'.parents)
    (hgrounded : d'.parents ≠ []) (hvalid : verifyCausal d' dag = .valid) :
    verifyCausal d dag = .valid ∨ verifyCausal d dag = .invalid .revoked ∨
      verifyCausal d dag = .invalid .signerNotAuthorised := by
  obtain ⟨hcomplete, -, -, hactive⟩ := (verifyCausal_eq_valid_iff hgrounded).mp hvalid
  rw [verifyCausal_of_ne_nil (hparents ▸ hgrounded), hparents]
  have hmissing := (scanClosure_missing_isEmpty_iff dag d'.parents d.signer).mpr hcomplete
  have hdeactivated := mt (scanClosure_deactivated dag d'.parents d.signer).mp hactive
  simp only [hmissing, hdeactivated, Bool.not_true, Bool.false_eq_true, ↓reduceIte]
  split_ifs <;> simp

/-- The two deltas name different ids whose keys in the document both verify them, and the second of them
is one that the document accepts. -/
structure Ambiguous (doc : Document) (d d' : SignedDelta) : Prop where
  signers : d.signer ≠ d'.signer
  new : doc.dag.contains d'.contentHash = false
  gates : PassesGates doc.did d
  verifies : verifySignature d doc = .ok ()
  gates' : PassesGates doc.did d'
  verifies' : verifySignature d' doc = .ok ()
  valid' : verifyCausal d' doc.dag = .valid

/-- Assumes: the deltas have one payload. -/
theorem Coherent.bound_iff_not_ambiguous (h : Coherent deltas root doc)
    (hpayload : d.signingInput = d'.signingInput) :
    ((NewlyAccepts doc d → NewlyAccepts doc d' → d.signer = d'.signer) ∧
      (RefusesSigner doc d → ¬ NewlyAccepts doc d')) ↔ ¬ Ambiguous doc d d' := by
  have hparents : d.parents = d'.parents := congrArg SigningPayload.parents hpayload
  have hop : d.op = d'.op := congrArg SigningPayload.op hpayload
  have hhash : d.contentHash = d'.contentHash :=
    SignedDelta.contentHash_congr hpayload
  simp only [newlyAccepts_iff, h.accepts_iff_valid]
  constructor
  · rintro ⟨hsame, hrefuses⟩ hambiguous
    have hgrounded : d'.parents ≠ [] :=
      ((verifyCausal_rebuild_iff h.history d').mp (h.dag ▸ hambiguous.valid')).1
    have hnew : doc.dag.contains d.contentHash = false := hhash ▸ hambiguous.new
    have haccepted' := And.intro (And.intro hambiguous.new
      (And.intro hambiguous.gates' hambiguous.valid')) hambiguous.verifies'
    rcases verifyCausal_of_valid hparents hgrounded hambiguous.valid' with hvalid | hverdict | hverdict
    · exact hambiguous.signers
        (hsame ⟨⟨hnew, hambiguous.gates, hvalid⟩, hambiguous.verifies⟩ haccepted')
    · exact hrefuses (Or.inl (h.causalRefusal_of_invalid hnew hambiguous.gates hambiguous.verifies
        hverdict)) haccepted'
    · exact hrefuses (Or.inr (h.causalRefusal_of_invalid hnew hambiguous.gates hambiguous.verifies
        hverdict)) haccepted'
  · intro hnot
    constructor
    · rintro ⟨⟨_, hgates, _⟩, hsig⟩ ⟨⟨hnew', hgates', hvalid'⟩, hsig'⟩
      by_contra hsigners
      exact hnot ⟨hsigners, hnew', hgates, hsig, hgates', hsig', hvalid'⟩
    · rintro hrefused ⟨⟨hnew', hgates', hvalid'⟩, hsig'⟩
      have hpassed : verifySignature d doc = .ok () ∧ PassesGates doc.did d ∧
          verifyCausal d doc.dag ≠ .valid := by
        rcases hrefused with hrefused | hrefused
        · exact h.of_causalRefusal hrefused
        · exact h.of_causalRefusal hrefused
      obtain ⟨hsig, hgates, hinvalid⟩ := hpassed
      by_cases hsigners : d.signer = d'.signer
      · -- the verdict reads the operation, the parents and the signer only
        refine hinvalid (Eq.trans ?_ hvalid')
        unfold verifyCausal
        rw [hparents, hop, hsigners]
      · exact hnot ⟨hsigners, hnew', hgates, hsig, hgates', hsig', hvalid'⟩

/-- The entry that the signer's id names has a key that is bound to the node of the timestamp. -/
def SignerOfNode (doc : Document) (d : SignedDelta) : Prop :=
  ∃ e key, VerificationMethods.findId doc.verificationMethods d.signer = some e ∧
    decodeMultibaseU e.publicKeyMultibase = .ok key ∧ d.timestamp.nodeId = Primitives.nodeDigest key

theorem node_of_signedUnder {publicKeyMultibase : String}
    (hsigned : SignedUnder d publicKeyMultibase) :
    ∃ key, decodeMultibaseU publicKeyMultibase = .ok key ∧
      d.timestamp.nodeId = Primitives.nodeDigest key := by
  obtain ⟨-, sigBytes, -, hverifies⟩ := hsigned
  unfold verifyUnderKey at hverifies
  cases hkey : decodeMultibaseU publicKeyMultibase with
  | error err => simp [hkey] at hverifies
  | ok key =>
    refine ⟨key, rfl, ?_⟩
    by_contra hnode
    simp [hkey, hnode] at hverifies

theorem Coherent.signerOfNode (h : Coherent deltas root doc) (hsig : verifySignature d doc = .ok ()) :
    SignerOfNode doc d := by
  obtain ⟨e, hfound, hsigned⟩ := (verifySignature_eq_ok_iff h.exists_method).mp hsig
  obtain ⟨key, hkey, hnode⟩ := node_of_signedUnder hsigned
  exact ⟨e, key, hfound, hkey, hnode⟩

/-- Both deltas of an ambiguous pair are bound to their node. -/
theorem Coherent.not_ambiguous_of_nodes (h : Coherent deltas root doc)
    (hnodes : d.signer ≠ d'.signer → ¬ (SignerOfNode doc d ∧ SignerOfNode doc d')) :
    ¬ Ambiguous doc d d' :=
  fun hambiguous ↦ hnodes hambiguous.signers
    ⟨h.signerOfNode hambiguous.verifies, h.signerOfNode hambiguous.verifies'⟩

end Signers

/-- Assumes: the collection holds the creation delta and does not collide. In a document reached by
verified ingestion, of two deltas with one hash, accepting both attributes them to one signer, and
refusing the first for its signer excludes accepting the second, unless they name different ids whose keys
are both bound to the node of their timestamp. -/
theorem signer_bound_of_nodes (publicKeyMultibase : String) (deltas : Set SignedDelta)
    (hfree : CollisionFree deltas) (hgenesis : Document.genesis publicKeyMultibase ∈ deltas)
    (doc : Document) (hdoc : IngestedWhile (fun _ _ ↦ True) deltas publicKeyMultibase doc)
    (d d' : SignedDelta) (hd : d ∈ deltas) (hd' : d' ∈ deltas) (hhash : d.contentHash = d'.contentHash)
    (hnodes : d.signer ≠ d'.signer → ¬ (SignerOfNode doc d ∧ SignerOfNode doc d')) :
    (NewlyAccepts doc d → NewlyAccepts doc d' → d.signer = d'.signer) ∧
      (RefusesSigner doc d → ¬ NewlyAccepts doc d') :=
  have hcoherent := hdoc.coherent hfree hgenesis
  (hcoherent.bound_iff_not_ambiguous (hfree d hd d' hd' hhash)).mpr
    (hcoherent.not_ambiguous_of_nodes hnodes)

end

section Readable

attribute [local instance] Primitives.readable

/-- The key of the creation, registered under a second id. -/
def secondId : SignedDelta :=
  .readable "did:crdt:u7" "did:crdt:u7#key-0" "u7" 1 55
    (.addVerificationMethod "k" "u7" .default defaultRelationships) ["0.0.0"]

/-- The revocation of the first id. -/
def firstIdRevoked : SignedDelta :=
  .readable "did:crdt:u7" "k" "u7" 2 55 (.revokeVerificationMethod "did:crdt:u7#key-0") ["1.0.55"]

/-- A mutation under an id of the key, after the revocation. -/
def mutationBy (signer : String) : SignedDelta :=
  .readable "did:crdt:u7" signer "u7" 3 55 (.revokeCredential "c") ["2.0.55"]

/-- The document in which the first id of the key is revoked and the second is not. -/
def withRevokedId : Document :=
  (((Document.new "u7").1.mergeVerifiedDelta secondId).1.mergeVerifiedDelta firstIdRevoked).1

theorem withRevokedId_eq :
    withRevokedId = ((Document.new "u7").1.record secondId).record firstIdRevoked := by
  have hfirst : ((Document.new "u7").1.mergeVerifiedDelta secondId).1 =
      (Document.new "u7").1.record secondId :=
    Document.mergeVerifiedDelta_fst_of_accepts
      ⟨by decide, by decide, by decide, by decide, by decide⟩ (by decide)
  have hsecond : (((Document.new "u7").1.record secondId).mergeVerifiedDelta firstIdRevoked).1 =
      ((Document.new "u7").1.record secondId).record firstIdRevoked :=
    Document.mergeVerifiedDelta_fst_of_accepts
      ⟨by decide, by decide, by decide, by decide, by decide⟩ (by decide)
  rw [withRevokedId, hfirst, hsecond]

/-- Another key under the second id. -/
def otherKey : SignedDelta :=
  .readable "did:crdt:u7" "did:crdt:u7#key-0" "u7" 2 55
    (.addVerificationMethod "k" "u8" .default defaultRelationships) ["0.0.0"]

/-- The document of two keys, each under an id of its own. -/
def withOtherKey : Document := ((Document.new "u7").1.mergeVerifiedDelta otherKey).1

theorem withOtherKey_eq : withOtherKey = (Document.new "u7").1.record otherKey :=
  Document.mergeVerifiedDelta_fst_of_accepts
    ⟨by decide, by decide, by decide, by decide, by decide⟩ (by decide)

/-- A mutation is accepted under the id of its key, and not when it names the id of the other. -/
theorem signer_bound_of_nodes_renamed :
    NewlyAccepts withOtherKey (mutationBy "did:crdt:u7#key-0") ∧
      ¬ NewlyAccepts withOtherKey (mutationBy "k") := by
  have hfree : CollisionFree (insert (mutationBy "k")
      (members [Document.genesis "u7", otherKey, mutationBy "did:crdt:u7#key-0"])) :=
    (CollisionFree.of_nodup (by decide)).insert (e := mutationBy "did:crdt:u7#key-0") (by simp) rfl
  have haccepts : NewlyAccepts withOtherKey (mutationBy "did:crdt:u7#key-0") := by
    rw [newlyAccepts_iff, withOtherKey_eq]
    exact ⟨⟨by decide, by decide, by decide, by decide, by decide⟩, by decide⟩
  have hother : ¬ SignerOfNode withOtherKey (mutationBy "k") := by
    rintro ⟨e, key, hfound, hkey, hnode⟩
    have hmethod : VerificationMethods.findId withOtherKey.verificationMethods "k" =
        some ⟨"k", "u8", .default, defaultRelationships⟩ := by
      rw [withOtherKey_eq]
      decide
    obtain rfl := Option.some.inj (hmethod.symm.trans hfound)
    have hbytes : decodeMultibaseU "u8" = .ok [56] := by decide
    obtain rfl := Except.ok.inj (hbytes.symm.trans hkey)
    exact absurd hnode (by decide)
  have hbound := signer_bound_of_nodes "u7" _ hfree (by simp) withOtherKey
    (.delta .new (by simp) trivial) (mutationBy "did:crdt:u7#key-0") (mutationBy "k") (by simp) (by simp)
    rfl (fun _ hboth ↦ hother hboth.2)
  exact ⟨haccepts, fun haccepts' ↦ absurd (hbound.1 haccepts haccepts') (by decide)⟩

/-- A mutation that is refused for a revoked id of a key is accepted under another id of the key. -/
theorem signer_bound_fails_revoked :
    IngestedWhile (fun _ _ ↦ True) (members [Document.genesis "u7", secondId, firstIdRevoked]) "u7"
        withRevokedId ∧
      (mutationBy "did:crdt:u7#key-0").contentHash = (mutationBy "k").contentHash ∧
      RefusesSigner withRevokedId (mutationBy "did:crdt:u7#key-0") ∧
      NewlyAccepts withRevokedId (mutationBy "k") := by
  refine ⟨.delta (.delta .new (by simp) trivial) (by simp) trivial, by decide, Or.inl ?_, ?_⟩
  · rw [withRevokedId_eq]
    decide
  · rw [newlyAccepts_iff, withRevokedId_eq]
    exact ⟨⟨by decide, by decide, by decide, by decide, by decide⟩, by decide⟩

end Readable

end DidCrdt
