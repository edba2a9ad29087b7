import DidCrdt.Core.Authoring
import DidCrdt.Theory.PeerAnswers
import DidCrdt.Theory.SignerBinding

/-!
# Authored deltas

The past of the frontier of a replica is everything that the replica holds (`Coherent.past_frontier_iff`).
So a delta that is authored on the frontier has the authority that its signer has in the state of the
author. It is accepted by the author, and by every replica that holds what the author held, exactly when it
passes the gates, the document was not deactivated and the signer not revoked at the author, and the
timestamp is bound to the key (`authored_accepted_iff`). What else the replica holds does not matter: its own
state may have the signer revoked, or the document deactivated, since. That is where the check against the
state of a document and the causal verdict part (`checkAuthorisation_iff_verifyCausal`).
-/

set_option autoImplicit false
set_option relaxedAutoImplicit false

namespace DidCrdt

section

variable [Primitives]

section Frontier

variable {deltas : Set SignedDelta} {root : SignedDelta} {doc peer : Document} {d : SignedDelta}

/-- The past of the frontier is what is held. -/
theorem Coherent.past_frontier_iff (h : Coherent deltas root doc) (hash : DeltaHash) :
    Past (members doc.deltaLog) doc.frontier hash ↔ hash ∈ doc.logHashes := by
  have hhead : ∀ p, p ∈ doc.frontier ↔ p ∈ (DeltaDag.rebuild doc.deltaLog).frontierSet := by
    intro p
    rw [Document.frontier, DeltaDag.mem_frontier, h.dag]
  constructor
  · refine h.history.past_mem fun p hp ↦ ?_
    exact ((mem_frontier_of_history h.history p).mp ((hhead p).mp hp)).1
  · intro hheld
    obtain ⟨head, hmem, hpath⟩ := exists_head_of_history h.history hheld
    exact ⟨head, (hhead head).mpr hmem, hpath⟩

theorem Coherent.frontier_ne_nil (h : Coherent deltas root doc) : doc.frontier ≠ [] := by
  intro hnil
  obtain ⟨p, hp, -⟩ := (h.past_frontier_iff root.contentHash).mpr (List.mem_map_of_mem h.history.root_mem)
  rw [hnil] at hp
  exact List.not_mem_nil hp

/-- A property of operations holds in the past of the frontier when it holds of a held delta. -/
theorem Coherent.pastHas_frontier_iff (h : Coherent deltas root doc) (P : SignedDelta → Prop) :
    PastHas (members doc.deltaLog) doc.frontier P ↔ ∃ d ∈ doc.deltaLog, P d := by
  refine exists_congr fun d ↦ and_congr_right fun hd ↦ and_iff_right ?_
  exact (h.past_frontier_iff d.contentHash).mpr (List.mem_map_of_mem hd)

theorem PastHas.congr {parents parents' : List DeltaHash} (h : ∀ p, p ∈ parents ↔ p ∈ parents')
    {P : SignedDelta → Prop} : PastHas deltas parents P ↔ PastHas deltas parents' P :=
  exists_congr fun _ ↦ and_congr_right fun _ ↦ and_congr_left fun _ ↦
    exists_congr fun p ↦ and_congr_left fun _ ↦ h p

/-- A method of a replica is one of every replica that holds as much. -/
theorem Coherent.mem_verificationMethods_of_sub (h : Coherent deltas root doc) (hp : Coherent deltas root peer)
    (hfree : CollisionFree deltas) (hsub : ∀ hash ∈ doc.logHashes, hash ∈ peer.logHashes)
    {entry : VerificationMethodEntry} (hentry : entry ∈ doc.verificationMethods) :
    entry ∈ peer.verificationMethods := by
  obtain ⟨a, ha, hop⟩ := (h.mem_verificationMethods_iff entry).mp hentry
  obtain ⟨b, hb, hhash⟩ := List.mem_map.mp (hsub a.contentHash (List.mem_map_of_mem ha))
  exact (hp.mem_verificationMethods_iff entry).mpr ⟨b, hb, (hfree.op_eq (hp.sub hb) (h.sub ha) hhash).trans hop⟩

/-- A delta on the frontier has the authority that its signer has in the state. -/
theorem Coherent.authorisedIn_iff_of_frontier (h : Coherent deltas root doc) (hfree : CollisionFree deltas)
    (hparents : ∀ p, p ∈ d.parents ↔ p ∈ doc.frontier) :
    AuthorisedIn deltas d ↔ VerificationMethods.containsId doc.verificationMethods d.signer = true ∧
      doc.isVmRevoked d.signer = false ∧ doc.isDeactivated = false := by
  have hheld : ∀ p ∈ d.parents, p ∈ doc.logHashes := fun p hp ↦
    (h.past_frontier_iff p).mp (.of_mem ((hparents p).mp hp))
  rw [authorisedIn_iff_of_closed hfree h.sub h.history.parentClosed
    fun p hp ↦ (mem_hashes_iff _ p).mp (hheld p hp)]
  have hpast : ∀ P, PastHas (members doc.deltaLog) d.parents P ↔ ∃ a ∈ doc.deltaLog, P a := fun P ↦
    (PastHas.congr hparents).trans (h.pastHas_frontier_iff P)
  have hadded : VerificationMethods.containsId doc.verificationMethods d.signer = true ↔
      ∃ a ∈ doc.deltaLog, a.AddsMethod d.signer := by
    rw [h.containsId_iff, DeltaDag.hasAuthorisingDelta_iff]
    exact exists_congr fun a ↦ and_congr_left fun _ ↦ h.mem_values_iff a
  have hrevoked : doc.isVmRevoked d.signer = true ↔ ∃ a ∈ doc.deltaLog, a.RevokesMethod d.signer := by
    rw [Document.isVmRevoked, Std.ExtTreeSet.contains_iff_mem, h.describes.revokedVerificationMethods,
      occurs_eventsOf_iff]
    rfl
  have hdeactivated : doc.isDeactivated = true ↔ ∃ a ∈ doc.deltaLog, a.Deactivates := by
    rw [Document.isDeactivated, h.describes.deactivated, occurs_eventsOf_iff]
    rfl
  rw [← Bool.not_eq_true, ← Bool.not_eq_true, hadded, hrevoked, hdeactivated]
  constructor
  · rintro ⟨hadds, hrevokes, hdeactivates⟩
    exact ⟨(hpast _).mp hadds, mt (hpast _).mpr hrevokes, mt (hpast _).mpr hdeactivates⟩
  · rintro ⟨hadds, hrevokes, hdeactivates⟩
    exact ⟨(hpast _).mpr hadds, mt (hpast _).mp hrevokes, mt (hpast _).mp hdeactivates⟩

theorem Coherent.checkAuthorisation_eq_ok_iff (h : Coherent deltas root doc) (hdid : d.did = doc.did) :
    checkAuthorisation d doc = .ok () ↔ VerificationMethods.containsId doc.verificationMethods d.signer = true ∧
      doc.isVmRevoked d.signer = false ∧ doc.isDeactivated = false := by
  rw [DidCrdt.checkAuthorisation_eq_ok_iff h.exists_method, and_iff_right hdid, and_left_comm,
    and_comm (a := doc.deactivated = false)]
  rfl

/-- Assumes: the collection holds the creation delta and does not collide. A delta of the document has the
heads of a replica as its parents. At every replica that holds what this one holds, it is causally valid when
it passes the check against the state of this one, and it then passes the check against the state of the other
unless that state is deactivated or has its signer revoked. -/
theorem checkAuthorisation_iff_verifyCausal {publicKeyMultibase : String} (hfree : CollisionFree deltas)
    (hgenesis : Document.genesis publicKeyMultibase ∈ deltas)
    (hdoc : IngestedWhile (fun _ _ ↦ True) deltas publicKeyMultibase doc)
    (hpeer : IngestedWhile (fun _ _ ↦ True) deltas publicKeyMultibase peer)
    (hsub : ∀ hash ∈ doc.logHashes, hash ∈ peer.logHashes)
    (hdid : d.did = doc.did) (hparents : ∀ p, p ∈ d.parents ↔ p ∈ doc.frontier) :
    (verifyCausal d peer.dag = .valid ↔ checkAuthorisation d doc = .ok ()) ∧
      (checkAuthorisation d doc = .ok () → (checkAuthorisation d peer = .ok () ↔
        peer.isVmRevoked d.signer = false ∧ peer.isDeactivated = false)) := by
  have h := hdoc.coherent hfree hgenesis
  have hp := hpeer.coherent hfree hgenesis
  have hnonempty : d.parents ≠ [] := by
    obtain ⟨p, hmem⟩ := List.exists_mem_of_ne_nil _ h.frontier_ne_nil
    exact List.ne_nil_of_mem ((hparents p).mpr hmem)
  have hheld : ∀ p ∈ d.parents, p ∈ peer.logHashes := fun p hmem ↦
    hsub p ((h.past_frontier_iff p).mp (.of_mem ((hparents p).mp hmem)))
  have hchecked := h.checkAuthorisation_eq_ok_iff hdid
  refine ⟨?_, fun hok ↦ ?_⟩
  · rw [hp.verifyCausal_iff hfree, and_iff_right hnonempty, and_iff_right hheld,
      h.authorisedIn_iff_of_frontier hfree hparents, hchecked]
  · obtain ⟨e, hmem, hid⟩ := (VerificationMethods.containsId_iff _ _).mp (hchecked.mp hok).1
    rw [hp.checkAuthorisation_eq_ok_iff (hdid.trans (h.did.trans hp.did.symm)), and_iff_right]
    exact (VerificationMethods.containsId_iff _ _).mpr
      ⟨e, h.mem_verificationMethods_of_sub hp hfree hsub hmem, hid⟩

end Frontier

variable [PrivateKeys]

section Author

variable {deltas : Set SignedDelta} {root : SignedDelta} {doc peer : Document} {op : DeltaOp}
  {timestamp : HlcTimestamp} {entry : VerificationMethodEntry} {key : SigningKey}

theorem mem_parents_author (doc : Document) {id : String} (p : DeltaHash) :
    p ∈ (doc.author op timestamp id key).parents ↔ p ∈ doc.frontier :=
  OrderedMaps.mem_sortDedup doc.frontier p

/-- The parents of an authored delta are held. -/
theorem Coherent.parents_author_held (h : Coherent deltas root doc) {id : String} :
    ∀ p ∈ (doc.author op timestamp id key).parents, p ∈ doc.logHashes := fun p hp ↦
  (h.past_frontier_iff p).mp (.of_mem ((mem_parents_author doc p).mp hp))

/-- An authored delta has the authority that its signer has in the state. -/
theorem Coherent.authorisedIn_author_iff (h : Coherent deltas root doc) (hfree : CollisionFree deltas)
    (hentry : entry ∈ doc.verificationMethods) :
    AuthorisedIn deltas (doc.author op timestamp entry.id key) ↔
      doc.isDeactivated = false ∧ doc.isVmRevoked entry.id = false := by
  have hknown : VerificationMethods.containsId doc.verificationMethods entry.id = true :=
    (VerificationMethods.containsId_iff _ _).mpr ⟨entry, hentry, rfl⟩
  rw [h.authorisedIn_iff_of_frontier hfree (mem_parents_author doc)]
  exact (and_iff_right hknown).trans and_comm

/-- The signature of an authored delta verifies where what the author held is held. -/
theorem Coherent.verifies_author_iff (h : Coherent deltas root doc) (hp : Coherent deltas root peer)
    (hsound : PrivateKeys.Sound) (hfree : CollisionFree deltas) (hids : UniqueMethodIds deltas)
    (hsub : ∀ hash ∈ doc.logHashes, hash ∈ peer.logHashes) (hentry : entry ∈ doc.verificationMethods)
    (hkey : decodeMultibaseU entry.publicKeyMultibase = .ok key.publicKey) :
    verifySignature (doc.author op timestamp entry.id key) peer = .ok () ↔
      timestamp.nodeId = Primitives.nodeDigest key.publicKey := by
  have hheld := h.mem_verificationMethods_of_sub hp hfree hsub hentry
  have hfound : VerificationMethods.findId peer.verificationMethods entry.id = some entry := by
    cases hfind : VerificationMethods.findId peer.verificationMethods entry.id with
    | none => exact absurd rfl ((VerificationMethods.findId_eq_none_iff _ _).mp hfind entry hheld)
    | some found =>
      obtain ⟨hmem, hid, -⟩ := (VerificationMethods.findId_eq_some_iff _ _ _).mp hfind
      rw [hids.entry_eq hfree hp hp hmem hheld hid]
  have hsigned : SignedUnder (doc.author op timestamp entry.id key) entry.publicKeyMultibase ↔
      timestamp.nodeId = Primitives.nodeDigest key.publicKey := signedUnder_newWithParents hsound hkey
  rw [verifySignature_eq_ok_iff hp.exists_method]
  constructor
  · rintro ⟨e, he, hunder⟩
    obtain rfl := Option.some.inj (hfound.symm.trans he)
    exact hsigned.mp hunder
  · exact fun hnode ↦ ⟨entry, hfound, hsigned.mpr hnode⟩

end Author

/-- Assumes: the private keys are sound, the collection holds the creation delta, does not collide and names
every verification method once. A delta is authored on the frontier of a replica under a verification method
with the key. A replica that holds what the author held accepts it, unless it is held there, exactly when it
passes the gates, carries the node of the key, and the author's replica is not deactivated and has not revoked
the signer. -/
theorem authored_accepted_iff (hsound : PrivateKeys.Sound) (publicKeyMultibase : String)
    (deltas : Set SignedDelta) (hfree : CollisionFree deltas) (hids : UniqueMethodIds deltas)
    (hgenesis : Document.genesis publicKeyMultibase ∈ deltas) (doc peer : Document)
    (hdoc : IngestedWhile (fun _ _ ↦ True) deltas publicKeyMultibase doc)
    (hpeer : IngestedWhile (fun _ _ ↦ True) deltas publicKeyMultibase peer)
    (hsub : ∀ hash ∈ doc.logHashes, hash ∈ peer.logHashes)
    (op : DeltaOp) (timestamp : HlcTimestamp) (key : SigningKey) (entry : VerificationMethodEntry)
    (hentry : entry ∈ doc.verificationMethods)
    (hkey : decodeMultibaseU entry.publicKeyMultibase = .ok key.publicKey) :
    NewlyAccepts peer (doc.author op timestamp entry.id key) ↔
      (doc.author op timestamp entry.id key).contentHash ∉ peer.logHashes ∧
        PassesGates doc.did (doc.author op timestamp entry.id key) ∧
        doc.isDeactivated = false ∧ doc.isVmRevoked entry.id = false ∧
        timestamp.nodeId = Primitives.nodeDigest key.publicKey := by
  have h := hdoc.coherent hfree hgenesis
  have hp := hpeer.coherent hfree hgenesis
  have hparents : ∀ p ∈ (doc.author op timestamp entry.id key).parents, p ∈ peer.logHashes :=
    fun p hmem ↦ hsub p (h.parents_author_held p hmem)
  have hgrounded : (doc.author op timestamp entry.id key).parents ≠ [] := fun hnil ↦
    h.frontier_ne_nil ((OrderedMaps.sortDedup_eq_nil_iff _).mp hnil)
  rw [newlyAccepts_iff, hp.accepts_iff hfree, h.verifies_author_iff hp hsound hfree hids hsub hentry hkey,
    ← h.did]
  constructor
  · rintro ⟨⟨hnew, ⟨hgates, -, hauthorised⟩, -⟩, hnode⟩
    obtain ⟨hactive, hunrevoked⟩ := (h.authorisedIn_author_iff hfree hentry).mp hauthorised
    exact ⟨hnew, hgates, hactive, hunrevoked, hnode⟩
  · rintro ⟨hnew, hgates, hactive, hunrevoked, hnode⟩
    have hauthorised : AuthorisedIn deltas (doc.author op timestamp entry.id key) :=
      (h.authorisedIn_author_iff hfree hentry).mpr ⟨hactive, hunrevoked⟩
    exact ⟨⟨hnew, ⟨hgates, hgrounded, hauthorised⟩, hparents⟩, hnode⟩

end

section Readable

attribute [local instance] Primitives.readable PrivateKeys.readable

theorem sound_readable : PrivateKeys.Sound where
  ed25519Key key := key.elim
  ed25519Signature key _ := key.elim
  ed25519Verifies key _ := key.elim
  secp256k1Verifies key payload := decide_eq_true rfl
  decodes bytes := by
    have hbyte : ∀ b : UInt8, UInt8.ofNat (Char.ofNat b.toNat).toNat = b := by
      intro b
      have hvalid : b.toNat.isValidChar := Or.inl (by have := b.toNat_lt; omega)
      rw [Char.toNat_ofNat, if_pos hvalid, UInt8.ofNat_toNat]
    change some ((String.ofList _).toList.map _) = _
    rw [String.toList_ofList, List.map_map]
    exact congrArg some ((List.map_congr_left fun b _ ↦ hbyte b).trans (List.map_id' bytes))

/-- The only key of the document revokes itself. -/
def keyRevoked : SignedDelta :=
  .readable "did:crdt:u7" "did:crdt:u7#key-0" "u7" 1 55 (.revokeVerificationMethod "did:crdt:u7#key-0")
    ["0.0.0"]

/-- The document in which the only key is revoked. -/
def withKeyRevoked : Document := ((Document.new "u7").1.mergeVerifiedDelta keyRevoked).1

theorem withKeyRevoked_eq : withKeyRevoked = (Document.new "u7").1.record keyRevoked :=
  Document.mergeVerifiedDelta_fst_of_accepts
    ⟨by decide, by decide, by decide, by decide, by decide⟩ (by decide)

/-- A mutation that was authored before the revocation was known is accepted after it. -/
theorem authored_accepted_iff_revoked :
    withKeyRevoked.isVmRevoked "did:crdt:u7#key-0" = true ∧
      NewlyAccepts withKeyRevoked ((Document.new "u7").1.author (.revokeCredential "c") ⟨2, 0, 55⟩
        "did:crdt:u7#key-0" (.secp256k1 [55])) := by
  have honly : ∀ d ∈ members [Document.genesis "u7", keyRevoked], ∀ id, d.AddsMethod id →
      d = Document.genesis "u7" := by
    rintro d hd id ⟨key, suite, relationships, hop⟩
    rcases List.mem_cons.mp hd with rfl | hd
    · rfl
    · rw [List.mem_singleton.mp hd] at hop
      exact DeltaOp.noConfusion hop
  have hids : UniqueMethodIds (members [Document.genesis "u7", keyRevoked]) := by
    intro d hd e he _ id hadds hadds'
    rw [honly d hd id hadds, honly e he id hadds']
  refine ⟨by rw [withKeyRevoked_eq]; decide, ?_⟩
  refine (authored_accepted_iff sound_readable "u7" (members [Document.genesis "u7", keyRevoked])
    (.of_nodup (by decide)) hids (by simp [members]) (Document.new "u7").1 withKeyRevoked .new
    (.delta .new (by simp [members]) trivial) ?_ (.revokeCredential "c") ⟨2, 0, 55⟩ (.secp256k1 [55])
    ⟨"did:crdt:u7#key-0", "u7", .default, defaultRelationships⟩ ?_ ?_).mpr ?_
  · rw [withKeyRevoked_eq]
    decide
  · exact (Std.ExtTreeSet.contains_iff_mem ..).mp (by decide)
  · rfl
  · rw [withKeyRevoked_eq]
    exact ⟨by decide, ((staticGates_eq_ok_iff _ _).mp (by decide)), by decide, by decide, by decide⟩

/-- A mutation on the creation passes the check there, and is causally valid after the revocation, whose state
refuses it. -/
theorem checkAuthorisation_iff_verifyCausal_revoked :
    let d := (Document.new "u7").1.author (.revokeCredential "c") ⟨2, 0, 55⟩ "did:crdt:u7#key-0" (.secp256k1 [55])
    checkAuthorisation d (Document.new "u7").1 = .ok () ∧ verifyCausal d withKeyRevoked.dag = .valid ∧
      checkAuthorisation d withKeyRevoked ≠ .ok () := by
  intro d
  have hdoc : IngestedWhile (fun _ _ ↦ True) (members [Document.genesis "u7", keyRevoked]) "u7"
      (Document.new "u7").1 := .new
  have hpeer : IngestedWhile (fun _ _ ↦ True) (members [Document.genesis "u7", keyRevoked]) "u7"
      withKeyRevoked := .delta .new (by simp [members]) trivial
  have hsub : ∀ hash ∈ (Document.new "u7").1.logHashes, hash ∈ withKeyRevoked.logHashes := by
    rw [withKeyRevoked_eq]
    decide
  have hok : checkAuthorisation d (Document.new "u7").1 = .ok () := by decide
  obtain ⟨hcausal, hstate⟩ := checkAuthorisation_iff_verifyCausal (.of_nodup (by decide)) (by simp)
    hdoc hpeer hsub rfl (mem_parents_author (Document.new "u7").1)
  refine ⟨hok, hcausal.mpr hok, fun hpassed ↦ ?_⟩
  have hunrevoked := ((hstate hok).mp hpassed).1
  rw [withKeyRevoked_eq] at hunrevoked
  exact absurd hunrevoked (by decide)

end Readable

end DidCrdt
