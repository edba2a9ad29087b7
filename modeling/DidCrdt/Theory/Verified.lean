import DidCrdt.Theory.Coherence

/-!
# Verified ingestion

`mergeVerifiedDelta` and `mergeVerifiedBundle` admit deltas from peers that are not trusted. Whatever
they are given, a delta that is held has its whole past held, and its past adds its signer, does not
revoke it and does not deactivate the document (`Coherent.past_sound`).

The signature is checked under another key. Authority is a question about the id of the signer in the
past of the delta, while the key is the first with that id in the set of the replica, to which
additions outside the past count too. When the key that is looked up is one that the past introduces
(`KeyInPast`), the delta is signed by a key that its past authorises (`verifiedIngestion_sound`).
-/

set_option autoImplicit false
set_option relaxedAutoImplicit false

namespace DidCrdt

section

variable [Primitives]

/-! ### The key that is looked up -/

/-- When the delta is new and causally valid, the key that the replica looks up for it is introduced
under the id of the signer in the past of the delta. -/
def KeyInPast (doc : Document) (d : SignedDelta) : Prop :=
  doc.dag.contains d.contentHash = false → verifyCausal d doc.dag = .valid →
    ∀ entry, VerificationMethods.findId doc.verificationMethods d.signer = some entry →
      PastHas (members doc.deltaLog) d.parents fun a ↦
        a.Introduces d.signer entry.publicKeyMultibase

/-- The condition holds of every delta that a replay submits, at the document it is submitted to. -/
def Document.ReplayMeets (condition : Document → SignedDelta → Prop) (byHash : BundleIndex) :
    Document → List DeltaHash → Prop
  | _, [] => True
  | working, hash :: order =>
    if working.dag.contains hash then ReplayMeets condition byHash working order
    else
      match byHash[hash]? with
      | none => ReplayMeets condition byHash working order
      | some d =>
        condition working d ∧
          (verifySignature d working = .ok () → (working.merge d).2 = .ok () →
            ReplayMeets condition byHash (working.merge d).1 order)

/-- The documents reached from the creation of a key by verified ingestion of deltas and bundles, in
which every delta met the condition when it was submitted. -/
inductive IngestedWhile (condition : Document → SignedDelta → Prop) (deltas : Set SignedDelta)
    (publicKeyMultibase : String) : Document → Prop
  | new : IngestedWhile condition deltas publicKeyMultibase (Document.new publicKeyMultibase).1
  | delta {doc : Document} {d : SignedDelta} :
      IngestedWhile condition deltas publicKeyMultibase doc → d ∈ deltas → condition doc d →
      IngestedWhile condition deltas publicKeyMultibase (doc.mergeVerifiedDelta d).1
  | bundle {doc : Document} {bundle : ClosureBundle} :
      IngestedWhile condition deltas publicKeyMultibase doc → (∀ d ∈ bundle.deltas, d ∈ deltas) →
      (∀ order, topoOrderBundle (Document.indexBundle bundle.deltas) = .ok order →
        doc.ReplayMeets condition (Document.indexBundle bundle.deltas) order) →
      IngestedWhile condition deltas publicKeyMultibase (doc.mergeVerifiedBundle bundle).1

/-! ### Runs under a condition -/

section Runs

variable {condition : Document → SignedDelta → Prop} {source : Set SignedDelta} {P : Document → Prop}

/-- Assumes: recording a verified delta that meets the condition keeps the property. A replay keeps
it. The induction is on the order. -/
theorem replay_keeps {byHash : BundleIndex}
    (hindex : ∀ (k : DeltaHash) (e : SignedDelta), byHash[k]? = some e → e ∈ source)
    (hrecord : ∀ doc d, P doc → d ∈ source → condition doc d → Accepts doc d →
      verifySignature d doc = .ok () → P (doc.record d)) (order : List DeltaHash) :
    ∀ working result : Document, P working → working.ReplayMeets condition byHash order →
      Document.replay byHash working order = .ok result → P result := by
  induction order with
  | nil =>
    intro working result hP _ hok
    rwa [← Except.ok.inj hok]
  | cons hash order ih =>
    intro working result hP hmeets hok
    rw [Document.ReplayMeets] at hmeets
    rw [Document.replay] at hok
    split_ifs at hmeets hok with hheld
    · exact ih working result hP hmeets hok
    cases hget : byHash[hash]? with
    | none =>
      rw [hget] at hmeets hok
      exact ih working result hP hmeets hok
    | some d =>
      rw [hget] at hmeets hok
      cases hsig : verifySignature d working with
      | error e => simp [hsig] at hok
      | ok _ =>
        obtain ⟨hcondition, hrest⟩ := hmeets
        simp only [hsig] at hok hrest
        rcases hmerge : working.merge d with ⟨next, outcome⟩
        rw [hmerge] at hok hrest
        cases outcome with
        | error e => exact absurd hok (by simp)
        | ok _ =>
          refine ih next result ?_ (hrest trivial rfl) hok
          have hnext : (working.merge d).1 = next := by rw [hmerge]
          rcases Document.merge_fst_eq working d with ⟨haccepts, heq⟩ | ⟨_, heq⟩
          · rw [← hnext, heq]
            exact hrecord working d hP (hindex hash d hget) hcondition haccepts hsig
          · rwa [← hnext, heq]

/-- Assumes: a fresh document has the property, and recording a verified delta that meets the
condition keeps it. Verified ingestion under the condition keeps it. -/
theorem IngestedWhile.keeps {publicKeyMultibase : String}
    (hstart : P (Document.new publicKeyMultibase).1)
    (hrecord : ∀ doc d, P doc → d ∈ source → condition doc d → Accepts doc d →
      verifySignature d doc = .ok () → P (doc.record d)) {doc : Document}
    (h : IngestedWhile condition source publicKeyMultibase doc) : P doc := by
  induction h with
  | new => exact hstart
  | @delta doc d _ hd hcondition ih =>
    rcases Document.mergeVerifiedDelta_fst_eq doc d with ⟨haccepts, hsig, heq⟩ | ⟨_, heq⟩
    · rw [heq]
      exact hrecord doc d ih hd hcondition haccepts hsig
    · rwa [heq]
  | @bundle doc bundle _ hbundle hmeets ih =>
    rcases Document.mergeVerifiedBundle_fst_eq doc bundle with heq | ⟨order, horder, hreplay⟩
    · rwa [heq]
    · refine replay_keeps (fun k e hget ↦ ?_) hrecord order doc _ ih (hmeets order horder) hreplay
      exact hbundle e (Document.mem_of_indexBundle hget).1

end Runs

theorem IngestedWhile.coherent {condition : Document → SignedDelta → Prop} {deltas : Set SignedDelta}
    {publicKeyMultibase : String} {doc : Document} (hfree : CollisionFree deltas)
    (hgenesis : Document.genesis publicKeyMultibase ∈ deltas)
    (h : IngestedWhile condition deltas publicKeyMultibase doc) :
    Coherent deltas (Document.genesis publicKeyMultibase) doc :=
  h.keeps (.new publicKeyMultibase hgenesis) fun _ d hdoc hd _ haccepts hsig ↦
    hdoc.verifiedStep hfree ⟨d, hd, haccepts, hsig, rfl⟩

/-! ### What a held delta rests on -/

section Sound

variable {deltas : Set SignedDelta} {root : SignedDelta} {doc : Document} {d : SignedDelta}

/-- The past of a held delta is held, does not revoke its signer and does not deactivate the
document. -/
theorem Coherent.past_sound (h : Coherent deltas root doc) (hfree : CollisionFree deltas)
    (hd : d ∈ doc.deltaLog) (hroot : d ≠ root) :
    (∀ hash, Past (members doc.deltaLog) d.parents hash → hash ∈ doc.logHashes) ∧
      AuthorisedIn (members doc.deltaLog) d := by
  have hparents := h.history.parentClosed d hd
  have hgrounded : d.parents ≠ [] := fun hnil ↦ hroot (h.history.eq_root hd hnil)
  constructor
  · intro hash hpast
    exact h.history.past_mem (fun p hp ↦ (mem_hashes_iff _ p).mpr (hparents p hp)) hpast
  · exact (authorisedIn_iff_of_closed hfree h.sub h.history.parentClosed hparents).mp
      (h.admitted d hd hgrounded).authorised

/-- Every delta that has parents is signed under a key that its past introduces for its signer. -/
def SignedByPast (deltas : Set SignedDelta) (doc : Document) : Prop :=
  ∀ d ∈ doc.deltaLog, d.parents ≠ [] → ∃ key, SignedUnder d key ∧
    PastHas deltas d.parents fun a ↦ a.Introduces d.signer key

/-- Recording a verified delta whose key is in its past. -/
theorem SignedByPast.record (hsigned : SignedByPast deltas doc) (h : Coherent deltas root doc)
    (hkey : KeyInPast doc d) (haccepts : Accepts doc d)
    (hsig : verifySignature d doc = .ok ()) : SignedByPast deltas (doc.record d) := by
  intro e he hgrounded
  rcases List.mem_append.mp he with he | he
  · exact hsigned e he hgrounded
  rw [List.mem_singleton.mp he]
  have hvalid := h.gate_and_floor_iff.mp ⟨haccepts.causal, haccepts.floor⟩
  obtain ⟨entry, hfound, hunder⟩ := (verifySignature_eq_ok_iff h.exists_method).mp hsig
  obtain ⟨a, ha, hpast, hintroduces⟩ := hkey haccepts.new hvalid entry hfound
  exact ⟨_, hunder, a, h.sub ha, hpast.mono h.sub, hintroduces⟩

end Sound

/-- Assumes: the collection holds the creation delta and does not collide. In every run of verified
ingestion in which the key looked up for a delta is one that its past introduces, every delta held
beside the creation delta has its whole past held, is signed under a key that its past introduces
under the id of its signer, and its past neither revokes that id nor deactivates the document. -/
theorem verifiedIngestion_sound (publicKeyMultibase : String) (deltas : Set SignedDelta)
    (hfree : CollisionFree deltas) (hgenesis : Document.genesis publicKeyMultibase ∈ deltas)
    (doc : Document) (h : IngestedWhile KeyInPast deltas publicKeyMultibase doc) :
    ∀ d ∈ doc.deltaLog, d ≠ Document.genesis publicKeyMultibase →
      (∀ hash, Past (members doc.deltaLog) d.parents hash → hash ∈ doc.logHashes) ∧
      (∃ key, SignedUnder d key ∧
        PastHas (members doc.deltaLog) d.parents fun a ↦ a.Introduces d.signer key) ∧
      ¬ PastHas (members doc.deltaLog) d.parents (fun r ↦ r.RevokesMethod d.signer) ∧
      ¬ PastHas (members doc.deltaLog) d.parents SignedDelta.Deactivates := by
  have hkept : Coherent deltas (Document.genesis publicKeyMultibase) doc ∧
      SignedByPast deltas doc := by
    refine IngestedWhile.keeps
      (P := fun doc ↦ Coherent deltas (Document.genesis publicKeyMultibase) doc ∧
        SignedByPast deltas doc) ⟨.new publicKeyMultibase hgenesis, ?_⟩ ?_ h
    · intro d hd hgrounded
      rw [List.mem_singleton.mp hd] at hgrounded
      exact absurd rfl hgrounded
    · rintro doc d ⟨hdoc, hsigned⟩ hd hkey haccepts hsig
      exact ⟨hdoc.verifiedStep hfree ⟨d, hd, haccepts, hsig, rfl⟩,
        hsigned.record hdoc hkey haccepts hsig⟩
  obtain ⟨hcoherent, hsigned⟩ := hkept
  intro d hd hroot
  have hgrounded : d.parents ≠ [] := fun hnil ↦ hroot (hcoherent.history.eq_root hd hnil)
  obtain ⟨hheld, hauthorised⟩ := hcoherent.past_sound hfree hd hroot
  obtain ⟨key, hunder, hintroduced⟩ := hsigned d hd hgrounded
  refine ⟨hheld, ⟨key, hunder, ?_⟩, hauthorised.notRevoked, hauthorised.notDeactivated⟩
  exact (pastHas_iff_of_closed (ofOp_introduces d.signer key) hfree hcoherent.sub
    hcoherent.history.parentClosed (hcoherent.history.parentClosed d hd)).mp hintroduced

end

section Readable

attribute [local instance] Primitives.readable

/-- A document of the key `u7` that revokes a credential, signed by its creation key. -/
theorem verifiedIngestion_sound_revocation :
    let d := SignedDelta.readable "did:crdt:u7" "did:crdt:u7#key-0" "u7" 1 55 (.revokeCredential "c")
      ["0.0.0"]
    let doc := ((Document.new "u7").1.mergeVerifiedDelta d).1
    doc.logHashes = [(Document.genesis "u7").contentHash, d.contentHash] ∧
      ∀ e ∈ doc.deltaLog, e ≠ Document.genesis "u7" → ∃ key, SignedUnder e key ∧
        PastHas (members doc.deltaLog) e.parents fun a ↦ a.Introduces e.signer key := by
  intro d doc
  refine ⟨by decide, fun e he hroot ↦ ?_⟩
  have hkey : KeyInPast (Document.new "u7").1 d := by
    intro _ _ entry hfound
    have hfirst : VerificationMethods.findId (Document.new "u7").1.verificationMethods d.signer =
        some ⟨"did:crdt:u7#key-0", "u7", .default, defaultRelationships⟩ := by decide
    obtain rfl := Option.some.inj (hfirst.symm.trans hfound)
    exact ⟨Document.genesis "u7", List.mem_singleton_self _, .of_mem (by decide), _, _, rfl⟩
  exact (verifiedIngestion_sound "u7" (members [Document.genesis "u7", d])
    (.of_nodup (by decide)) (by simp) doc (.delta .new (by simp) hkey) e he hroot).2.1

/-- The key `uA` under the id `k`, added by the creation key of `u7`. -/
def shadowingKey : SignedDelta :=
  .readable "did:crdt:u7" "did:crdt:u7#key-0" "u7" 1 55
    (.addVerificationMethod "k" "uA" .default defaultRelationships) ["0.0.0"]

/-- The key `uB` under the same id, added concurrently. -/
def genuineKey : SignedDelta :=
  .readable "did:crdt:u7" "did:crdt:u7#key-0" "u7" 2 55
    (.addVerificationMethod "k" "uB" .default defaultRelationships) ["0.0.0"]

/-- A delta of the signer `k` whose past adds `uB`, signed with `uA`. -/
def shadowSigned : SignedDelta :=
  .readable "did:crdt:u7" "k" "uA" 3 65 (.revokeCredential "c") ["2.0.55"]

/-- Verified ingestion holds a delta that is signed under no key that its past introduces under the
id of its signer: the key `uA` is in the set of the replica, and not in the past of the delta. -/
theorem verifiedIngestion_admits_shadowSigned :
    let doc := ((((Document.new "u7").1.mergeVerifiedDelta shadowingKey).1.mergeVerifiedDelta
      genuineKey).1.mergeVerifiedDelta shadowSigned).1
    shadowSigned ∈ doc.deltaLog ∧ shadowSigned ≠ Document.genesis "u7" ∧
      ¬ ∃ key, SignedUnder shadowSigned key ∧
        PastHas (members doc.deltaLog) shadowSigned.parents fun a ↦
          a.Introduces shadowSigned.signer key := by
  intro doc
  have hfirst : ((Document.new "u7").1.mergeVerifiedDelta shadowingKey).1 =
      (Document.new "u7").1.record shadowingKey :=
    Document.mergeVerifiedDelta_fst_of_accepts
      ⟨by decide, by decide, by decide, by decide, by decide⟩ (by decide)
  have hsecond : (((Document.new "u7").1.record shadowingKey).mergeVerifiedDelta genuineKey).1 =
      ((Document.new "u7").1.record shadowingKey).record genuineKey :=
    Document.mergeVerifiedDelta_fst_of_accepts
      ⟨by decide, by decide, by decide, by decide, by decide⟩ (by decide)
  have hthird : ((((Document.new "u7").1.record shadowingKey).record
      genuineKey).mergeVerifiedDelta shadowSigned).1 =
      (((Document.new "u7").1.record shadowingKey).record genuineKey).record shadowSigned :=
    Document.mergeVerifiedDelta_fst_of_accepts
      ⟨by decide, by decide, by decide, by decide, by decide⟩ (by decide)
  have hlog : doc.deltaLog = [Document.genesis "u7", shadowingKey, genuineKey, shadowSigned] := by
    simp only [doc, hfirst, hsecond, hthird, Document.deltaLog_record]
    rfl
  rw [hlog]
  refine ⟨by simp, fun heq ↦ absurd (congrArg SignedDelta.timestamp heq) (by decide), ?_⟩
  rintro ⟨key, ⟨_, sigBytes, _, hverifies⟩, a, ha, hpast, suite, rels, hop⟩
  -- the past of the delta is the addition of `uB` and the creation delta
  have hin : a.contentHash ∈ ({⟨"2.0.55"⟩, ⟨"0.0.0"⟩} : Set DeltaHash) := by
    refine hpast.mem_of_invariant (by decide) ?_
    simp only [mem_members, List.mem_cons, List.not_mem_nil, or_false, forall_eq_or_imp, forall_eq]
    decide
  simp only [mem_members, List.mem_cons, List.not_mem_nil, or_false] at ha
  rcases ha with rfl | rfl | rfl | rfl
  · exact absurd (DeltaOp.addVerificationMethod.inj hop).1 (by decide)
  · exact absurd hin (by decide)
  · obtain ⟨_, rfl, _⟩ := DeltaOp.addVerificationMethod.inj hop
    have hdecoded : decodeMultibaseU "uB" = .ok [66] := by decide
    rw [verifyUnderKey, hdecoded] at hverifies
    have hnode : shadowSigned.timestamp.nodeId ≠ Primitives.nodeDigest [66] := by decide
    simp [hnode] at hverifies
  · exact absurd hop (by simp [shadowSigned])

end Readable

end DidCrdt
