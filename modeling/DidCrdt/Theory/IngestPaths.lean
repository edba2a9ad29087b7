import DidCrdt.Service.Handlers
import DidCrdt.Theory.Growth
import DidCrdt.Theory.Replay

/-!
# The ingest paths

A delta reaches a document over HTTP (`submitDelta`), by gossip (`mergeVerifiedDelta`), and as a bundle
of one delta. A delta that is not held gets one decision from all of them, with one exception: the
handler refuses an oversized delta before it looks for its parents. A delta that is held is accepted
without a check by gossip and by bundles, while the handler verifies its signature again
(`ingestPaths_agree_iff`).
-/

set_option autoImplicit false
set_option relaxedAutoImplicit false

namespace DidCrdt

open scoped List
open Reconciliation (Acyclic)

/-! ### Decisions -/

/-- What becomes of a delta; a pending one waits for the hashes listed. -/
inductive Decision
  | accepted
  | pending (missing : List String)
  | refused
deriving DecidableEq

/-- The decision that an answer reports. -/
def Response.decision (response : Response) : Decision :=
  match response.status, response.body with
  | .accepted, _ => .accepted
  | _, .pending missing => .pending missing
  | _, _ => .refused

/-- The decision that the result of a merge reports. -/
def decisionOf {α : Type} (result : Except Error α) : Decision :=
  match result with
  | .ok _ => .accepted
  | .error (.deltaPending missing) => .pending (missing.map DeltaHash.toString)
  | .error _ => .refused

theorem decisionOf_error {α : Type} {e : Error} (hne : ∀ missing, e ≠ .deltaPending missing) :
    decisionOf (.error e : Except Error α) = .refused := by
  cases e with
  | deltaPending missing => exact absurd rfl (hne missing)
  | _ => rfl

section

variable [Primitives]

/-- The bundle of one delta, which targets it. -/
def SignedDelta.toBundle (d : SignedDelta) : ClosureBundle := ⟨d.contentHash, [d]⟩

/-- The three paths make one decision on the delta and leave the same document; the bundle is asked when
the parents are held. -/
structure PathsAgree (docs : Docs) (doc : Document) (d : SignedDelta) : Prop where
  http : (submitDelta docs doc.did.toString d).2.decision = decisionOf (doc.mergeVerifiedDelta d).2
  httpLeaves : (submitDelta docs doc.did.toString d).1[doc.did]? = some (doc.mergeVerifiedDelta d).1
  bundle : (∀ p ∈ d.parents, doc.dag.contains p = true) →
    decisionOf (doc.mergeVerifiedBundle d.toBundle).2 = decisionOf (doc.mergeVerifiedDelta d).2
  bundleLeaves : (∀ p ∈ d.parents, doc.dag.contains p = true) →
    (doc.mergeVerifiedBundle d.toBundle).1 = (doc.mergeVerifiedDelta d).1

/-- A held delta verifies and is not oversized, and an oversized one misses no predecessor. -/
structure HandledAlike (doc : Document) (d : SignedDelta) : Prop where
  held : doc.dag.contains d.contentHash = true →
    verifySignature d doc = .ok () ∧ Primitives.serialisedSize d ≤ maxDeltaSize
  oversized : maxDeltaSize < Primitives.serialisedSize d → doc.missingParents d = []

/-! ### The bundle of one delta -/

section Bundle

variable {deltas : Set SignedDelta} {root : SignedDelta} {doc : Document} {d : SignedDelta}

/-- A delta of a collection without collisions does not name itself once its parents are held. -/
theorem Coherent.not_own_parent (h : Coherent deltas root doc) (hfree : CollisionFree deltas)
    (hd : d ∈ deltas) (hheld : ∀ p ∈ d.parents, doc.dag.contains p = true) :
    d.contentHash ∉ d.parents := by
  intro hself
  obtain ⟨e, he, hkey⟩ := List.mem_map.mp ((h.contains_iff _).mp (hheld _ hself))
  rw [← hfree.parents_eq (h.sub he) hd hkey, ← hkey] at hself
  obtain ⟨before, after, hsplit⟩ := List.append_of_mem he
  have hearlier := h.history.parents_earlier hsplit hself
  have hnodup := h.history.nodup
  rw [hsplit, List.map_append, List.map_cons] at hnodup
  exact (List.nodup_append.mp hnodup).2.2 _ hearlier _ List.mem_cons_self rfl

/-- A held delta is accepted by gossip and leaves the document as it was. -/
theorem mergeVerifiedDelta_of_held (hheld : doc.dag.contains d.contentHash = true) :
    doc.mergeVerifiedDelta d = (doc, .ok ()) := by
  rw [Document.mergeVerifiedDelta, if_pos hheld]

theorem mergeVerifiedDelta_ne_ok (hnew : doc.dag.contains d.contentHash = false)
    (hrefused : ¬ (Accepts doc d ∧ verifySignature d doc = .ok ())) :
    (doc.mergeVerifiedDelta d).2 ≠ .ok () := by
  unfold Document.mergeVerifiedDelta
  rw [if_neg (by simp [hnew])]
  cases hverdict : verifyCausal d doc.dag with
  | unknown missing => simp
  | _ =>
    cases hsig : verifySignature d doc with
    | error e => simp
    | ok _ =>
      intro hok
      have hheld := (Document.merge_of_not_accepts fun haccepts ↦ hrefused ⟨haccepts, hsig⟩).2 hok
      rw [hnew] at hheld
      exact absurd hheld (by simp)

/-- A decided delta that is not recorded is refused. -/
theorem mergeVerifiedDelta_refused (hnew : doc.dag.contains d.contentHash = false)
    (hdecided : ∀ missing, verifyCausal d doc.dag ≠ .unknown missing)
    (hrefused : ¬ (Accepts doc d ∧ verifySignature d doc = .ok ())) :
    decisionOf (doc.mergeVerifiedDelta d).2 = .refused ∧ (doc.mergeVerifiedDelta d).1 = doc := by
  have hsame : (doc.mergeVerifiedDelta d).1 = doc := by
    rcases Document.mergeVerifiedDelta_fst_eq doc d with ⟨haccepts, hsig, _⟩ | ⟨_, heq⟩
    · exact absurd ⟨haccepts, hsig⟩ hrefused
    · exact heq
  refine ⟨?_, hsame⟩
  have hpending : ¬ Pending doc d := fun hpending ↦ by
    obtain ⟨_, missing, hunknown⟩ := pending_iff.mp hpending
    exact hdecided missing hunknown
  cases hresult : (doc.mergeVerifiedDelta d).2 with
  | error e => exact decisionOf_error fun missing heq ↦ hpending ⟨missing, by rw [hresult, heq]⟩
  | ok _ =>
    exact absurd hresult (mergeVerifiedDelta_ne_ok hnew hrefused)

theorem getElem?_indexBundle_singleton (d : SignedDelta) (k : DeltaHash) (e : SignedDelta) :
    (Document.indexBundle [d])[k]? = some e ↔ e = d ∧ e.contentHash = k := by
  have hnodup : ([d].map SignedDelta.contentHash).Nodup := List.nodup_singleton _
  rw [getElem?_indexBundle_iff hnodup, List.mem_singleton]

/-- The order found for a bundle of one delta. -/
theorem topoOrderBundle_singleton (hself : d.contentHash ∉ d.parents) :
    topoOrderBundle (Document.indexBundle [d]) = .ok [d.contentHash] := by
  have hacyclic : Acyclic (Document.indexBundle [d]).Names := by
    refine .of_rank (fun _ ↦ 0) fun a p hnames ↦ ?_
    obtain ⟨e, he, hp, hin⟩ := hnames
    obtain ⟨rfl, rfl⟩ := (getElem?_indexBundle_singleton d a e).mp he
    rw [contains_indexBundle, List.map_singleton, List.mem_singleton] at hin
    exact absurd (hin ▸ hp) hself
  obtain ⟨order, horder⟩ := topoOrderBundle_eq_ok hacyclic
  obtain ⟨hperm, _⟩ := topoOrderBundle_spec horder
  have hsingle : order ~ [d.contentHash] := by
    refine hperm.trans ((List.perm_ext_iff_of_nodup Std.ExtTreeMap.nodup_keys
      (List.nodup_singleton _)).mpr fun k ↦ ?_)
    rw [OrderedMaps.mem_keys_iff, ← OrderedMaps.contains_iff, contains_indexBundle,
      List.map_singleton]
  rw [horder, List.perm_singleton.mp hsingle]

/-- Assumes: the parents of the delta are held. Its bundle is handled as the delta is by gossip. -/
theorem toBundle_agrees (h : Coherent deltas root doc) (hfree : CollisionFree deltas)
    (hd : d ∈ deltas) (hheld : ∀ p ∈ d.parents, doc.dag.contains p = true) :
    decisionOf (doc.mergeVerifiedBundle d.toBundle).2 = decisionOf (doc.mergeVerifiedDelta d).2 ∧
      (doc.mergeVerifiedBundle d.toBundle).1 = (doc.mergeVerifiedDelta d).1 := by
  have hstructured : Structured doc d.toBundle :=
    ⟨List.mem_singleton_self _, fun e he p hp ↦ Or.inr (hheld p (List.mem_singleton.mp he ▸ hp))⟩
  have horder := topoOrderBundle_singleton (h.not_own_parent hfree hd hheld)
  obtain ⟨hverified, hrefused⟩ := mergeVerifiedBundle_spec hstructured horder
  have hsubmitted : doc.submitted (Document.indexBundle d.toBundle.deltas) [d.contentHash] =
      if doc.dag.contains d.contentHash = true then [] else [d] := by
    have hget := (getElem?_indexBundle_singleton d d.contentHash d).mpr ⟨rfl, rfl⟩
    unfold Document.submitted SignedDelta.toBundle
    split_ifs with hin
    · simp [hin]
    · simp [hin, hget]
  rw [hsubmitted] at hverified hrefused
  by_cases hin : doc.dag.contains d.contentHash = true
  · rw [if_pos hin] at hverified
    rw [hverified trivial, mergeVerifiedDelta_of_held hin]
    exact ⟨rfl, rfl⟩
  rw [if_neg hin] at hverified hrefused
  have hnew : doc.dag.contains d.contentHash = false := by simpa using hin
  by_cases haccepts : Accepts doc d ∧ verifySignature d doc = .ok ()
  · rw [hverified ⟨List.mem_singleton_self d, haccepts.1, haccepts.2, trivial⟩,
      Document.mergeVerifiedDelta_of_accepts haccepts.1 haccepts.2]
    exact ⟨rfl, rfl⟩
  · obtain ⟨hdecision, hsame⟩ :=
      mergeVerifiedDelta_refused hnew (h.verifyCausal_ne_unknown hheld) haccepts
    obtain ⟨e, _, hmerged⟩ := hrefused fun hverifies ↦
      haccepts ⟨hverifies.2.1, hverifies.2.2.1⟩
    have hne : ∀ missing, e ≠ .deltaPending missing := by
      rintro missing rfl
      refine mergeVerifiedBundle_ne_pending h hfree (fun e he ↦ ?_) missing
        (congrArg Prod.snd hmerged)
      rw [List.mem_singleton.mp he]
      exact hd
    rw [hmerged, hdecision, hsame]
    exact ⟨decisionOf_error hne, rfl⟩

end Bundle

/-! ### The handler -/

section Handler

variable {deltas : Set SignedDelta} {root : SignedDelta} {docs : Docs} {doc : Document}
  {d : SignedDelta}

/-- The handler refuses an oversized delta. -/
theorem submitDelta_of_oversized (docs : Docs) (didStr : String)
    (hsize : maxDeltaSize < Primitives.serialisedSize d) :
    (submitDelta docs didStr d).2.decision = .refused ∧ (submitDelta docs didStr d).1 = docs := by
  simp [submitDelta, hsize, Response.decision]

/-- The handler reports the predecessors that are missing. -/
theorem submitDelta_of_missing (hget : docs[doc.did]? = some doc) (hdid : d.did = doc.did)
    (hsize : ¬ maxDeltaSize < Primitives.serialisedSize d) (hmissing : doc.missingParents d ≠ []) :
    submitDelta docs doc.did.toString d = (docs, pendingResponse (doc.missingParents d)) := by
  simp [submitDelta, hget, hdid, hsize, hmissing]

/-- The handler refuses a delta whose signature does not verify. -/
theorem submitDelta_of_forged (hget : docs[doc.did]? = some doc) (hdid : d.did = doc.did)
    (hsize : ¬ maxDeltaSize < Primitives.serialisedSize d) (hmissing : doc.missingParents d = [])
    (hsig : verifySignature d doc ≠ .ok ()) :
    (submitDelta docs doc.did.toString d).2.decision = .refused ∧
      (submitDelta docs doc.did.toString d).1 = docs := by
  cases hverdict : verifySignature d doc with
  | error e => simp [submitDelta, hget, hdid, hsize, hmissing, hverdict, Response.decision]
  | ok _ => exact absurd hverdict hsig

/-- The handler merges a delta whose signature verifies. -/
theorem submitDelta_of_verified (hget : docs[doc.did]? = some doc) (hdid : d.did = doc.did)
    (hsize : ¬ maxDeltaSize < Primitives.serialisedSize d) (hmissing : doc.missingParents d = [])
    (hsig : verifySignature d doc = .ok ()) :
    (submitDelta docs doc.did.toString d).2.decision = decisionOf (doc.merge d).2 ∧
      (submitDelta docs doc.did.toString d).1[doc.did]? = some (doc.merge d).1 := by
  rcases hmerge : doc.merge d with ⟨next, outcome⟩
  cases outcome with
  | ok _ =>
    simp [submitDelta, hget, hdid, hsize, hmissing, hsig, hmerge, Response.decision, decisionOf]
  | error e =>
    cases e <;> simp [submitDelta, hget, hdid, hsize, hmissing, hsig, hmerge,
      coreErrorResponse, pendingResponse, decisionOf, Response.decision]

/-- Missing predecessors are those of an undecided verdict. -/
theorem Coherent.missingParents_eq_nil_iff (h : Coherent deltas root doc) :
    doc.missingParents d = [] ↔ ∀ missing, verifyCausal d doc.dag ≠ .unknown missing := by
  unfold Document.missingParents
  cases hverdict : verifyCausal d doc.dag with
  | unknown missing =>
    have hgrounded : d.parents ≠ [] := (exists_missing_of_unknown h.history (h.dag ▸ hverdict)).1
    simp [missing_ne_nil hgrounded hverdict]
  | _ => simp

/-- Assumes: the delta is not held and not oversized. The handler and gossip handle it alike. -/
theorem submitDelta_agrees_of_new (h : Coherent deltas root doc) (hget : docs[doc.did]? = some doc)
    (hdid : d.did = doc.did) (hsize : ¬ maxDeltaSize < Primitives.serialisedSize d)
    (hnew : doc.dag.contains d.contentHash = false) :
    (submitDelta docs doc.did.toString d).2.decision = decisionOf (doc.mergeVerifiedDelta d).2 ∧
      (submitDelta docs doc.did.toString d).1[doc.did]? = some (doc.mergeVerifiedDelta d).1 := by
  by_cases hmissing : doc.missingParents d = []
  · have hdecided := h.missingParents_eq_nil_iff.mp hmissing
    by_cases hsig : verifySignature d doc = .ok ()
    · have hgossip : doc.mergeVerifiedDelta d = doc.merge d := by
        unfold Document.mergeVerifiedDelta
        rw [if_neg (by simp [hnew])]
        cases hverdict : verifyCausal d doc.dag with
        | unknown missing => exact absurd hverdict (hdecided missing)
        | _ => simp [hsig]
      rw [hgossip]
      exact submitDelta_of_verified hget hdid hsize hmissing hsig
    · obtain ⟨hdecision, hsame⟩ := mergeVerifiedDelta_refused hnew hdecided fun hok ↦ hsig hok.2
      obtain ⟨hrefused, hstore⟩ := submitDelta_of_forged hget hdid hsize hmissing hsig
      rw [hrefused, hstore, hdecision, hsame]
      exact ⟨rfl, hget⟩
  · have hpending : ∃ missing, verifyCausal d doc.dag = .unknown missing := by
      by_contra hnone
      exact hmissing (h.missingParents_eq_nil_iff.mpr fun missing hunknown ↦ hnone ⟨missing, hunknown⟩)
    obtain ⟨missing, hunknown⟩ := hpending
    have hlist : doc.missingParents d = missing := by
      rw [Document.missingParents, hunknown]
    have hgossip : doc.mergeVerifiedDelta d = (doc, .error (.deltaPending missing)) := by
      rw [Document.mergeVerifiedDelta, if_neg (by simp [hnew]), hunknown]
    rw [submitDelta_of_missing hget hdid hsize hmissing, hgossip, hlist]
    exact ⟨rfl, hget⟩

/-- A held delta that is not oversized passes the gates: its payload did when it was admitted. -/
theorem Coherent.staticGates_of_held (h : Coherent deltas root doc) (hfree : CollisionFree deltas)
    (hd : d ∈ deltas) (hdid : d.did = doc.did) (hsize : ¬ maxDeltaSize < Primitives.serialisedSize d)
    (hheld : doc.dag.contains d.contentHash = true) : doc.staticGates d = .ok () := by
  obtain ⟨e, he, hkey⟩ := List.mem_map.mp ((h.contains_iff _).mp hheld)
  obtain ⟨entry, hbootstrap⟩ := h.bootstrap
  have hop := hfree.op_eq (h.sub he) hd hkey
  have hparents := hfree.parents_eq (h.sub he) hd hkey
  refine ((staticGates_eq_ok_iff doc d).mpr ⟨Nat.not_lt.mp hsize, hdid, fun uris huris ↦ ?_,
    fun key value hset ↦ ?_, ?_⟩).1
  · by_cases hroot : e.parents = []
    · rw [← hop, h.history.eq_root he hroot, hbootstrap] at huris
      exact absurd huris (by simp [VerificationMethodEntry.addition])
    · exact (h.admitted e he hroot).gates.aliases uris (hop.trans huris)
  · by_cases hroot : e.parents = []
    · rw [← hop, h.history.eq_root he hroot, hbootstrap] at hset
      exact absurd hset (by simp [VerificationMethodEntry.addition])
    · exact (h.admitted e he hroot).gates.names key value (hop.trans hset)
  · rw [← hparents]
    by_cases hroot : e.parents = []
    · rw [hroot]
      rfl
    · exact (h.admitted e he hroot).gates.canonical

/-- A held delta misses no predecessor: they came before it. -/
theorem Coherent.missingParents_of_held (h : Coherent deltas root doc) (hfree : CollisionFree deltas)
    (hd : d ∈ deltas) (hheld : doc.dag.contains d.contentHash = true) :
    (∀ p ∈ d.parents, doc.dag.contains p = true) ∧ doc.missingParents d = [] := by
  obtain ⟨e, he, hkey⟩ := List.mem_map.mp ((h.contains_iff _).mp hheld)
  have hparents : ∀ p ∈ d.parents, doc.dag.contains p = true := by
    intro p hp
    rw [← hfree.parents_eq (h.sub he) hd hkey] at hp
    exact (h.contains_iff p).mpr ((mem_hashes_iff _ p).mpr (h.history.parentClosed e he p hp))
  exact ⟨hparents, h.missingParents_eq_nil_iff.mpr (h.verifyCausal_ne_unknown hparents)⟩

/-- Assumes: the delta is held and not oversized. The handler accepts it when its signature verifies. -/
theorem submitDelta_of_held (h : Coherent deltas root doc) (hfree : CollisionFree deltas)
    (hget : docs[doc.did]? = some doc) (hd : d ∈ deltas) (hdid : d.did = doc.did)
    (hsize : ¬ maxDeltaSize < Primitives.serialisedSize d)
    (hheld : doc.dag.contains d.contentHash = true) :
    ((submitDelta docs doc.did.toString d).2.decision = .accepted ↔
      verifySignature d doc = .ok ()) ∧
    (submitDelta docs doc.did.toString d).1[doc.did]? = some doc := by
  obtain ⟨_, hmissing⟩ := h.missingParents_of_held hfree hd hheld
  by_cases hsig : verifySignature d doc = .ok ()
  · have hmerge : doc.merge d = (doc, .ok ()) := by
      rw [Document.merge, h.staticGates_of_held hfree hd hdid hsize hheld]
      simp only [hheld, ↓reduceIte]
    obtain ⟨hdecision, hstored⟩ := submitDelta_of_verified hget hdid hsize hmissing hsig
    rw [hdecision, hstored, hmerge]
    exact ⟨iff_of_true rfl hsig, rfl⟩
  · obtain ⟨hdecision, hstore⟩ := submitDelta_of_forged hget hdid hsize hmissing hsig
    rw [hdecision, hstore]
    exact ⟨iff_of_false (by simp) hsig, hget⟩

end Handler

/-- Assumes: the collection holds the creation delta and does not collide. For a stored document of
verified ingestion and a delta for its identifier, the three paths agree exactly when a held delta
verifies and is not oversized, and an oversized one misses no predecessor. -/
theorem ingestPaths_agree_iff (publicKeyMultibase : String) (deltas : Set SignedDelta)
    (hfree : CollisionFree deltas) (hgenesis : Document.genesis publicKeyMultibase ∈ deltas)
    (doc : Document) (h : IngestedWhile (fun _ _ ↦ True) deltas publicKeyMultibase doc)
    (docs : Docs) (hget : docs[doc.did]? = some doc) (d : SignedDelta) (hd : d ∈ deltas)
    (hdid : d.did = doc.did) : PathsAgree docs doc d ↔ HandledAlike doc d := by
  have hcoherent := h.coherent hfree hgenesis
  have hbundle := toBundle_agrees hcoherent hfree hd
  by_cases hheld : doc.dag.contains d.contentHash = true
  · have hgossip := mergeVerifiedDelta_of_held hheld
    have hmissing := (hcoherent.missingParents_of_held hfree hd hheld).2
    by_cases hsize : maxDeltaSize < Primitives.serialisedSize d
    · have hrefused := (submitDelta_of_oversized docs doc.did.toString hsize).1
      constructor
      · intro hagree
        have hhttp := hagree.http
        rw [hrefused, hgossip] at hhttp
        exact absurd hhttp (by simp [decisionOf])
      · exact fun halike ↦ absurd hsize (Nat.not_lt.mpr (halike.held hheld).2)
    · obtain ⟨haccepted, hstored⟩ := submitDelta_of_held hcoherent hfree hget hd hdid hsize hheld
      constructor
      · intro hagree
        have hhttp := hagree.http
        rw [hgossip] at hhttp
        exact ⟨fun _ ↦ ⟨haccepted.mp hhttp, Nat.not_lt.mp hsize⟩, fun hlarge ↦ absurd hlarge hsize⟩
      · intro halike
        refine ⟨?_, ?_, fun hparents ↦ (hbundle hparents).1, fun hparents ↦ (hbundle hparents).2⟩
        · rw [hgossip, haccepted.mpr (halike.held hheld).1]
          rfl
        · rw [hgossip, hstored]
  have hnew : doc.dag.contains d.contentHash = false := by simpa using hheld
  by_cases hsize : maxDeltaSize < Primitives.serialisedSize d
  · obtain ⟨hrefused, hstore⟩ := submitDelta_of_oversized docs doc.did.toString hsize
    -- an oversized delta is never accepted, but gossip may leave it pending
    have hnever : ¬ (Accepts doc d ∧ verifySignature d doc = .ok ()) := by
      intro haccepts
      have hgates := ((staticGates_eq_ok_iff doc d).mp ⟨haccepts.1.gates, haccepts.1.canonical⟩).size
      exact Nat.not_lt.mpr hgates hsize
    constructor
    · intro hagree
      refine ⟨fun hin ↦ absurd hin hheld, fun _ ↦ ?_⟩
      rw [hcoherent.missingParents_eq_nil_iff]
      intro missing hunknown
      have hhttp := hagree.http
      rw [hrefused, Document.mergeVerifiedDelta, if_neg hheld, hunknown] at hhttp
      exact absurd hhttp (by simp [decisionOf])
    · intro halike
      have hdecided := hcoherent.missingParents_eq_nil_iff.mp (halike.oversized hsize)
      obtain ⟨hdecision, hsame⟩ := mergeVerifiedDelta_refused hnew hdecided hnever
      refine ⟨?_, ?_, fun hparents ↦ (hbundle hparents).1, fun hparents ↦ (hbundle hparents).2⟩
      · rw [hrefused, hdecision]
      · rw [hstore, hsame, hget]
  · obtain ⟨hhttp, hstored⟩ := submitDelta_agrees_of_new hcoherent hget hdid hsize hnew
    exact iff_of_true ⟨hhttp, hstored, fun hparents ↦ (hbundle hparents).1,
      fun hparents ↦ (hbundle hparents).2⟩
      ⟨fun hin ↦ absurd hin hheld, fun hlarge ↦ absurd hlarge hsize⟩

end

section Readable

attribute [local instance] Primitives.readable

/-- The three paths agree on a revocation by the creation key of `u7`. -/
theorem ingestPaths_agree_iff_revocation :
    let d := SignedDelta.readable "did:crdt:u7" "did:crdt:u7#key-0" "u7" 1 55 (.revokeCredential "c")
      ["0.0.0"]
    let doc := (Document.new "u7").1
    PathsAgree ((∅ : Docs).insert doc.did doc) doc d := by
  intro d doc
  refine (ingestPaths_agree_iff "u7" (members [Document.genesis "u7", d]) (.of_nodup (by decide))
    (by simp) doc .new _ Std.ExtTreeMap.getElem?_insert_self d (by simp) (by decide)).mpr ?_
  exact ⟨fun hheld ↦ absurd hheld (by decide), fun hlarge ↦ absurd hlarge (by decide)⟩

/-- The creation delta of `u7` submitted again: gossip and a bundle accept it as held, the handler
refuses it, since it carries no signature. -/
theorem ingestPaths_differ_on_genesis :
    let doc := (Document.new "u7").1
    let docs := (∅ : Docs).insert doc.did doc
    (submitDelta docs doc.did.toString (Document.genesis "u7")).2.status = .forbidden ∧
      decisionOf (doc.mergeVerifiedDelta (Document.genesis "u7")).2 = .accepted ∧
      decisionOf (doc.mergeVerifiedBundle (Document.genesis "u7").toBundle).2 = .accepted ∧
      ¬ PathsAgree docs doc (Document.genesis "u7") := by
  intro doc docs
  have hrefused : (submitDelta docs doc.did.toString (Document.genesis "u7")).2.decision =
      .refused := by decide
  have haccepted : decisionOf (doc.mergeVerifiedDelta (Document.genesis "u7")).2 = .accepted := by
    decide
  refine ⟨by decide, haccepted, by decide, fun hagree ↦ ?_⟩
  have hhttp := hagree.http
  rw [hrefused, haccepted] at hhttp
  exact absurd hhttp (by simp)

end Readable

end DidCrdt
