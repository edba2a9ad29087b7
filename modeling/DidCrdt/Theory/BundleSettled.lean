import DidCrdt.Theory.BatchOrder
import DidCrdt.Theory.BundleOrderFree

/-!
# Bundles whose copies agree

A bundle has one result in every order, and the one that feeding its deltas parents first has, when the
copies of each new payload agree: they name one signer, pass the gates alike, and their proofs get one
verdict under all entries that may be found for that signer (`bundle_orderFree_of_agree`). So it is for a
bundle without repeated payloads in which no id names two keys.

When a choice of copies verifies, every payload of such a bundle is vouched for (`Choice.vouched`), so
that the other copies pass in the places of the chosen ones (`copiesPass_of_agree`), and no payload is
starved: it verifies wherever its parents are held (`not_starved_of_agree`). With copies that do not agree
the order can matter (`mergeVerifiedBundle_depends_on_order`).
-/

set_option autoImplicit false
set_option relaxedAutoImplicit false

namespace DidCrdt

open scoped List

section

variable [Primitives]

/-- The copies name one signer, pass the gates alike, and their proofs get one verdict under all entries
that may be found for the signer. -/
structure CopiesAgree (doc : Document) (bundled : List SignedDelta) (d d' : SignedDelta) : Prop where
  signer : d.signer = d'.signer
  gates : PassesGates doc.did d → PassesGates doc.did d'
  proofs : ∀ e e', MayFind doc bundled d e → MayFind doc bundled d' e' →
    SignedUnder d e.publicKeyMultibase → SignedUnder d' e'.publicKeyMultibase

/-- The copies of every payload of the bundle that is not held agree. -/
def BundleAgrees (doc : Document) (bundled : List SignedDelta) : Prop :=
  ∀ d ∈ bundled, ∀ d' ∈ bundled, d.contentHash = d'.contentHash → d.contentHash ∉ doc.logHashes →
    CopiesAgree doc bundled d d'

section Agreeing

variable {deltas : Set SignedDelta} {root d d' : SignedDelta} {doc : Document}
  {e : VerificationMethodEntry} {bundled run : List SignedDelta} {order : List DeltaHash}

/-- The entries that may be found depend on the payload and the signer alone. -/
theorem MayFind.copy (hmay : MayFind doc bundled d e) (hhash : d.contentHash = d'.contentHash)
    (hparents : d.parents = d'.parents) (hsigner : d.signer = d'.signer) :
    MayFind doc bundled d' e := by
  have hleads : Leads doc bundled d e → Leads doc bundled d' e := by
    rintro ⟨hnamed, hheld, hpast⟩
    rw [hparents, hsigner] at hpast
    exact ⟨hnamed.trans hsigner, hsigner ▸ hheld, hpast⟩
  cases hmay with
  | held he hfirst => exact .held he (hleads hfirst)
  | added ha hop hother hbefore hfound hsigned hfirst =>
    exact .added ha hop (hhash ▸ hother) (hhash ▸ hbefore) hfound hsigned (hleads hfirst)

/-- A copy of a vouched delta that agrees with it is vouched for. -/
theorem CopiesAgree.vouched (hagree : CopiesAgree doc bundled d d')
    (hhash : d.contentHash = d'.contentHash) (hparents : d.parents = d'.parents)
    (hvouched : Vouched doc bundled d) : Vouched doc bundled d' := by
  obtain ⟨e, hmay, hsigned⟩ := hvouched
  have hmay' := hmay.copy hhash hparents hagree.signer
  exact ⟨e, hmay', hagree.proofs e e hmay hmay' hsigned⟩

/-- A copy of an admissible delta that agrees with it is admissible. -/
theorem CopiesAgree.admissible (hagree : CopiesAgree doc bundled d d') (hdid : doc.did = root.did)
    (hparents : d.parents = d'.parents) (hadmissible : Admissible deltas root.did d) :
    Admissible deltas root.did d' := by
  obtain ⟨hgates, hgrounded, hadded, hrevoked, hdeactivated⟩ := hadmissible
  rw [hparents, hagree.signer] at hadded hrevoked
  rw [hparents] at hgrounded hdeactivated
  exact ⟨hdid ▸ hagree.gates (hdid ▸ hgates), hgrounded, hadded, hrevoked, hdeactivated⟩

/-- Assumes: the copies of new payloads agree, and a choice of copies verifies. Every new delta of the
bundle is vouched for. -/
theorem Choice.vouched (hchoice : Choice doc bundled order run) (hagrees : BundleAgrees doc bundled)
    (h : Coherent deltas root doc) (hfree : CollisionFree deltas) (hbundle : members bundled ⊆ deltas)
    (horder : topoOrderBundle (Document.indexBundle bundled) = .ok order)
    (hverifies : Verifies (members bundled) doc run) :
    ∀ d ∈ bundled, d.contentHash ∉ doc.logHashes → Vouched doc bundled d := by
  intro d hd hnew
  have hin : d.contentHash ∈ run.map SignedDelta.contentHash := by
    rw [hchoice.hashes, List.mem_filter, Bool.not_eq_true', h.contains_eq_false_iff]
    exact ⟨(mem_order_iff horder _).mpr (List.mem_map_of_mem hd), hnew⟩
  obtain ⟨chosen, hchosen, hkey⟩ := List.mem_map.mp hin
  have hchosen' := hchoice.copies chosen hchosen
  exact (hagrees chosen hchosen' d hd hkey (hkey ▸ hnew)).vouched hkey
    (hfree.parents_eq (hbundle hchosen') (hbundle hd) hkey)
    (h.vouched_of_verifies hfree hbundle run hverifies chosen hchosen).2

/-- Assumes: the copies of new payloads agree. The other copies pass in the places of those that verify. -/
theorem copiesPass_of_agree (hagrees : BundleAgrees doc bundled) (h : Coherent deltas root doc)
    (hfree : CollisionFree deltas) (hbundle : members bundled ⊆ deltas)
    (hverifies : Verifies (members bundled) doc run) : CopiesPass bundled doc run := by
  intro before d after hsplit d' hd' hkey
  rw [hsplit] at hverifies
  obtain ⟨hbefore, hd, haccepts, hsig, _⟩ := (verifies_append before doc).mp hverifies
  have hreached := h.recordAll hfree (hbefore.mono hbundle)
  have hrun := h.vouched_of_verifies hfree hbundle before hbefore
  obtain ⟨hnew, hadmissible, hheld⟩ := (hreached.accepts_iff hfree).mp haccepts
  have hfirst : d.contentHash ∉ doc.logHashes := mt held_recordAll hnew
  have hparents : d.parents = d'.parents := hfree.parents_eq (hbundle hd) (hbundle hd') hkey.symm
  have hagree := hagrees d hd d' hd' hkey.symm hfirst
  have haccepts' : Accepts (doc.recordAll before) d' := by
    refine (hreached.accepts_iff hfree).mpr ⟨hkey ▸ hnew, ?_, hparents ▸ hheld⟩
    exact hagree.admissible h.did hparents hadmissible
  obtain ⟨e, hfound, hsigned⟩ := (verifySignature_eq_ok_iff hreached.exists_method).mp hsig
  have hmay := h.mayFind hfree hbundle hreached hrun hnew hheld hfound
  refine ⟨haccepts', (verifySignature_eq_ok_iff hreached.exists_method).mpr
    ⟨e, hagree.signer ▸ hfound, ?_⟩⟩
  exact hagree.proofs e e hmay (hmay.copy hkey.symm hparents hagree.signer) hsigned

/-- Assumes: the new deltas of the bundle are admissible. What a document grows to is coherent. -/
theorem Coherent.recordAll_of_grows (hbundle : members bundled ⊆ deltas) (run : List SignedDelta) :
    ∀ doc : Document, Coherent deltas root doc →
      (∀ e ∈ bundled, e.contentHash ∉ doc.logHashes → Admissible deltas root.did e) →
      Grows (members bundled) doc run → Coherent deltas root (doc.recordAll run) := by
  induction run with
  | nil => exact fun _ h _ _ ↦ h
  | cons d run ih =>
    rintro doc h hadmissible ⟨hd, hnew, hparents, hrest⟩
    obtain ⟨hcoherent, hadmissible'⟩ := h.grow hbundle hadmissible hd hnew hparents
    exact ih (doc.record d) hcoherent hadmissible' hrest

theorem Grows.of_append {source : Set SignedDelta} {more : List SignedDelta}
    (hgrows : Grows source doc (run ++ more)) : Grows source doc run := by
  induction run generalizing doc with
  | nil => trivial
  | cons d run ih => exact ⟨hgrows.1, hgrows.2.1, hgrows.2.2.1, ih hgrows.2.2.2⟩

/-- Assumes: the copies of new payloads agree, and the new deltas of the bundle are admissible and vouched
for. No payload of the bundle is starved. -/
theorem not_starved_of_agree (hagrees : BundleAgrees doc bundled) (h : Coherent deltas root doc)
    (hfree : CollisionFree deltas) (hbundle : members bundled ⊆ deltas)
    (hadmissible : ∀ e ∈ bundled, e.contentHash ∉ doc.logHashes → Admissible deltas root.did e)
    (hvouched : ∀ e ∈ bundled, e.contentHash ∉ doc.logHashes → Vouched doc bundled e)
    (hd : d ∈ bundled) : ¬ Starved bundled doc d := by
  rintro ⟨run, hgrows, hmissing, hcopies⟩
  obtain ⟨before, ⟨after, hsplit⟩, hheld, hunverified⟩ := hcopies d hd rfl
  rw [← hsplit] at hgrows hmissing
  have hbefore := hgrows.of_append
  have hreached := Coherent.recordAll_of_grows hbundle before doc h hadmissible hbefore
  have hrun : ∀ a ∈ before, a ∈ bundled ∧ Vouched doc bundled a := fun a ha ↦
    ⟨hbefore.mem_source a ha, hvouched a (hbefore.mem_source a ha) (hbefore.hashes.1 a ha)⟩
  have hnew : d.contentHash ∉ (doc.recordAll before).logHashes := missing_before hmissing
  have hfirst : d.contentHash ∉ doc.logHashes := mt held_recordAll hnew
  have hsettled : Settled doc bundled d := (hagrees d hd d hd rfl hfirst).proofs
  exact hunverified (hsettled.verifies (hvouched d hd hfirst) h hfree hbundle hreached hrun
    ((hreached.accepts_iff hfree).mpr ⟨hnew, hadmissible d hd hfirst, hheld⟩))

end Agreeing

/-- Assumes: the collection holds the creation delta and does not collide. For every document of verified
ingestion and every bundle of deltas of the collection: when the copies of each new payload agree, the
order of the bundle, and feeding it one delta at a time, make no difference. No order of a bundle, whose
copies agree or not, leaves a delta pending. -/
theorem bundle_orderFree_of_agree (publicKeyMultibase : String) (deltas : Set SignedDelta)
    (hfree : CollisionFree deltas) (hgenesis : Document.genesis publicKeyMultibase ∈ deltas)
    (doc : Document) (hdoc : IngestedWhile (fun _ _ ↦ True) deltas publicKeyMultibase doc)
    (bundle : ClosureBundle) (hbundle : ∀ d ∈ bundle.deltas, d ∈ deltas) :
    (∀ others, others ~ bundle.deltas → ∀ missing,
        (doc.mergeVerifiedBundle ⟨bundle.target, others⟩).2 ≠ .error (.deltaPending missing)) ∧
      (BundleAgrees doc bundle.deltas → BundleOrderFree doc bundle) := by
  have h := hdoc.coherent hfree hgenesis
  refine ⟨fun others hperm ↦ mergeVerifiedBundle_ne_pending h hfree fun e he ↦
    hbundle e (hperm.mem_iff.mp he), fun hagrees ↦ ?_⟩
  refine (mergeVerifiedBundle_orderFree_iff publicKeyMultibase deltas hfree hgenesis doc hdoc bundle
    hbundle).mpr fun order run hstructured horder hchoice hverifies ↦ ?_
  have hpass := copiesPass_of_agree hagrees h hfree hbundle hverifies
  refine ⟨hpass, fun d hd ↦ not_starved_of_agree hagrees h hfree hbundle ?_ ?_ hd⟩
  · exact hchoice.admissible h hfree hbundle horder hverifies hpass
  · exact hchoice.vouched hagrees h hfree hbundle horder hverifies

end

section Readable

attribute [local instance] Primitives.readable

/-- A bundle that has a revocation before the key that signs it, and the revocation twice. It succeeds, and
so it does in every order. -/
theorem bundle_orderFree_of_agree_repeated :
    let doc := (Document.new "u7").1
    let bundle : ClosureBundle := ⟨(ownRevocation "uA").contentHash,
      [ownRevocation "uA", ownKey, ownRevocation "uA"]⟩
    (doc.mergeVerifiedBundle bundle).2.isOk = true ∧ BundleOrderFree doc bundle := by
  intro doc bundle
  have hfree : CollisionFree (members [Document.genesis "u7", ownRevocation "uA", ownKey]) :=
    .of_nodup (by decide)
  have hsettled : ∀ d, Settled doc bundle.deltas d := fun d ↦ settled_of_oneKey d fun e e' he he' ↦
    oneKey_ownKey (by simp [bundle]) he he'
  refine ⟨by decide, (bundle_orderFree_of_agree "u7" _ hfree (by simp) doc .new bundle
    (by simp [bundle])).2 fun d hd d' hd' hhash _ ↦ ?_⟩
  obtain rfl : d = d' := by
    simp only [bundle, List.mem_cons, List.not_mem_nil, or_false] at hd hd'
    rcases hd with rfl | rfl | rfl <;> rcases hd' with rfl | rfl | rfl <;>
      first | rfl | exact absurd hhash (by decide)
  exact ⟨rfl, id, hsettled d⟩

/-- Two copies of one revocation, of which one is forged. The bundle succeeds with the forged copy first,
and fails with the forged copy last. -/
theorem mergeVerifiedBundle_depends_on_order :
    let d := SignedDelta.readable "did:crdt:u7" "did:crdt:u7#key-0" "u7" 1 55 (.revokeCredential "c")
      ["0.0.0"]
    let forged := SignedDelta.readable "did:crdt:u7" "did:crdt:u7#key-0" "u8" 1 55
      (.revokeCredential "c") ["0.0.0"]
    let doc := (Document.new "u7").1
    (doc.mergeVerifiedBundle ⟨d.contentHash, [forged, d]⟩).2.isOk = true ∧
      (doc.mergeVerifiedBundle ⟨d.contentHash, [d, forged]⟩).2.isOk = false ∧
      ¬ BundleOrderFree doc ⟨d.contentHash, [forged, d]⟩ := by
  intro d forged doc
  have hsucceeds : (doc.mergeVerifiedBundle ⟨d.contentHash, [forged, d]⟩).2.isOk = true := by decide
  have hfails : (doc.mergeVerifiedBundle ⟨d.contentHash, [d, forged]⟩).2.isOk = false := by decide
  refine ⟨hsucceeds, hfails, fun hfree ↦ ?_⟩
  rcases hfree.same [d, forged] (.swap _ _ _) with ⟨e, _, herror, _⟩ | ⟨_, _, hok, _⟩
  · rw [herror] at hsucceeds
    exact absurd hsucceeds (by simp [Except.isOk, Except.toBool])
  · rw [hok] at hfails
    exact absurd hfails (by simp [Except.isOk, Except.toBool])

end Readable

end DidCrdt
