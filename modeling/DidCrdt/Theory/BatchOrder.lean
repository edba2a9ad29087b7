import DidCrdt.Theory.Batch

/-!
# Batches in every order

The signature of a delta is checked under the first entry that the replica has for its signer, so the
order of a batch matters when the first entry depends on what was merged before. `MayFind` bounds the
entries that can be first when a delta is checked: they are held, or added by a signed delta of the batch
that does not come after it, and not shadowed by what its past adds (`Coherent.mayFind`).

A delta is settled when its proof gets one verdict under all of them (`Settled`), as when no id names two
keys (`settled_of_oneKey`). A batch of settled deltas leaves the same in every order
(`batch_orderFree_of_settled`). When a delta is not settled the order can matter
(`batch_depends_on_order`).
-/

set_option autoImplicit false
set_option relaxedAutoImplicit false

namespace DidCrdt

open scoped List

section

variable [Primitives]

/-! ### The entries that can be found -/

/-- No entry of the signer's id is less, of those that are held or added in the past of the delta. -/
structure Leads (doc : Document) (batch : List SignedDelta) (d : SignedDelta)
    (e : VerificationMethodEntry) : Prop where
  named : e.id = d.signer
  held : ∀ other ∈ doc.verificationMethods, other.id = d.signer → e ≤ other
  past : ∀ a ∈ batch, Past (members batch) d.parents a.contentHash →
    ∀ other : VerificationMethodEntry, a.op = other.addition → other.id = d.signer → e ≤ other

/-- The entry may be the one found for the signer when the delta is checked: it is held, or added by
another delta of the batch that does not come after it and is signed under an entry found so. -/
inductive MayFind (doc : Document) (batch : List SignedDelta) :
    SignedDelta → VerificationMethodEntry → Prop
  | held {d : SignedDelta} {e : VerificationMethodEntry} :
      e ∈ doc.verificationMethods → Leads doc batch d e → MayFind doc batch d e
  | added {d a : SignedDelta} {e signer : VerificationMethodEntry} :
      a ∈ batch → a.op = e.addition → a.contentHash ≠ d.contentHash →
      ¬ Past (members batch) a.parents d.contentHash →
      MayFind doc batch a signer → SignedUnder a signer.publicKeyMultibase →
      Leads doc batch d e → MayFind doc batch d e

/-- The delta is signed under an entry that may be found for it. -/
def Vouched (doc : Document) (batch : List SignedDelta) (d : SignedDelta) : Prop :=
  ∃ e, MayFind doc batch d e ∧ SignedUnder d e.publicKeyMultibase

/-- The proof of the delta gets one verdict under all entries that may be found for it. -/
def Settled (doc : Document) (batch : List SignedDelta) (d : SignedDelta) : Prop :=
  ∀ e e', MayFind doc batch d e → MayFind doc batch d e' →
    SignedUnder d e.publicKeyMultibase → SignedUnder d e'.publicKeyMultibase

theorem MayFind.leads {doc : Document} {batch : List SignedDelta} {d : SignedDelta}
    {e : VerificationMethodEntry} (h : MayFind doc batch d e) : Leads doc batch d e := by
  cases h with
  | held _ hleads => exact hleads
  | added _ _ _ _ _ _ hleads => exact hleads

/-- The entry is one of the document, or one that a delta of the batch adds. -/
theorem MayFind.source {doc : Document} {batch : List SignedDelta} {d : SignedDelta}
    {e : VerificationMethodEntry} (h : MayFind doc batch d e) :
    e ∈ doc.verificationMethods ∨ ∃ a ∈ batch, a.op = e.addition := by
  cases h with
  | held he _ => exact Or.inl he
  | added ha hop _ _ _ _ _ => exact Or.inr ⟨_, ha, hop⟩

/-- Assumes: the entries of the document and of the batch have one key for each id. -/
theorem settled_of_oneKey {doc : Document} {batch : List SignedDelta} (d : SignedDelta)
    (hone : ∀ e e' : VerificationMethodEntry,
      (e ∈ doc.verificationMethods ∨ ∃ a ∈ batch, a.op = e.addition) →
      (e' ∈ doc.verificationMethods ∨ ∃ a ∈ batch, a.op = e'.addition) →
      e.id = e'.id → e.publicKeyMultibase = e'.publicKeyMultibase) : Settled doc batch d := by
  intro e e' he he' hsigned
  rwa [← hone e e' he.source he'.source (he.leads.named.trans he'.leads.named.symm)]

section Found

variable {deltas : Set SignedDelta} {root : SignedDelta} {doc : Document} {d : SignedDelta}
  {e : VerificationMethodEntry} {batch run : List SignedDelta}

/-- The past of parents that are held is held. -/
theorem Coherent.past_held (h : Coherent deltas root doc) (hfree : CollisionFree deltas)
    {parents : List DeltaHash} (hparents : ∀ p ∈ parents, p ∈ doc.logHashes) {hash : DeltaHash}
    (hpast : Past deltas parents hash) : hash ∈ doc.logHashes :=
  (mem_hashes_iff _ _).mpr ((past_iff_of_closed hfree h.sub h.history.parentClosed
    fun p hp ↦ (mem_hashes_iff _ p).mp (hparents p hp)).mp hpast).2

/-- Assumes: the run records vouched deltas of the batch. The entry found for a delta that is not held,
and whose parents are, is one that may be found. -/
theorem Coherent.mayFind (hdoc : Coherent deltas root doc) (hfree : CollisionFree deltas)
    (hbatch : members batch ⊆ deltas) (h : Coherent deltas root (doc.recordAll run))
    (hrun : ∀ a ∈ run, a ∈ batch ∧ Vouched doc batch a)
    (hnew : d.contentHash ∉ (doc.recordAll run).logHashes)
    (hparents : ∀ p ∈ d.parents, p ∈ (doc.recordAll run).logHashes)
    (hfound : VerificationMethods.findId (doc.recordAll run).verificationMethods d.signer = some e) :
    MayFind doc batch d e := by
  obtain ⟨he, hid, hleast⟩ := (VerificationMethods.findId_eq_some_iff _ _ _).mp hfound
  have hlog := deltaLog_recordAll run doc
  have hleads : Leads doc batch d e := by
    refine ⟨hid, fun other hother ↦ hleast other ?_, fun a ha hpast other hop ↦ hleast other ?_⟩
    · obtain ⟨a, ha, hop⟩ := (hdoc.mem_verificationMethods_iff other).mp hother
      exact (h.mem_verificationMethods_iff other).mpr ⟨a, hlog ▸ List.mem_append_left _ ha, hop⟩
    · -- the past of the delta is held, so what it adds is too
      obtain ⟨b, hb, hkey⟩ := List.mem_map.mp (h.past_held hfree hparents (hpast.mono hbatch))
      exact (h.mem_verificationMethods_iff other).mpr
        ⟨b, hb, (hfree.op_eq (h.sub hb) (hbatch ha) hkey).trans hop⟩
  obtain ⟨a, ha, hop⟩ := (h.mem_verificationMethods_iff e).mp he
  have hheld : ∀ b ∈ (doc.recordAll run).deltaLog, b.contentHash ∈ (doc.recordAll run).logHashes :=
    fun b hb ↦ List.mem_map_of_mem hb
  rcases List.mem_append.mp (hlog ▸ ha) with hfirst | hlater
  · exact .held ((hdoc.mem_verificationMethods_iff e).mpr ⟨a, hfirst, hop⟩) hleads
  · obtain ⟨hin, signer, hsigner, hsigned⟩ := hrun a hlater
    refine .added hin hop (fun hkey ↦ hnew (hkey ▸ hheld a ha)) (fun hpast ↦ hnew ?_) hsigner hsigned
      hleads
    refine h.past_held hfree (fun p hp ↦ ?_) (hpast.mono hbatch)
    exact (mem_hashes_iff _ p).mpr (h.history.parentClosed a ha p hp)

/-- Assumes: the run records vouched deltas of the batch. A delta that verifies after it is vouched for. -/
theorem Coherent.vouched (hdoc : Coherent deltas root doc) (hfree : CollisionFree deltas)
    (hbatch : members batch ⊆ deltas) (h : Coherent deltas root (doc.recordAll run))
    (hrun : ∀ a ∈ run, a ∈ batch ∧ Vouched doc batch a) (haccepts : Accepts (doc.recordAll run) d)
    (hsig : verifySignature d (doc.recordAll run) = .ok ()) : Vouched doc batch d := by
  obtain ⟨hnew, _, hparents⟩ := (h.accepts_iff hfree).mp haccepts
  obtain ⟨e, hfound, hsigned⟩ := (verifySignature_eq_ok_iff h.exists_method).mp hsig
  exact ⟨e, hdoc.mayFind hfree hbatch h hrun hnew hparents hfound, hsigned⟩

/-- What a verified run records is vouched for. The induction is on the end of the run. -/
theorem Coherent.vouched_of_verifies (hdoc : Coherent deltas root doc) (hfree : CollisionFree deltas)
    (hbatch : members batch ⊆ deltas) (run : List SignedDelta) :
    Verifies (members batch) doc run → ∀ a ∈ run, a ∈ batch ∧ Vouched doc batch a := by
  induction run using List.reverseRecOn with
  | nil => exact fun _ a ha ↦ absurd ha List.not_mem_nil
  | append_singleton run d ih =>
    intro hverifies a ha
    obtain ⟨hbefore, hd, haccepts, hsig, _⟩ := (verifies_append run doc).mp hverifies
    rcases List.mem_append.mp ha with ha | ha
    · exact ih hbefore a ha
    · rw [List.mem_singleton.mp ha]
      exact ⟨hd, hdoc.vouched hfree hbatch (hdoc.recordAll hfree (hbefore.mono hbatch)) (ih hbefore)
        haccepts hsig⟩

/-- Assumes: the run records vouched deltas of the batch. A settled delta that is vouched for verifies
wherever it is accepted. -/
theorem Settled.verifies (hsettled : Settled doc batch d) (hvouched : Vouched doc batch d)
    (hdoc : Coherent deltas root doc) (hfree : CollisionFree deltas) (hbatch : members batch ⊆ deltas)
    (h : Coherent deltas root (doc.recordAll run))
    (hrun : ∀ a ∈ run, a ∈ batch ∧ Vouched doc batch a) (haccepts : Accepts (doc.recordAll run) d) :
    verifySignature d (doc.recordAll run) = .ok () := by
  obtain ⟨hnew, hadmissible, hparents⟩ := (h.accepts_iff hfree).mp haccepts
  obtain ⟨e, hfound⟩ := h.exists_found hfree hadmissible.authorised hparents
  obtain ⟨e', hmay, hsigned⟩ := hvouched
  exact (verifySignature_eq_ok_iff h.exists_method).mpr
    ⟨e, hfound, hsettled e' e hmay (hdoc.mayFind hfree hbatch h hrun hnew hparents hfound) hsigned⟩

end Found

/-! ### Settled batches -/

section Uncontested

variable {deltas : Set SignedDelta} {root : SignedDelta} {doc : Document} {d : SignedDelta}
  {batch run : List SignedDelta}

/-- A delta that is refused along a run is refused after a part of it. -/
theorem RefusedAlong.exists_before (h : RefusedAlong d doc run) :
    ∃ before, before <+: run ∧ Refused (doc.recordAll before) d := by
  induction run generalizing doc with
  | nil => exact ⟨[], List.prefix_rfl, h⟩
  | cons e run ih =>
    rcases h with h | h
    · exact ⟨[], List.nil_prefix, h⟩
    · obtain ⟨before, hbefore, hrefused⟩ := ih h
      exact ⟨e :: before, (List.prefix_cons_inj e).mpr hbefore, hrefused⟩

/-- The payload of a settled delta is not contested. -/
theorem Settled.not_contested (hsettled : d.contentHash ∉ doc.logHashes → Settled doc batch d)
    (h : Coherent deltas root doc) (hfree : CollisionFree deltas) (hbatch : members batch ⊆ deltas)
    (hd : d ∈ batch) : ¬ Contested batch doc d := by
  rintro ⟨⟨run, hrun, haccepts, hsig⟩, other, hother, hmissing, hrefused⟩
  have hreached := h.recordAll hfree (hrun.mono hbatch)
  have hvouched := h.vouched hfree hbatch hreached (h.vouched_of_verifies hfree hbatch run hrun) haccepts
    hsig
  obtain ⟨before, ⟨after, hsplit⟩, hdecided, hnot⟩ := (hrefused d hd rfl).exists_before
  rw [← hsplit] at hother hmissing
  have hbefore := ((verifies_append before doc).mp hother).1
  have hstopped := h.recordAll hfree (hbefore.mono hbatch)
  have hnew : d.contentHash ∉ (doc.recordAll before).logHashes := missing_before hmissing
  have hfirst : d.contentHash ∉ doc.logHashes := mt held_recordAll hnew
  obtain ⟨_, hadmissible, _⟩ := (hreached.accepts_iff hfree).mp haccepts
  have haccepted := hstopped.accepts_of_not_pending hfree hadmissible hnew hdecided
  exact hnot ⟨haccepted, (hsettled hfirst).verifies hvouched h hfree hbatch hstopped
    (h.vouched_of_verifies hfree hbatch before hbefore) haccepted⟩

end Uncontested

/-- Assumes: the collection holds the creation delta and does not collide. The passes over a batch
always end. When the new deltas of the batch are settled, every order of the batch leaves the same
deltas, and a second delivery changes nothing. -/
theorem batch_orderFree_of_settled (publicKeyMultibase : String) (deltas : Set SignedDelta)
    (hfree : CollisionFree deltas) (hgenesis : Document.genesis publicKeyMultibase ∈ deltas)
    (doc : Document) (hdoc : IngestedWhile (fun _ _ ↦ True) deltas publicKeyMultibase doc)
    (docs : Docs) (did : Did) (hget : docs[did]? = some doc) (policy : BootstrapPolicy)
    (batch : List SignedDelta) (hbatch : ∀ d ∈ batch, d ∈ deltas) :
    (∀ batch', batch' ~ batch → LoopsTo doc batch' (doc.mergeBatch batch')) ∧
      ((∀ d ∈ batch, d.contentHash ∉ doc.logHashes → Settled doc batch d) →
        OrderFree docs did batch policy) := by
  obtain ⟨hends, hiff⟩ := batch_orderFree_iff publicKeyMultibase deltas hfree hgenesis doc hdoc docs did
    hget policy batch hbatch
  refine ⟨hends, fun hsettled ↦ hiff.mpr fun d hd ↦ ?_⟩
  exact Settled.not_contested (hsettled d hd) (hdoc.coherent hfree hgenesis) hfree hbatch hd

end

section Readable

attribute [local instance] Primitives.readable

/-- The key `uA` under an id of its own, added by the creation key of `u7`. -/
def ownKey : SignedDelta :=
  .readable "did:crdt:u7" "did:crdt:u7#key-0" "u7" 1 55
    (.addVerificationMethod "a" "uA" .default defaultRelationships) ["0.0.0"]

/-- A revocation by that key, with a signature by the key given. -/
def ownRevocation (key : String) : SignedDelta :=
  .readable "did:crdt:u7" "a" key 2 65 (.revokeCredential "c") ["1.0.55"]

/-- The entries of a document that holds its creation only. -/
theorem mem_verificationMethods_new {e : VerificationMethodEntry}
    (he : e ∈ (Document.new "u7").1.verificationMethods) :
    e = ⟨"did:crdt:u7#key-0", "u7", .default, defaultRelationships⟩ := by
  have hentries : GSet.entries (Document.new "u7").1.verificationMethods =
      [⟨"did:crdt:u7#key-0", "u7", .default, defaultRelationships⟩] := by decide
  rwa [← GSet.mem_entries, hentries, List.mem_singleton] at he

/-- The creation and a list of revocations and additions of `ownKey` name one key for each id. -/
theorem oneKey_ownKey {batch : List SignedDelta}
    (hbatch : ∀ a ∈ batch, a = ownKey ∨ ∃ key, a = ownRevocation key) {e e' : VerificationMethodEntry}
    (he : e ∈ (Document.new "u7").1.verificationMethods ∨ ∃ a ∈ batch, a.op = e.addition)
    (he' : e' ∈ (Document.new "u7").1.verificationMethods ∨ ∃ a ∈ batch, a.op = e'.addition)
    (hid : e.id = e'.id) : e.publicKeyMultibase = e'.publicKeyMultibase := by
  have hsource : ∀ e : VerificationMethodEntry,
      (e ∈ (Document.new "u7").1.verificationMethods ∨ ∃ a ∈ batch, a.op = e.addition) →
      e = ⟨"did:crdt:u7#key-0", "u7", .default, defaultRelationships⟩ ∨
        e = ⟨"a", "uA", .default, defaultRelationships⟩ := by
    rintro e (he | ⟨a, ha, hop⟩)
    · exact Or.inl (mem_verificationMethods_new he)
    · refine Or.inr ?_
      rcases hbatch a ha with rfl | ⟨key, rfl⟩
      · obtain ⟨id, key, suite, relationships⟩ := e
        obtain ⟨rfl, rfl, rfl, rfl⟩ := DeltaOp.addVerificationMethod.inj hop
        rfl
      · exact absurd hop (by simp [ownRevocation, VerificationMethodEntry.addition])
  rcases hsource e he with rfl | rfl <;> rcases hsource e' he' with rfl | rfl <;>
    first | rfl | exact absurd hid (by decide)

/-- A batch that has a revocation before the key that signs it, and a forged copy of it. The revocation is
held after every order. -/
theorem batch_orderFree_of_settled_forged :
    let doc := (Document.new "u7").1
    let batch := [ownRevocation "uA", ownRevocation "uB", ownKey]
    (ownRevocation "uA").contentHash ∈ (doc.mergeBatch batch).logHashes ∧
      OrderFree ((∅ : Docs).insert (deriveDid "u7") doc) (deriveDid "u7") batch .solicitedOnly := by
  intro doc batch
  have hfree : CollisionFree (insert (ownRevocation "uB")
      (members [Document.genesis "u7", ownRevocation "uA", ownKey])) :=
    (CollisionFree.of_nodup (by decide)).insert (e := ownRevocation "uA") (by simp) rfl
  refine ⟨by decide, (batch_orderFree_of_settled "u7" _ hfree (by simp) doc .new _ _
    Std.ExtTreeMap.getElem?_insert_self _ batch (by simp [batch])).2 fun d _ _ ↦ ?_⟩
  exact settled_of_oneKey d fun e e' he he' ↦ oneKey_ownKey (by simp [batch]) he he'

/-- Two orders of one batch, on a document that holds `uB` under the id `k`. When the delta signed
with `uA` comes before the addition of `uA`, it is refused. -/
theorem batch_depends_on_order :
    let doc := ((Document.new "u7").1.mergeVerifiedDelta genuineKey).1
    let docs := (∅ : Docs).insert (deriveDid "u7") doc
    let merged := fun batch ↦ (mergeInbound docs (.deltas (deriveDid "u7") batch) .solicitedOnly).1
    [shadowSigned, shadowingKey] ~ [shadowingKey, shadowSigned] ∧
      shadowSigned.contentHash ∈ storedHashes (merged [shadowingKey, shadowSigned]) (deriveDid "u7") ∧
      shadowSigned.contentHash ∉ storedHashes (merged [shadowSigned, shadowingKey]) (deriveDid "u7") := by
  intro doc docs merged
  have hmerged : ∀ batch, merged batch = docs.insert (deriveDid "u7") (doc.mergeBatch batch) := by
    intro batch
    exact congrArg Prod.fst (mergeInbound_of_held Std.ExtTreeMap.getElem?_insert_self batch _)
  refine ⟨.swap _ _ _, ?_, ?_⟩
  · rw [hmerged, storedHashes_insert]
    decide
  · rw [hmerged, storedHashes_insert]
    decide

end Readable

end DidCrdt
