import DidCrdt.Core.Recon
import DidCrdt.Core.Resolve
import DidCrdt.Core.Stored
import DidCrdt.Theory.Coherence

/-!
# Save and reload

The DAG of a document is not stored. It is rebuilt from the log, so a reload gives the document back
when the DAG is the one of its log (`Logged`). Every operation keeps it so, whatever it is given: a
delta that is recorded goes to the end of the log and into the DAG, and a join of logs adds to both
in one order (`Ingested.logged`).
-/

set_option autoImplicit false
set_option relaxedAutoImplicit false

namespace DidCrdt

section

variable [Primitives]

/-- The document has a log, and its DAG is the one of the log. -/
structure Logged (doc : Document) : Prop where
  nonempty : doc.deltaLog ≠ []
  dag : doc.dag = .rebuild doc.deltaLog

/-- The documents reached from the creation of a key by merging any deltas, with and without
verification, any bundles, and any other documents. -/
inductive Ingested (publicKeyMultibase : String) : Document → Prop
  | new : Ingested publicKeyMultibase (Document.new publicKeyMultibase).1
  | merge {doc : Document} (d : SignedDelta) : Ingested publicKeyMultibase doc →
      Ingested publicKeyMultibase (doc.merge d).1
  | mergeVerifiedDelta {doc : Document} (d : SignedDelta) : Ingested publicKeyMultibase doc →
      Ingested publicKeyMultibase (doc.mergeVerifiedDelta d).1
  | mergeVerifiedBundle {doc : Document} (bundle : ClosureBundle) :
      Ingested publicKeyMultibase doc →
      Ingested publicKeyMultibase (doc.mergeVerifiedBundle bundle).1
  | mergeState {doc : Document} (other : Document) : Ingested publicKeyMultibase doc →
      Ingested publicKeyMultibase (doc.mergeState other).1

namespace Logged

variable {doc : Document}

theorem new (publicKeyMultibase : String) : Logged (Document.new publicKeyMultibase).1 where
  nonempty := List.cons_ne_nil _ _
  dag := rfl

/-- A recorded delta goes to the end of the log and into the DAG. -/
theorem record (h : Logged doc) (d : SignedDelta) : Logged (doc.record d) where
  nonempty := by
    rw [Document.deltaLog_record]
    exact List.append_ne_nil_of_right_ne_nil _ (List.cons_ne_nil d [])
  dag := by
    rw [Document.deltaLog_record, Document.dag_record, h.dag, DeltaDag.rebuild_concat]

theorem merge (h : Logged doc) (d : SignedDelta) : Logged (doc.merge d).1 := by
  rcases Document.merge_fst_eq doc d with ⟨_, heq⟩ | ⟨_, heq⟩
  · rw [heq]
    exact h.record d
  · rwa [heq]

/-- A run of verified steps keeps the DAG the one of the log. -/
theorem verifiedRun {source : Set SignedDelta} {doc' : Document} (h : Logged doc)
    (hrun : VerifiedRun source doc doc') : Logged doc' := by
  induction hrun with
  | refl => exact h
  | tail _ hstep ih =>
    obtain ⟨d, _, _, _, rfl⟩ := hstep
    exact ih.record d

/-- The loop over another log adds to the log and to the DAG alike. -/
theorem foldl_add (log : List SignedDelta) : ∀ m : Document.LogMerge,
    m.log ≠ [] → m.dag = .rebuild m.log →
      (log.foldl Document.LogMerge.add m).log ≠ [] ∧
        (log.foldl Document.LogMerge.add m).dag =
          .rebuild (log.foldl Document.LogMerge.add m).log := by
  induction log with
  | nil => exact fun m hne hdag ↦ ⟨hne, hdag⟩
  | cons d log ih =>
    intro m hne hdag
    rw [List.foldl_cons]
    by_cases hseen : m.seen.contains d.contentHash = true
    · have hsame : m.add d = m := by rw [Document.LogMerge.add, if_pos hseen]
      rw [hsame]
      exact ih m hne hdag
    · have hadd : m.add d = ⟨m.seen.insert d.contentHash, m.log ++ [d], m.dag.insert d⟩ := by
        rw [Document.LogMerge.add, if_neg hseen]
      rw [hadd]
      refine ih _ (List.append_ne_nil_of_right_ne_nil _ (List.cons_ne_nil d [])) ?_
      change m.dag.insert d = _
      rw [hdag, DeltaDag.rebuild_concat]

theorem mergeState (h : Logged doc) (other : Document) : Logged (doc.mergeState other).1 := by
  unfold Document.mergeState
  split_ifs with hdid
  · exact h
  · obtain ⟨hne, hdag⟩ := foldl_add other.deltaLog
      ⟨OrderedMaps.insertAll ∅ doc.logHashes, doc.deltaLog, doc.dag⟩ h.nonempty h.dag
    exact ⟨hne, hdag⟩

end Logged

theorem Ingested.logged {publicKeyMultibase : String} {doc : Document}
    (h : Ingested publicKeyMultibase doc) : Logged doc := by
  induction h with
  | new => exact .new publicKeyMultibase
  | merge d _ ih => exact ih.merge d
  | mergeVerifiedDelta d _ ih =>
    exact ih.verifiedRun (Document.mergeVerifiedDelta_run _ (Set.mem_singleton d))
  | @mergeVerifiedBundle doc bundle _ ih =>
    have hsource : ∀ d ∈ bundle.deltas, d ∈ {d | d ∈ bundle.deltas} := fun _ hd ↦ hd
    exact ih.verifiedRun (doc.mergeVerifiedBundle_run hsource)
  | mergeState other _ ih => exact ih.mergeState other

/-- Two documents agree on their fields, their logs, the sets of their DAGs, and on what they answer to
resolvers, to peers and to later deltas. -/
structure Indistinguishable [StateDigests] (doc doc' : Document) : Prop where
  fields : doc'.toCrdtState = doc.toCrdtState
  log : doc'.deltaLog = doc.deltaLog
  held : ∀ h, doc'.dag.get h = doc.dag.get h
  referenced : ∀ h, h ∈ doc'.dag.referenced ↔ h ∈ doc.dag.referenced
  frontier : doc'.frontier = doc.frontier
  contentHash : doc'.contentHash = doc.contentHash
  resolve : doc'.resolve = doc.resolve
  deltasForPeer : ∀ peerFrontier,
    doc'.dag.deltasForPeer peerFrontier = doc.dag.deltasForPeer peerFrontier
  verdict : ∀ d, (doc'.merge d).2 = (doc.merge d).2

theorem Indistinguishable.refl [StateDigests] (doc : Document) : Indistinguishable doc doc where
  fields := rfl
  log := rfl
  held _ := rfl
  referenced _ := Iff.rfl
  frontier := rfl
  contentHash := rfl
  resolve := rfl
  deltasForPeer _ := rfl
  verdict _ := rfl

attribute [local instance] Codec.ofObjects

/-- Assumes: the encoding of objects is lossless. Whatever was merged into a document, storing it and
loading it again succeeds with a document that cannot be told from it. -/
theorem saveReload_identity [ObjectCodec] [StateDigests] (hjson : ObjectCodec.Lossless)
    (publicKeyMultibase : String) (doc : Document) (h : Ingested publicKeyMultibase doc) :
    ∃ loaded, Document.fromBytes doc.toBytes = .ok loaded ∧ loaded = doc ∧
      Indistinguishable doc loaded :=
  ⟨doc, Document.fromBytes_toBytes (Codec.ofObjects_lossless hjson _) h.logged.nonempty h.logged.dag,
    rfl, .refl doc⟩

end

section Readable

attribute [local instance] Primitives.readable StateDigests.readable ObjectCodec.verbatim
  Codec.ofObjects

/-- A document that merged a service endpoint, its removal, and a rotation. -/
theorem saveReload_identity_removed :
    let add := SignedDelta.readable "did:crdt:u7" "did:crdt:u7#key-0" "u7" 1 55
      (.addServiceEndpoint "s" "t" "e") ["0.0.0"]
    let remove := SignedDelta.readable "did:crdt:u7" "did:crdt:u7#key-0" "u7" 2 55
      (.removeServiceEndpoint "s") ["1.0.55"]
    let rotate := SignedDelta.readable "did:crdt:u7" "did:crdt:u7#key-0" "u7" 3 55
      (.rotateKey 1 "k") ["0.0.0"]
    let doc := ((((Document.new "u7").1.merge add).1.merge remove).1.merge rotate).1
    doc.deltaLog.length = 4 ∧
      ∃ loaded, Document.fromBytes doc.toBytes = .ok loaded ∧ loaded = doc ∧
        Indistinguishable doc loaded := by
  intro add remove rotate doc
  exact ⟨by decide, saveReload_identity (fun _ ↦ rfl) "u7" doc
    (.merge rotate (.merge remove (.merge add .new)))⟩

end Readable

end DidCrdt
