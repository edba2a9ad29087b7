import DidCrdt.Service.Node
import DidCrdt.Theory.StoreHistory

/-!
# Durability

Every write is answered after a clone of its document was saved. Clones are saved in the order in
which the writes take their steps, so an older clone can be saved over a newer one. When no clone is
saved that lacks deltas of the snapshot that its tag points at, the saved clones can be read back, and
creations are fresh, every answered write is in the snapshot of its document, and a process that starts
over the snapshots has it (`acknowledged_durable`). The invariant is `NodeSound`: the snapshots are
those of documents that grew from keys, and every write in progress has what it merged in the
document, in its clone, or in the snapshot.
-/

set_option autoImplicit false
set_option relaxedAutoImplicit false

namespace DidCrdt

/-! ### Recovery -/

/-- Assumes: the documents with the identifier are the given one. -/
theorem getElem?_foldl_insert {did : Did} (found : Option Document) (l : List Document)
    (hl : ∀ doc ∈ l, doc.did = did → found = some doc) : ∀ docs : Docs,
    docs[did]? = found ∨ (∃ doc ∈ l, doc.did = did) →
    (l.foldl (fun docs doc ↦ docs.insert doc.did doc) docs)[did]? = found := by
  induction l with
  | nil => exact fun docs h ↦ h.resolve_right (by simp)
  | cons doc l ih =>
    intro docs h
    refine ih (fun other hother ↦ hl other (List.mem_cons_of_mem doc hother)) _ ?_
    rw [OrderedMaps.getElem?_insert]
    split_ifs with heq
    · exact Or.inl (hl doc List.mem_cons_self heq).symm
    · refine h.imp_right ?_
      rintro ⟨other, hother, hdid⟩
      rcases List.mem_cons.mp hother with rfl | hother
      · exact absurd hdid heq
      · exact ⟨other, hother, hdid⟩

section

variable [Codec] [Primitives]

/-- A process that starts over the snapshots has the document of every tag. -/
theorem getElem?_recover (store : BlobStore) (did : Did) :
    (Docs.recover store)[did]? = store.tagged did := by
  refine getElem?_foldl_insert _ _ (fun doc hdoc hdid ↦ ?_) ∅ ?_
  · obtain ⟨other, htagged⟩ := (store.mem_loadAll_iff doc).mp hdoc
    rwa [← hdid, BlobStore.did_of_tagged htagged]
  · cases htagged : store.tagged did with
    | none => exact Or.inl (by simp)
    | some doc =>
      exact Or.inr ⟨doc, (store.mem_loadAll_iff doc).mpr ⟨did, htagged⟩,
        BlobStore.did_of_tagged htagged⟩

/-- Assumes: the stored form is read back. A document that grew from a key can be stored and loaded
again. -/
theorem GrownFor.fromBytes_toBytes {did : Did} {doc : Document} (hreads : Codec.ReadsBack doc.toRepr)
    (h : GrownFor did doc) :
    Document.fromBytes doc.toBytes = .ok doc := by
  obtain ⟨publicKeyMultibase, _, run, rfl, _⟩ := h
  refine Document.fromBytes_toBytes hreads ?_ (dag_recordAll run _ rfl)
  rw [deltaLog_recordAll]
  exact List.append_ne_nil_of_left_ne_nil (List.cons_ne_nil _ _) run

section Tasks

variable {docs docs' : Docs} {store store' : BlobStore} {did : Did} {doc : Document}
  {written : List DeltaHash} {task : Task}

theorem tagged_of_blob (hreads : Codec.ReadsBack doc.toRepr) {hash : Blake3Hash}
    (htag : store.tags[did]? = some hash) (hgrown : GrownFor did doc)
    (hblob : store.blobs[hash]? = some doc.toBytes) : store.tagged did = some doc := by
  unfold BlobStore.tagged BlobStore.latestHash BlobStore.loadTag BlobStore.load
  rw [htag, Option.bind_some, hblob]
  simp only [hgrown.fromBytes_toBytes hreads, hgrown.did_eq, ↓reduceIte]

/-- The snapshot of the document holds the deltas. -/
def Holds (store : BlobStore) (did : Did) (written : List DeltaHash) : Prop :=
  ∃ doc, store.tagged did = some doc ∧ ∀ hash ∈ written, hash ∈ doc.logHashes

theorem Holds.mono (h : Holds store did written)
    (hkeeps : ∀ doc, store.tagged did = some doc → ∃ doc', store'.tagged did = some doc' ∧
      ∀ hash ∈ doc.logHashes, hash ∈ doc'.logHashes) : Holds store' did written := by
  obtain ⟨doc, htagged, hheld⟩ := h
  obtain ⟨doc', htagged', hmore⟩ := hkeeps doc htagged
  exact ⟨doc', htagged', fun hash hhash ↦ hmore hash (hheld hash hhash)⟩

/-- What a write in progress merged is in the document, in its clone, or in the snapshot. -/
def TaskSound (docs : Docs) (store : BlobStore) : Task → Prop
  | .merged did written => ∃ doc, docs[did]? = some doc ∧ ∀ hash ∈ written, hash ∈ doc.logHashes
  | .cloned did written snapshot =>
    GrownFor did snapshot ∧ ∀ hash ∈ written, hash ∈ snapshot.logHashes
  | .saved did written => Holds store did written
  | .answered did written => Holds store did written

/-- A merge that keeps the documents keeps the writes sound. -/
theorem TaskSound.keeps (h : TaskSound docs store task) (hkeeps : Keeps docs docs') :
    TaskSound docs' store task := by
  cases task with
  | merged did written =>
    obtain ⟨doc, hget, hheld⟩ := h
    obtain ⟨doc', hget', hextends⟩ := hkeeps did doc hget
    exact ⟨doc', hget', fun hash hhash ↦ hextends.hashes hash (hheld hash hhash)⟩
  | cloned did written snapshot => exact h
  | saved did written => exact h
  | answered did written => exact h

end Tasks

variable [BlobDigest]

/-! ### Snapshots -/

/-- No two of the documents with different stored forms have the same digest. -/
def DigestFree (snapshots : Set Document) : Prop :=
  ∀ a ∈ snapshots, ∀ b ∈ snapshots,
    BlobDigest.digest a.toBytes = BlobDigest.digest b.toBytes → a.toBytes = b.toBytes

/-- Every tag points at the stored form, which can be read back, of a document that grew from a key of its
identifier. -/
def StoreSound (snapshots : Set Document) (store : BlobStore) : Prop :=
  ∀ (did : Did) (hash : Blake3Hash), store.tags[did]? = some hash →
    ∃ doc ∈ snapshots, GrownFor did doc ∧ Codec.ReadsBack doc.toRepr ∧ hash = BlobDigest.digest doc.toBytes ∧
      store.blobs[hash]? = some doc.toBytes

section Snapshots

variable {snapshots : Set Document} {store : BlobStore} {did : Did} {doc : Document}

/-- Saving a document that grew from a key keeps the snapshots of the other documents. -/
theorem StoreSound.save (hdigest : DigestFree snapshots) (h : StoreSound snapshots store)
    (hdoc : doc ∈ snapshots) (hreads : Codec.ReadsBack doc.toRepr) (hgrown : GrownFor did doc) :
    StoreSound snapshots (store.save doc).1 ∧ (store.save doc).1.tagged did = some doc ∧
      ∀ other, other ≠ did → (store.save doc).1.tagged other = store.tagged other := by
  have htag : ∀ other, (store.save doc).1.tags[other]? =
      if did = other then some (BlobDigest.digest doc.toBytes) else store.tags[other]? := by
    intro other
    rw [← hgrown.did_eq]
    exact OrderedMaps.getElem?_insert _ _ _ _
  have hblob : ∀ held ∈ snapshots,
      store.blobs[BlobDigest.digest held.toBytes]? = some held.toBytes →
      (store.save doc).1.blobs[BlobDigest.digest held.toBytes]? = some held.toBytes := by
    intro held hheld hstored
    change (store.blobs.insert _ _)[_]? = _
    rw [OrderedMaps.getElem?_insert]
    split_ifs with hsame
    · rw [hdigest doc hdoc held hheld hsame]
    · exact hstored
  have hnew : (store.save doc).1.blobs[BlobDigest.digest doc.toBytes]? = some doc.toBytes :=
    Std.ExtTreeMap.getElem?_insert_self
  refine ⟨fun other hash hget ↦ ?_, ?_, fun other hother ↦ ?_⟩
  · rw [htag] at hget
    split_ifs at hget with heq
    · rw [← Option.some.inj hget, ← heq]
      exact ⟨doc, hdoc, hgrown, hreads, rfl, hnew⟩
    · obtain ⟨held, hheld, hheldGrown, hheldReads, rfl, hstored⟩ := h other hash hget
      exact ⟨held, hheld, hheldGrown, hheldReads, rfl, hblob held hheld hstored⟩
  · exact tagged_of_blob hreads (by rw [htag, if_pos rfl]) hgrown hnew
  · have hsame := htag other
    rw [if_neg (Ne.symm hother)] at hsame
    cases hget : store.tags[other]? with
    | none =>
      unfold BlobStore.tagged BlobStore.latestHash
      rw [hsame, hget]
      rfl
    | some hash =>
      obtain ⟨held, hheld, hheldGrown, hheldReads, rfl, hstored⟩ := h other hash hget
      rw [tagged_of_blob hheldReads (hsame.trans hget) hheldGrown (hblob held hheld hstored),
        tagged_of_blob hheldReads hget hheldGrown hstored]

end Snapshots

/-! ### Nodes -/

/-- The documents and the snapshots grew from keys, and the writes in progress are sound. -/
structure NodeSound (snapshots : Set Document) (node : Node) : Prop where
  docs : AllGrown node.docs
  store : StoreSound snapshots node.store
  tasks : ∀ task ∈ node.tasks, TaskSound node.docs node.store task

/-- The step is orderly: a creation is fresh, and a clone that is saved can be read back and holds the
deltas of the snapshot that its tag points at. The clone is one of the snapshots. -/
def NodeEvent.Orderly (snapshots : Set Document) (node : Node) : NodeEvent → Prop
  | .createDid publicKeyMultibase => CreatesFresh node.docs (.createDid publicKeyMultibase)
  | .advance index => ∀ did written snapshot,
    node.tasks[index]? = some (.cloned did written snapshot) →
      snapshot ∈ snapshots ∧ Codec.ReadsBack snapshot.toRepr ∧
        ∀ tagged, node.store.tagged did = some tagged →
          ∀ hash ∈ tagged.logHashes, hash ∈ snapshot.logHashes
  | _ => True

section Nodes

variable {snapshots : Set Document} {node : Node} {docs : Docs} {task : Task}

/-- Assumes: the merge keeps the documents and the new write is sound. -/
theorem NodeSound.spawn (h : NodeSound snapshots node) (hkeeps : Keeps node.docs docs)
    (hgrown : AllGrown docs) {spawned : List Task}
    (hspawned : ∀ task ∈ spawned, TaskSound docs node.store task) :
    NodeSound snapshots { node with docs := docs, tasks := node.tasks ++ spawned } where
  docs := hgrown
  store := h.store
  tasks task htask := by
    rcases List.mem_append.mp htask with htask | htask
    · exact (h.tasks task htask).keeps hkeeps
    · exact hspawned task htask

/-- Replacing a write by a sound one. -/
theorem NodeSound.set (h : NodeSound snapshots node) (index : ℕ)
    (htask : TaskSound node.docs node.store task) :
    NodeSound snapshots { node with tasks := node.tasks.set index task } where
  docs := h.docs
  store := h.store
  tasks other hother := by
    rcases List.mem_or_eq_of_mem_set hother with hother | rfl
    · exact h.tasks other hother
    · exact htask

theorem NodeSound.start : NodeSound snapshots (Node.start) where
  docs _ _ hget := absurd hget (by simp [Node.start])
  store _ _ hget := absurd hget (by simp [Node.start, BlobStore.empty])
  tasks _ htask := absurd htask List.not_mem_nil

/-- The next step of a write. Saving is sound when the clone holds what the snapshot of its tag
holds. -/
theorem NodeSound.advance (hdigest : DigestFree snapshots) (h : NodeSound snapshots node) {index : ℕ}
    (hget : node.tasks[index]? = some task)
    (horderly : ∀ did written snapshot, task = .cloned did written snapshot →
      snapshot ∈ snapshots ∧ Codec.ReadsBack snapshot.toRepr ∧
        ∀ tagged, node.store.tagged did = some tagged →
          ∀ hash ∈ tagged.logHashes, hash ∈ snapshot.logHashes) :
    NodeSound snapshots (node.advanceTask index task) := by
  have hsound := h.tasks task (List.mem_of_getElem? hget)
  cases task with
  | merged did written =>
    obtain ⟨doc, hdoc, hheld⟩ := hsound
    simp only [Node.advanceTask, hdoc]
    exact h.set index ⟨h.docs did doc hdoc, hheld⟩
  | saved did written => exact h.set index hsound
  | answered did written => exact h
  | cloned did written snapshot =>
    obtain ⟨hin, hreads, hnewer⟩ := horderly did written snapshot rfl
    obtain ⟨hgrown, hheld⟩ := hsound
    obtain ⟨hstore, htagged, hothers⟩ := h.store.save hdigest hin hreads hgrown
    -- what the snapshots held, the new snapshots hold
    have hkept : ∀ other list, Holds node.store other list →
        Holds (node.store.save snapshot).1 other list := by
      intro other list hholds
      refine hholds.mono fun doc hdoc ↦ ?_
      by_cases hother : other = did
      · rw [hother] at hdoc ⊢
        exact ⟨snapshot, htagged, hnewer doc hdoc⟩
      · exact ⟨doc, (hothers other hother).trans hdoc, fun _ ↦ id⟩
    have hsaved : NodeSound snapshots { node with store := (node.store.save snapshot).1 } := by
      refine ⟨h.docs, hstore, fun other hother ↦ ?_⟩
      have hother := h.tasks other hother
      cases other with
      | merged did written => exact hother
      | cloned did written snapshot => exact hother
      | saved did written => exact hkept did written hother
      | answered did written => exact hkept did written hother
    exact hsaved.set index ⟨snapshot, htagged, hheld⟩

/-- A process that starts over sound snapshots is sound. -/
theorem NodeSound.restart (h : NodeSound snapshots node) : NodeSound snapshots node.restart where
  docs did doc hget := by
    have htagged : node.store.tagged did = some doc := (getElem?_recover _ _).symm.trans hget
    obtain ⟨hash, htag, _⟩ := Option.bind_eq_some_iff.mp htagged
    obtain ⟨held, _, hgrown, hreads, rfl, hblob⟩ := h.store did hash htag
    rw [tagged_of_blob hreads htag hgrown hblob] at htagged
    exact Option.some.inj htagged ▸ hgrown
  store := h.store
  tasks task htask := by
    obtain ⟨htask, hanswered⟩ := List.mem_filter.mp htask
    have hsound := h.tasks task htask
    cases task with
    | answered did written => exact hsound
    | _ => exact absurd hanswered (by simp [Task.answer])

/-- The merge of a submission. An accepted delta is held. -/
theorem NodeSound.submitDelta (h : NodeSound snapshots node) (didStr : String) (delta : SignedDelta) :
    NodeSound snapshots (node.submitDelta didStr delta) := by
  obtain ⟨hkeeps, hgrown⟩ := submitDelta_keeps h.docs didStr delta
  have hcases := submitDelta_fst node.docs didStr delta
  unfold Node.submitDelta
  rcases hresult : DidCrdt.submitDelta node.docs didStr delta with ⟨docs, response⟩
  rw [hresult] at hkeeps hgrown hcases
  simp only at hkeeps hgrown hcases ⊢
  split_ifs with haccepted
  · refine h.spawn hkeeps hgrown fun task htask ↦ ?_
    rw [List.mem_singleton.mp htask]
    rcases hcases with ⟨_, hrejected⟩ | ⟨doc, hget, _, _, hdocs, hok⟩
    · exact absurd haccepted hrejected
    refine ⟨(doc.merge delta).1, ?_, fun hash hhash ↦ ?_⟩
    · rw [hdocs]
      exact Std.ExtTreeMap.getElem?_insert_self
    · rw [List.mem_singleton.mp hhash]
      rcases Document.merge_fst_eq doc delta with ⟨_, heq⟩ | ⟨hrefuses, heq⟩
      · rw [heq, Document.logHashes, Document.deltaLog_record, List.map_append]
        exact List.mem_append_right _ (List.mem_singleton_self _)
      · rw [heq]
        exact ((h.docs delta.did doc hget).contains_iff _).mp
          ((Document.merge_of_not_accepts hrefuses).2 (hok.mp haccepted))
  · simpa using h.spawn hkeeps hgrown (fun _ htask ↦ absurd htask List.not_mem_nil)

/-- The merge of a delivered payload. What it wrote is held. -/
theorem NodeSound.mergeInbound (h : NodeSound snapshots node) (msg : SyncMessage)
    (policy : BootstrapPolicy) : NodeSound snapshots (node.mergeInbound msg policy) := by
  obtain ⟨hkeeps, hgrown⟩ := mergeInbound_keeps h.docs msg policy
  have hidle : NodeSound snapshots
      { node with docs := (DidCrdt.mergeInbound node.docs msg policy).1 } := by
    simpa using h.spawn hkeeps hgrown (fun _ htask ↦ absurd htask List.not_mem_nil)
  have hspawned : ∀ did deltas, (∃ doc, (DidCrdt.mergeInbound node.docs msg policy).1[did]? = some doc) →
      NodeSound snapshots
        { node with
          docs := (DidCrdt.mergeInbound node.docs msg policy).1
          tasks := node.tasks ++
            [.merged did (Node.heldOf (DidCrdt.mergeInbound node.docs msg policy).1 did deltas)] } := by
    rintro did deltas ⟨doc, hdoc⟩
    refine h.spawn hkeeps hgrown fun task htask ↦ ?_
    rw [List.mem_singleton.mp htask]
    refine ⟨doc, hdoc, fun hash hhash ↦ ?_⟩
    unfold Node.heldOf at hhash
    rw [hdoc] at hhash
    exact ((hgrown did doc hdoc).contains_iff hash).mp (List.mem_filter.mp hhash).2
  rcases mergeInbound_cases node.docs msg policy with ⟨_, hmerged, hstarted⟩ | ⟨did, deltas, rfl, hmerged⟩
  · unfold Node.mergeInbound
    rcases hresult : DidCrdt.mergeInbound node.docs msg policy with ⟨docs, outcome⟩
    rw [hresult] at hidle hmerged hstarted
    cases outcome with
    | merged => exact absurd rfl hmerged
    | bootstrapped did => exact absurd rfl (hstarted did)
    | _ => cases msg <;> exact hidle
  · rcases hmerged with ⟨doc, _, hmerged⟩ | ⟨_, _, publicKeyMultibase, _, _, hmerged⟩
    · have hnode := hspawned did deltas ⟨_, by
        rw [hmerged]
        exact Std.ExtTreeMap.getElem?_insert_self⟩
      rw [hmerged] at hnode
      simpa only [Node.mergeInbound, hmerged] using hnode
    · have hnode := hspawned did deltas ⟨_, by
        rw [hmerged]
        exact Std.ExtTreeMap.getElem?_insert_self⟩
      rw [hmerged] at hnode
      simpa only [Node.mergeInbound, hmerged] using hnode

variable [StateDigests]

/-- An orderly step keeps a node sound. -/
theorem NodeSound.apply (hdigest : DigestFree snapshots) (h : NodeSound snapshots node)
    {event : NodeEvent} (horderly : event.Orderly snapshots node) : NodeSound snapshots (event.apply node) := by
  cases event with
  | createDid publicKeyMultibase =>
    refine h.spawn ((StoreEvent.keeps_iff h.docs (.createDid publicKeyMultibase)).mpr horderly)
      (StoreEvent.allGrown h.docs (.createDid publicKeyMultibase)) fun task htask ↦ ?_
    rw [List.mem_singleton.mp htask]
    refine ⟨(Document.new publicKeyMultibase).1, Std.ExtTreeMap.getElem?_insert_self, ?_⟩
    intro hash hhash
    exact hhash
  | submitDelta didStr delta => exact h.submitDelta didStr delta
  | mergeInbound msg policy => exact h.mergeInbound msg policy
  | advance index =>
    cases hget : node.tasks[index]? with
    | none =>
      simp only [NodeEvent.apply, hget]
      exact h
    | some task =>
      simp only [NodeEvent.apply, hget]
      refine h.advance hdigest hget fun did written snapshot htask ↦ ?_
      exact horderly did written snapshot (hget.trans (congrArg some htask))
  | restart => exact h.restart

/-- The nodes reached by orderly steps. -/
inductive OrderlyRun (snapshots : Set Document) : Node → Prop
  | start : OrderlyRun snapshots Node.start
  | step {node : Node} (event : NodeEvent) : OrderlyRun snapshots node →
      event.Orderly snapshots node → OrderlyRun snapshots (event.apply node)

theorem OrderlyRun.sound (hdigest : DigestFree snapshots) (h : OrderlyRun snapshots node) :
    NodeSound snapshots node := by
  induction h with
  | start => exact .start
  | step _ _ horderly ih => exact ih.apply hdigest horderly

end Nodes

/-- Assumes: no two snapshots collide. In a run whose creations are fresh, and in which no clone is saved
that cannot be read back or lacks a delta of the snapshot its tag points at, every delta that an answered
write merged is in the snapshot its tag points at, which is loaded after a restart. -/
theorem acknowledged_durable [StateDigests] (snapshots : Set Document)
    (hdigest : DigestFree snapshots) (node : Node) (h : OrderlyRun snapshots node) (did : Did)
    (written : List DeltaHash) (hanswered : (did, written) ∈ node.answers) :
    ∃ doc, node.store.tagged did = some doc ∧ (∀ hash ∈ written, hash ∈ doc.logHashes) ∧
      doc ∈ node.store.loadAll ∧ (Docs.recover node.store)[did]? = some doc := by
  obtain ⟨task, htask, hanswer⟩ := List.mem_filterMap.mp hanswered
  have hsound := (h.sound hdigest).tasks task htask
  cases task with
  | answered other list =>
    obtain ⟨rfl, rfl⟩ := Prod.mk.inj (Option.some.inj hanswer)
    obtain ⟨doc, htagged, hheld⟩ := hsound
    refine ⟨doc, htagged, hheld, (BlobStore.mem_loadAll_iff _ _).mpr ⟨_, htagged⟩, ?_⟩
    rw [getElem?_recover, htagged]
  | _ => exact absurd hanswer (by simp [Task.answer])

end

section Readable

attribute [local instance] Primitives.readable StateDigests.readable Codec.verbatim
  BlobDigest.readable

section Steps

variable {snapshots : Set Document} {docs : Docs} {store : BlobStore} {tasks : List Task} {did : Did}
  {written : List DeltaHash} {doc : Document}

/-- A write that merged its document clones it. -/
theorem OrderlyRun.clone (h : OrderlyRun snapshots ⟨docs, store, tasks⟩) (index : ℕ)
    (hget : tasks[index]? = some (.merged did written)) (hdoc : docs[did]? = some doc) :
    OrderlyRun snapshots ⟨docs, store, tasks.set index (.cloned did written doc)⟩ := by
  have hstep := h.step (.advance index) fun _ _ _ hcloned ↦
    absurd (Option.some.inj (hget.symm.trans hcloned)) (by simp)
  simpa only [NodeEvent.apply, hget, Node.advanceTask, hdoc] using hstep

/-- A write that cloned its document saves the clone, which holds what the snapshot of its tag holds. -/
theorem OrderlyRun.save (h : OrderlyRun snapshots ⟨docs, store, tasks⟩) (index : ℕ)
    (hget : tasks[index]? = some (.cloned did written doc)) (hin : doc ∈ snapshots)
    (hnewer : ∀ tagged, store.tagged did = some tagged →
      ∀ hash ∈ tagged.logHashes, hash ∈ doc.logHashes) :
    OrderlyRun snapshots ⟨docs, (store.save doc).1, tasks.set index (.saved did written)⟩ := by
  have hstep := h.step (.advance index) fun other list snapshot hcloned ↦ by
    obtain ⟨rfl, rfl, rfl⟩ := Task.cloned.inj (Option.some.inj (hget.symm.trans hcloned))
    exact ⟨hin, rfl, hnewer⟩
  simpa only [NodeEvent.apply, hget, Node.advanceTask] using hstep

/-- A write that saved its clone is answered. -/
theorem OrderlyRun.answer (h : OrderlyRun snapshots ⟨docs, store, tasks⟩) (index : ℕ)
    (hget : tasks[index]? = some (.saved did written)) :
    OrderlyRun snapshots ⟨docs, store, tasks.set index (.answered did written)⟩ := by
  have hstep := h.step (.advance index) fun _ _ _ hcloned ↦
    absurd (Option.some.inj (hget.symm.trans hcloned)) (by simp)
  simpa only [NodeEvent.apply, hget, Node.advanceTask] using hstep

/-- A submission that a stored document accepts is merged. -/
theorem OrderlyRun.submit (h : OrderlyRun snapshots ⟨docs, store, tasks⟩) (delta : SignedDelta)
    (hget : docs[delta.did]? = some doc) (hmissing : doc.missingParents delta = [])
    (haccepts : Accepts doc delta) (hsig : verifySignature delta doc = .ok ()) :
    OrderlyRun snapshots ⟨docs.insert delta.did (doc.record delta), store,
      tasks ++ [.merged delta.did [delta.contentHash]]⟩ := by
  have hsize : ¬ maxDeltaSize < Primitives.serialisedSize delta := (by decide : ¬ maxDeltaSize < 512)
  have hstep := h.step (.submitDelta delta.did.toString delta) trivial
  simpa [NodeEvent.apply, Node.submitDelta, submitDelta, hsize, hget, hmissing, hsig,
    Document.merge_of_accepts haccepts] using hstep

end Steps

/-- A revocation by the creation key of `u7`, on top of the creation. -/
def writeOf (credentialId : String) (wall : U64) : SignedDelta :=
  .readable "did:crdt:u7" "did:crdt:u7#key-0" "u7" wall 55 (.revokeCredential credentialId) ["0.0.0"]

/-- The document of the key `u7` after no write, the first write, and both. -/
def created : Document := (Document.new "u7").1

def firstWritten : Document := created.record (writeOf "c" 1)

def bothWritten : Document := firstWritten.record (writeOf "d" 2)

theorem digestFree_written : DigestFree ({created, firstWritten, bothWritten} : Set Document) := by
  rintro a (rfl | rfl | rfl) b (rfl | rfl | rfl) hsame <;> first | rfl | exact absurd hsame (by decide)

/-- What a store holds for the document, read off the hashes of its snapshot. -/
theorem mem_of_tagged {saved : BlobStore} {doc : Document} {hashes : List DeltaHash}
    (hsaved : (saved.tagged (deriveDid "u7")).map Document.logHashes = some hashes)
    (hsub : ∀ hash ∈ hashes, hash ∈ doc.logHashes) : ∀ tagged,
    saved.tagged (deriveDid "u7") = some tagged → ∀ hash ∈ tagged.logHashes, hash ∈ doc.logHashes := by
  intro tagged hfound
  rw [hfound] at hsaved
  rwa [Option.some.inj hsaved]

/-- The node after two writers interleaved: the second merged after the first had cloned and before it
had saved, and was answered before it. -/
def interleaved : Node where
  docs := (((∅ : Docs).insert (deriveDid "u7") created).insert (deriveDid "u7") firstWritten).insert
    (deriveDid "u7") bothWritten
  store := (((BlobStore.empty.save created).1.save firstWritten).1.save bothWritten).1
  tasks := [.answered (deriveDid "u7") [(Document.genesis "u7").contentHash],
    .answered (deriveDid "u7") [(writeOf "c" 1).contentHash],
    .answered (deriveDid "u7") [(writeOf "d" 2).contentHash]]

theorem orderlyRun_interleaved : OrderlyRun {created, firstWritten, bothWritten} interleaved := by
  have hcreate : OrderlyRun {created, firstWritten, bothWritten}
      ⟨(∅ : Docs).insert (deriveDid "u7") created, .empty,
        [.merged (deriveDid "u7") [(Document.genesis "u7").contentHash]]⟩ :=
    .step (.createDid "u7") .start fun held hget ↦ absurd hget (by simp [Node.start])
  have hcreated := ((hcreate.clone 0 rfl Std.ExtTreeMap.getElem?_insert_self).save 0 rfl (Or.inl rfl)
    (by simp [BlobStore.tagged, BlobStore.latestHash, BlobStore.empty])).answer 0 rfl
  have hcloned := (hcreated.submit (writeOf "c" 1) Std.ExtTreeMap.getElem?_insert_self (by decide)
    ⟨by decide, by decide, by decide, by decide, by decide⟩ (by decide)).clone 1 rfl
    Std.ExtTreeMap.getElem?_insert_self
  have hmerged := hcloned.submit (writeOf "d" 2) Std.ExtTreeMap.getElem?_insert_self (by decide)
    ⟨by decide, by decide, by decide, by decide, by decide⟩ (by decide)
  have hsaved := hmerged.save 1 rfl (Or.inr (Or.inl rfl))
    (mem_of_tagged (by decide : _ = some created.logHashes) (by decide))
  have hlast := (hsaved.clone 2 rfl Std.ExtTreeMap.getElem?_insert_self).save 2 rfl
    (Or.inr (Or.inr rfl)) (mem_of_tagged (by decide : _ = some firstWritten.logHashes) (by decide))
  exact (hlast.answer 2 rfl).answer 1 rfl

/-- The snapshot has what both writers were answered for. -/
theorem acknowledged_durable_interleaved :
    ∃ doc, interleaved.store.tagged (deriveDid "u7") = some doc ∧
      (writeOf "c" 1).contentHash ∈ doc.logHashes ∧ (writeOf "d" 2).contentHash ∈ doc.logHashes := by
  obtain ⟨doc, hdoc, hfirst, _⟩ := acknowledged_durable _ digestFree_written _ orderlyRun_interleaved
    (deriveDid "u7") [(writeOf "c" 1).contentHash] (by simp [interleaved, Node.answers, Task.answer])
  obtain ⟨doc', hdoc', hsecond, _⟩ := acknowledged_durable _ digestFree_written _
    orderlyRun_interleaved (deriveDid "u7") [(writeOf "d" 2).contentHash]
    (by simp [interleaved, Node.answers, Task.answer])
  obtain rfl := Option.some.inj (hdoc.symm.trans hdoc')
  exact ⟨doc, hdoc, hfirst _ (List.mem_singleton_self _), hsecond _ (List.mem_singleton_self _)⟩

/-- Two revocations are submitted to a document of the key `u7`. The clone of the first is saved after
the second was answered, and the snapshot lacks the second. -/
theorem acknowledged_lost :
    let earlier := SignedDelta.readable "did:crdt:u7" "did:crdt:u7#key-0" "u7" 1 55
      (.revokeCredential "c") ["0.0.0"]
    let later := SignedDelta.readable "did:crdt:u7" "did:crdt:u7#key-0" "u7" 2 55
      (.revokeCredential "d") ["0.0.0"]
    let node := [.createDid "u7", .advance 0, .advance 0, .advance 0,
      .submitDelta "did:crdt:u7" earlier, .advance 1, .submitDelta "did:crdt:u7" later,
      .advance 2, .advance 2, .advance 2, .advance 1].foldl NodeEvent.apply Node.start
    (deriveDid "u7", [later.contentHash]) ∈ node.answers ∧
      (node.store.tagged (deriveDid "u7")).map Document.logHashes =
        some [(Document.genesis "u7").contentHash, earlier.contentHash] ∧
      later.contentHash ∉ [(Document.genesis "u7").contentHash, earlier.contentHash] := by
  decide

end Readable

end DidCrdt
