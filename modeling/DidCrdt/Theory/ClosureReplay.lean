import DidCrdt.Theory.Convergence
import DidCrdt.Theory.Reconcile
import DidCrdt.Theory.Replay

/-!
# Closure bundles replay to the served document

`closureBundle` and `exportBundle` carry every held delta once (`collectHeads_perm`). Each of them was
verified under a key of the document when it was admitted (`Attested`). When no two held additions share
an id, that key is the one that a replay looks up, in whatever order the deltas come
(`Attested.verifySignature_eq_ok`), so that the bundle replays on a fresh document.
-/

set_option autoImplicit false
set_option relaxedAutoImplicit false

namespace DidCrdt

open scoped List
open Reconciliation (Acyclic)
open TopologicalOrder (ParentsFirst)

section

variable [Primitives]

/-! ### The bundle of a history -/

section History

variable {root : SignedDelta} {log : List SignedDelta}

theorem parentsHeld_rebuild (hlog : History root log) : DeltaDag.ParentsHeld (.rebuild log) := by
  intro h d hget p hp
  obtain ⟨hd, _⟩ := (get_of_history hlog h d).mp hget
  rw [DeltaDag.contains_rebuild]
  exact hlog.parentClosed d hd p hp

/-- Assumes: the heads are those of the history. The deltas below them are the history. -/
theorem collectHeads_perm (hlog : History root log) (heads : List DeltaHash)
    (hheads : ∀ h, h ∈ heads ↔ h ∈ (DeltaDag.rebuild log).frontierSet) :
    ∃ out, (DeltaDag.rebuild log).collectHeads [] heads [] = .ok out ∧ out ~ log := by
  have hheld : ∀ head ∈ heads, ∀ h ∈ (DeltaDag.rebuild log).visits (fun h ↦ [].contains h) [head],
      (DeltaDag.rebuild log).contains h = true := by
    intro head hhead h hh
    have hin := ((mem_frontier_of_history hlog head).mp ((hheads head).mp hhead)).1
    refine DeltaDag.contains_of_mem_visits (parentsHeld_rebuild hlog) ?_ hh
    rw [DeltaDag.contains_rebuild]
    exact List.mem_map.mp hin
  obtain ⟨out, hok, hsource, _, hbelow⟩ :=
    (DeltaDag.rebuild log).collectHeads_spec [] heads hheld []
  have hnodup : (out.map SignedDelta.contentHash).Nodup :=
    DeltaDag.nodup_collectHeads _ [] heads [] out List.nodup_nil hok
  have hsub : ∀ d ∈ out, d ∈ log := by
    intro d hd
    obtain ⟨_, _, h, _, hget⟩ := (hsource d hd).resolve_left List.not_mem_nil
    exact ((get_of_history hlog h d).mp hget).1
  refine ⟨out, hok, (List.perm_ext_iff_of_nodup hnodup.of_map hlog.nodup.of_map).mpr fun d ↦
    ⟨hsub d, fun hd ↦ ?_⟩⟩
  obtain ⟨head, hhead, hpath⟩ := exists_head_of_history hlog (List.mem_map_of_mem hd)
  have hvisit : d.contentHash ∈ (DeltaDag.rebuild log).visits (fun h ↦ [].contains h) [head] :=
    (DeltaDag.mem_visits_iff _ _ _ _).mpr (reaches_of_path hlog hpath (by simp))
  have hin := hbelow head ((hheads head).mpr hhead) _ hvisit d
    ((get_of_history hlog _ d).mpr ⟨hd, rfl⟩)
  obtain ⟨e, he, hkey⟩ := List.mem_map.mp hin
  rwa [List.inj_on_of_nodup_map hlog.nodup hd (hsub e he) hkey.symm]

end History

omit [Primitives] in
/-- The last of sorted hashes is the greatest. -/
theorem getLast?_insertionSort_eq_some {heads : List DeltaHash} {target : DeltaHash}
    (htarget : target ∈ heads) (hmax : ∀ head ∈ heads, head ≤ target) :
    (heads.insertionSort (· ≤ ·)).getLast? = some target := by
  have hsorted := heads.pairwise_insertionSort (· ≤ ·)
  rcases List.eq_nil_or_concat (heads.insertionSort (· ≤ ·)) with hnil | ⟨rest, last, hlast⟩
  · have hmem := (List.mem_insertionSort (· ≤ ·)).mpr htarget
    rw [hnil] at hmem
    exact absurd hmem List.not_mem_nil
  · rw [List.concat_eq_append] at hlast
    rw [hlast, List.getLast?_concat]
    have hmem : ∀ head, head ∈ rest ++ [last] ↔ head ∈ heads := by
      intro head
      rw [← hlast, List.mem_insertionSort]
    refine congrArg some (le_antisymm (hmax last ((hmem last).mp (by simp))) ?_)
    rcases List.mem_append.mp ((hmem target).mpr htarget) with hin | hin
    · rw [hlast, List.pairwise_append] at hsorted
      exact hsorted.2.2 target hin last (List.mem_singleton_self last)
    · exact (List.mem_singleton.mp hin).le

/-- Both bundles of a document name its greatest head and carry its log. -/
theorem closureBundle_spec {deltas : Set SignedDelta} {root : SignedDelta} {doc : Document}
    (h : Coherent deltas root doc) :
    ∃ target closure exported, doc.closureBundle = .ok ⟨target, closure⟩ ∧
      doc.exportBundle = .ok ⟨target, exported⟩ ∧ closure ~ doc.deltaLog ∧
      exported ~ doc.deltaLog ∧ target ∈ doc.frontier ∧ ∀ head ∈ doc.frontier, head ≤ target := by
  obtain ⟨head, hhead, _⟩ :=
    exists_head_of_history h.history (List.mem_map_of_mem h.history.root_mem)
  rw [← h.dag, ← DeltaDag.mem_frontier] at hhead
  obtain ⟨target, hmax⟩ : ∃ target, doc.dag.frontier.max? = some target := by
    rw [← Option.ne_none_iff_exists', ne_eq, List.max?_eq_none_iff]
    exact List.ne_nil_of_mem hhead
  obtain ⟨htarget, hgreatest⟩ := List.max?_eq_some_iff.mp hmax
  obtain ⟨exported, hexported, hexportedPerm⟩ := collectHeads_perm h.history _ fun a ↦
    DeltaDag.mem_frontier _ a
  obtain ⟨closure, hclosure, hclosurePerm⟩ := collectHeads_perm h.history
    ((DeltaDag.rebuild doc.deltaLog).frontier.insertionSort (· ≤ ·)) fun a ↦ by
      rw [List.mem_insertionSort, DeltaDag.mem_frontier]
  rw [← h.dag] at hexported hclosure
  refine ⟨target, closure, exported, ?_, ?_, hclosurePerm, hexportedPerm, htarget, hgreatest⟩
  · unfold Document.closureBundle
    simp only [getLast?_insertionSort_eq_some htarget hgreatest, hclosure]
    rfl
  · unfold Document.exportBundle
    simp only [hmax, hexported]
    rfl

/-! ### Deltas signed under keys of the document -/

/-- No two additions of the log have the same id. -/
def DistinctMethodIds (log : List SignedDelta) : Prop :=
  ∀ d ∈ log, ∀ e ∈ log, ∀ id, d.AddsMethod id → e.AddsMethod id → d.contentHash = e.contentHash

/-- Every delta of the log that has parents is signed under the key of a method of the document with
the id of its signer. -/
def Attested (doc : Document) : Prop :=
  ∀ d ∈ doc.deltaLog, d.parents ≠ [] → ∃ entry ∈ doc.verificationMethods,
    entry.id = d.signer ∧ SignedUnder d entry.publicKeyMultibase

section Attested

variable {deltas : Set SignedDelta} {root : SignedDelta} {doc working : Document} {d : SignedDelta}

/-- Recording a delta that verifies. -/
theorem Attested.record (hattested : Attested doc) (h : Coherent deltas root doc)
    (hsig : verifySignature d doc = .ok ()) : Attested (doc.record d) := by
  have hkept : ∀ entry ∈ doc.verificationMethods, entry ∈ (doc.record d).verificationMethods := by
    intro entry hentry
    exact (mem_verificationMethods_apply _ _ _ _ entry).mpr (Or.inl hentry)
  intro e he hgrounded
  rcases List.mem_append.mp he with he | he
  · obtain ⟨entry, hentry, hid, hsigned⟩ := hattested e he hgrounded
    exact ⟨entry, hkept entry hentry, hid, hsigned⟩
  · rw [List.mem_singleton.mp he]
    obtain ⟨entry, hfound, hsigned⟩ := (verifySignature_eq_ok_iff h.exists_method).mp hsig
    obtain ⟨hentry, hid, _⟩ := (VerificationMethods.findId_eq_some_iff _ _ _).mp hfound
    exact ⟨entry, hkept entry hentry, hid, hsigned⟩

theorem IngestedWhile.attested {condition : Document → SignedDelta → Prop}
    {publicKeyMultibase : String} (hfree : CollisionFree deltas)
    (hgenesis : Document.genesis publicKeyMultibase ∈ deltas)
    (h : IngestedWhile condition deltas publicKeyMultibase doc) : Attested doc := by
  refine (IngestedWhile.keeps (P := fun doc ↦
    Coherent deltas (Document.genesis publicKeyMultibase) doc ∧ Attested doc)
    ⟨.new publicKeyMultibase hgenesis, fun d hd hgrounded ↦ ?_⟩
    (fun doc d hdoc hd _ haccepts hsig ↦ ?_) h).2
  · rw [List.mem_singleton.mp hd] at hgrounded
    exact absurd rfl hgrounded
  · exact ⟨hdoc.1.verifiedStep hfree ⟨d, hd, haccepts, hsig, rfl⟩, hdoc.2.record hdoc.1 hsig⟩

/-- Assumes: no two additions of the log have the same id. Methods of the document with the same id are
the same. -/
theorem DistinctMethodIds.eq_of_id_eq (hids : DistinctMethodIds doc.deltaLog)
    (h : Coherent deltas root doc) {entry entry' : VerificationMethodEntry}
    (hentry : entry ∈ doc.verificationMethods) (hentry' : entry' ∈ doc.verificationMethods)
    (hid : entry.id = entry'.id) : entry = entry' := by
  obtain ⟨a, ha, hop⟩ := (h.mem_verificationMethods_iff entry).mp hentry
  obtain ⟨b, hb, hop'⟩ := (h.mem_verificationMethods_iff entry').mp hentry'
  have hkey := hids a ha b hb entry.id ⟨_, _, _, hop⟩ ⟨_, _, _, by rw [hop', VerificationMethodEntry.addition, hid]⟩
  obtain rfl : a = b := List.inj_on_of_nodup_map h.history.nodup ha hb hkey
  exact VerificationMethodEntry.addition_injective (hop.symm.trans hop')

/-- Assumes: no two additions of the log have the same id. A held delta verifies again at any document
of held deltas that holds its parents. -/
theorem Attested.verifySignature_eq_ok (hattested : Attested doc) (h : Coherent deltas root doc)
    (hfree : CollisionFree deltas) (hids : DistinctMethodIds doc.deltaLog)
    (hworking : Coherent deltas root working) (hsub : ∀ e ∈ working.deltaLog, e ∈ doc.deltaLog)
    (hd : d ∈ doc.deltaLog) (hgrounded : d.parents ≠ [])
    (hheld : ∀ p ∈ d.parents, p ∈ working.logHashes) : verifySignature d working = .ok () := by
  have hkept : ∀ entry ∈ working.verificationMethods, entry ∈ doc.verificationMethods := by
    intro entry hentry
    obtain ⟨a, ha, hop⟩ := (hworking.mem_verificationMethods_iff entry).mp hentry
    exact (h.mem_verificationMethods_iff entry).mpr ⟨a, hsub a ha, hop⟩
  obtain ⟨entry, hentry, hid, hsigned⟩ := hattested d hd hgrounded
  -- the past of the delta, which is held, adds its signer
  obtain ⟨found, hfind⟩ := hworking.exists_found hfree (h.admitted d hd hgrounded).authorised hheld
  obtain ⟨hfound, hid', _⟩ := (VerificationMethods.findId_eq_some_iff _ _ _).mp hfind
  obtain rfl := hids.eq_of_id_eq h (hkept found hfound) hentry (hid'.trans hid.symm)
  exact (verifySignature_eq_ok_iff hworking.exists_method).mpr ⟨found, hfind, hsigned⟩

end Attested

/-! ### The replay on a fresh document -/

section FreshReplay

variable {deltas : Set SignedDelta} {root : SignedDelta} {doc working : Document} {d : SignedDelta}

/-- A history has no cycle of parents: they come before their children. -/
theorem History.acyclic {log : List SignedDelta} (hlog : History root log) :
    Acyclic (NamesParent (members log)) := by
  refine .of_rank (fun h ↦ (log.map SignedDelta.contentHash).idxOf h) ?_
  rintro _ p ⟨d, hd, rfl, hp⟩
  obtain ⟨before, after, hsplit⟩ := List.append_of_mem hd
  have hearlier := hlog.parents_earlier hsplit hp
  have hnodup := hlog.nodup
  rw [hsplit, List.map_append, List.map_cons] at hnodup
  have hlater : d.contentHash ∉ before.map SignedDelta.contentHash := fun hmem ↦
    (List.nodup_append.mp hnodup).2.2 _ hmem _ List.mem_cons_self rfl
  rw [hsplit, List.map_append, List.map_cons, List.idxOf_append_of_mem hearlier,
    List.idxOf_append_of_notMem hlater, List.idxOf_cons_self]
  exact Nat.lt_add_right 0 (List.idxOf_lt_length_of_mem hearlier)

theorem DistinctTimestamps.mono {log more : List SignedDelta} (h : DistinctTimestamps log)
    (hsub : ∀ e ∈ more, e ∈ log) : DistinctTimestamps more :=
  fun d hd e he ↦ h d (hsub d hd) e (hsub e he)

/-- Assumes: the timestamps of the log are distinct. Verified ingestion keeps the live endpoints
exact. -/
theorem IngestedWhile.liveExact {condition : Document → SignedDelta → Prop}
    {publicKeyMultibase : String} (hfree : CollisionFree deltas)
    (hgenesis : Document.genesis publicKeyMultibase ∈ deltas)
    (h : IngestedWhile condition deltas publicKeyMultibase doc)
    (hdistinct : DistinctTimestamps doc.deltaLog) : LiveExact deltas doc := by
  refine (IngestedWhile.keeps (P := fun doc ↦
    Coherent deltas (Document.genesis publicKeyMultibase) doc ∧
      (DistinctTimestamps doc.deltaLog → LiveExact deltas doc))
    ⟨.new publicKeyMultibase hgenesis, fun _ ↦ .new _⟩ (fun doc d hdoc hd _ haccepts hsig ↦ ?_)
    h).2 hdistinct
  obtain ⟨hcoherent, hlive⟩ := hdoc
  obtain ⟨hnew, _, hheld⟩ := (hcoherent.accepts_iff hfree).mp haccepts
  refine ⟨hcoherent.verifiedStep hfree ⟨d, hd, haccepts, hsig, rfl⟩, fun hrecorded ↦ ?_⟩
  exact (hlive hrecorded.left).record hcoherent hfree hnew hheld hrecorded

/-- A document that a replay of the log of another passes through. -/
structure ReplayOf (deltas : Set SignedDelta) (root : SignedDelta) (doc working : Document) : Prop where
  coherent : Coherent deltas root working
  sub : ∀ e ∈ working.deltaLog, e ∈ doc.deltaLog
  live : LiveExact deltas working

/-- Assumes: no two additions of the log have the same id, and the timestamps of the log are distinct.
A delta of the log whose parents are held is accepted and verifies. -/
theorem ReplayOf.step (hworking : ReplayOf deltas root doc working) (h : Coherent deltas root doc)
    (hattested : Attested doc) (hfree : CollisionFree deltas) (hids : DistinctMethodIds doc.deltaLog)
    (hdistinct : DistinctTimestamps doc.deltaLog) (hd : d ∈ doc.deltaLog)
    (hnew : working.dag.contains d.contentHash = false)
    (hheld : ∀ p ∈ d.parents, working.dag.contains p = true) :
    Accepts working d ∧ verifySignature d working = .ok () ∧
      ReplayOf deltas root doc (working.record d) := by
  have hcoherent := hworking.coherent
  have hnew' := (hcoherent.contains_eq_false_iff _).mp hnew
  have hheld' : ∀ p ∈ d.parents, p ∈ working.logHashes := fun p hp ↦
    (hcoherent.contains_iff p).mp (hheld p hp)
  have hgrounded : d.parents ≠ [] := by
    intro hnil
    rw [h.history.eq_root hd hnil] at hnew'
    exact hnew' (List.mem_map_of_mem hcoherent.history.root_mem)
  have hsub : ∀ e ∈ working.deltaLog ++ [d], e ∈ doc.deltaLog := by
    intro e he
    rcases List.mem_append.mp he with he | he
    · exact hworking.sub e he
    · rwa [List.mem_singleton.mp he]
  have hadmissible := h.admitted d hd hgrounded
  refine ⟨(hcoherent.accepts_iff hfree).mpr ⟨hnew', hadmissible, hheld'⟩,
    hattested.verifySignature_eq_ok h hfree hids hcoherent hworking.sub hd hgrounded hheld',
    hcoherent.record (h.sub hd) hnew' hadmissible hheld', hsub, ?_⟩
  exact hworking.live.record hcoherent hfree hnew' hheld' (hdistinct.mono hsub)

/-- Assumes: no two additions of the log have the same id, the timestamps of the log are distinct, and a
fresh document is a start of the log. The log replays on it, in any order of the bundle. -/
theorem mergeVerifiedBundle_replays (hworking : ReplayOf deltas root doc working)
    (h : Coherent deltas root doc) (hattested : Attested doc) (hfree : CollisionFree deltas)
    (hids : DistinctMethodIds doc.deltaLog) (hdistinct : DistinctTimestamps doc.deltaLog)
    {target : DeltaHash} (htarget : target ∈ doc.logHashes) {order : List SignedDelta}
    (hperm : order ~ doc.deltaLog) :
    ∃ run, working.mergeVerifiedBundle ⟨target, order⟩ = (working.recordAll run, .ok run.length) ∧
      ReplayOf deltas root doc (working.recordAll run) ∧
      working.deltaLog ++ run ~ doc.deltaLog := by
  have hhashes : order.map SignedDelta.contentHash ~ doc.logHashes := hperm.map _
  have hindex : ∀ (k : DeltaHash) (e : SignedDelta),
      (Document.indexBundle order)[k]? = some e ↔ e ∈ doc.deltaLog ∧ e.contentHash = k := by
    intro k e
    rw [getElem?_indexBundle_iff (hhashes.nodup_iff.mpr h.history.nodup), hperm.mem_iff]
  have hkey : ∀ (k : DeltaHash) (e : SignedDelta), (Document.indexBundle order)[k]? = some e →
      e.contentHash = k := fun k e hget ↦ ((hindex k e).mp hget).2
  have hkeys : ∀ k, (Document.indexBundle order).contains k = true ↔ k ∈ doc.logHashes := by
    intro k
    rw [contains_indexBundle, hhashes.mem_iff]
  have hclosed : ∀ d ∈ doc.deltaLog, ∀ p ∈ d.parents, p ∈ doc.logHashes := fun d hd p hp ↦
    (mem_hashes_iff _ p).mpr (h.history.parentClosed d hd p hp)
  have hstructured : Structured working ⟨target, order⟩ :=
    ⟨hhashes.mem_iff.mpr htarget, fun d hd p hp ↦
      Or.inl (hhashes.mem_iff.mpr (hclosed d (hperm.mem_iff.mp hd) p hp))⟩
  have hacyclic : Acyclic (Document.indexBundle order).Names := by
    refine h.history.acyclic.mono ?_
    rintro a p ⟨d, hget, hp, _⟩
    obtain ⟨hd, hkey⟩ := (hindex a d).mp hget
    exact ⟨d, hd, hkey, hp⟩
  obtain ⟨found, hfound⟩ := topoOrderBundle_eq_ok hacyclic
  obtain ⟨hfoundPerm, hordered⟩ := topoOrderBundle_spec hfound
  have hmem : ∀ k, k ∈ found ↔ k ∈ doc.logHashes := by
    intro k
    rw [hfoundPerm.mem_iff, OrderedMaps.mem_keys_iff, ← OrderedMaps.contains_iff, hkeys]
  have hsubmitted : Verifies (members order) working
        (working.submitted (Document.indexBundle order) found) ∧
      ReplayOf deltas root doc
        (working.recordAll (working.submitted (Document.indexBundle order) found)) :=
    verifies_submitted (fun working k d hP hget hnew hheld ↦ by
      obtain ⟨hd, rfl⟩ := (hindex k d).mp hget
      exact ⟨hperm.mem_iff.mpr hd, hP.step h hattested hfree hids hdistinct hd hnew hheld⟩)
    hkey found working [] hworking (hfoundPerm.nodup_iff.mpr Std.ExtTreeMap.nodup_keys)
    (fun k hk ↦ (hkeys k).mpr ((hmem k).mp hk)) hordered (fun k hk ↦ absurd hk List.not_mem_nil)
    fun k d hget p hp ↦ Or.inl ((hkeys p).mpr (hclosed d ((hindex k d).mp hget).1 p hp))
  obtain ⟨hverifies, hlast⟩ := hsubmitted
  refine ⟨_, (mergeVerifiedBundle_spec hstructured hfound).1 hverifies, hlast, ?_⟩
  have hsub := hlast.sub
  have hnodup := hlast.coherent.history.nodup
  rw [deltaLog_recordAll] at hsub hnodup
  refine (List.perm_ext_iff_of_nodup hnodup.of_map h.history.nodup.of_map).mpr fun d ↦
    ⟨hsub d, fun hd ↦ ?_⟩
  -- its hash is held by then, and no other delta of the log has it
  have hin : d.contentHash ∈ (working.deltaLog ++
      working.submitted (Document.indexBundle order) found).map SignedDelta.contentHash := by
    have hhash : d.contentHash ∈ doc.logHashes := List.mem_map_of_mem hd
    rw [List.map_append, List.mem_append]
    exact (held_or_submitted hkey ((hmem _).mpr hhash) ((hkeys _).mpr hhash)).imp_left
      (hworking.coherent.contains_iff _).mp
  obtain ⟨e, he, hsame⟩ := List.mem_map.mp hin
  rwa [List.inj_on_of_nodup_map h.history.nodup hd (hsub e he) hsame.symm]

end FreshReplay

/-- Assumes: the collection holds the creation delta and does not collide, and neither do the digests of
key references. For every document of verified ingestion whose held additions of methods have distinct
ids and whose held deltas have distinct timestamps: both bundles name the greatest head and carry every
held delta once, and with its deltas in any order the bundle replays on a fresh document to the same
fields, hashes and frontier. -/
theorem closureBundle_replays (publicKeyMultibase : String) (deltas : Set SignedDelta)
    (hfree : CollisionFree deltas) (hkeys : KeyRefsDistinct (eventsOf deltas))
    (hgenesis : Document.genesis publicKeyMultibase ∈ deltas) (doc : Document)
    (h : IngestedWhile (fun _ _ ↦ True) deltas publicKeyMultibase doc)
    (hids : DistinctMethodIds doc.deltaLog) (hdistinct : DistinctTimestamps doc.deltaLog) :
    ∃ target closure exported, doc.closureBundle = .ok ⟨target, closure⟩ ∧
      doc.exportBundle = .ok ⟨target, exported⟩ ∧
      (target ∈ doc.frontier ∧ ∀ head ∈ doc.frontier, head ≤ target) ∧
      closure ~ doc.deltaLog ∧ exported ~ doc.deltaLog ∧ target ∈ doc.logHashes ∧
      ∀ order, order ~ doc.deltaLog →
        let replayed := (Document.new publicKeyMultibase).1.mergeVerifiedBundle ⟨target, order⟩
        replayed.2 = .ok (doc.deltaLog.length - 1) ∧
          replayed.1.toCrdtState = doc.toCrdtState ∧ replayed.1.logHashes ~ doc.logHashes ∧
          replayed.1.frontier = doc.frontier := by
  have hcoherent := h.coherent hfree hgenesis
  obtain ⟨target, closure, exported, hclosure, hexported, hclosurePerm, hexportedPerm, htarget,
    hgreatest⟩ := closureBundle_spec hcoherent
  have hheld : target ∈ doc.logHashes := by
    have hhead := (DeltaDag.mem_frontier _ _).mp htarget
    rw [hcoherent.dag] at hhead
    exact ((mem_frontier_of_history hcoherent.history target).mp hhead).1
  refine ⟨target, closure, exported, hclosure, hexported, ⟨htarget, hgreatest⟩, hclosurePerm,
    hexportedPerm, hheld, fun order horder ↦ ?_⟩
  have hstart : ReplayOf deltas (Document.genesis publicKeyMultibase) doc
      (Document.new publicKeyMultibase).1 := by
    refine ⟨.new publicKeyMultibase hgenesis, fun e he ↦ ?_, .new publicKeyMultibase⟩
    rw [List.mem_singleton.mp he]
    exact hcoherent.history.root_mem
  obtain ⟨run, hmerged, hreplay, hperm⟩ := mergeVerifiedBundle_replays hstart hcoherent
    (h.attested hfree hgenesis) hfree hids hdistinct hheld horder
  have hlog : ((Document.new publicKeyMultibase).1.recordAll run).deltaLog ~ doc.deltaLog := by
    rwa [deltaLog_recordAll]
  have hhashes : ((Document.new publicKeyMultibase).1.recordAll run).logHashes ~ doc.logHashes :=
    hlog.map _
  have hsame : heldHashes doc = heldHashes ((Document.new publicKeyMultibase).1.recordAll run) :=
    Set.ext fun hash ↦ hhashes.symm.mem_iff
  have hlength : run.length = doc.deltaLog.length - 1 := by
    rw [← hperm.length_eq, List.length_append]
    exact (Nat.add_sub_cancel_left 1 run.length).symm
  rw [hmerged]
  refine ⟨by rw [hlength], ?_, hhashes, ?_⟩
  · exact (fields_eq_of_held_eq hcoherent hreplay.coherent hfree hkeys hsame hdistinct
      (h.liveExact hfree hgenesis hdistinct) hreplay.live).symm
  · exact (frontier_eq_of_held_eq hcoherent hreplay.coherent hfree hsame).symm

end

section Readable

attribute [local instance] Primitives.readable

/-- A document of the key `u7` that revokes a credential; its bundle replays with the revocation first. -/
theorem closureBundle_replays_revocation :
    let d := SignedDelta.readable "did:crdt:u7" "did:crdt:u7#key-0" "u7" 1 55 (.revokeCredential "c")
      ["0.0.0"]
    let doc := ((Document.new "u7").1.mergeVerifiedDelta d).1
    ∃ target, doc.closureBundle.isOk ∧ target ∈ doc.frontier ∧
      let replayed := (Document.new "u7").1.mergeVerifiedBundle ⟨target, [d, Document.genesis "u7"]⟩
      replayed.2 = .ok 1 ∧ replayed.1.toCrdtState = doc.toCrdtState ∧
        replayed.1.frontier = doc.frontier := by
  intro d doc
  have hdoc : doc = (Document.new "u7").1.record d :=
    Document.mergeVerifiedDelta_fst_of_accepts
      ⟨by decide, by decide, by decide, by decide, by decide⟩ (by decide)
  have hlog : doc.deltaLog = [Document.genesis "u7", d] := by
    rw [hdoc, Document.deltaLog_record]
    rfl
  have hkeys : KeyRefsDistinct (eventsOf (members [Document.genesis "u7", d])) := by
    simp [KeyRefsDistinct, occurs_eventsOf_iff, Document.genesis, Document.genesisOp,
      SignedDelta.unsigned, d]
  have hids : DistinctMethodIds doc.deltaLog := by
    -- only the creation delta adds a method
    have honly : ∀ e ∈ doc.deltaLog, ∀ id, e.AddsMethod id → e = Document.genesis "u7" := by
      rw [hlog]
      rintro e he id ⟨key, suite, relationships, hop⟩
      rcases List.mem_cons.mp he with rfl | he
      · rfl
      · rw [List.mem_singleton.mp he] at hop
        exact absurd hop (by simp [d])
    intro a ha b hb id hadds hadds'
    rw [honly a ha id hadds, honly b hb id hadds']
  have hdistinct : DistinctTimestamps doc.deltaLog := by
    rw [hlog]
    unfold DistinctTimestamps
    decide
  obtain ⟨target, closure, exported, hclosure, _, ⟨htarget, _⟩, _, _, _, hreplays⟩ :=
    closureBundle_replays "u7" (members [Document.genesis "u7", d]) (.of_nodup (by decide)) hkeys
      (by simp) doc (.delta .new (by simp) trivial) hids hdistinct
  have horder : [d, Document.genesis "u7"] ~ doc.deltaLog := by
    rw [hlog]
    exact .swap _ _ _
  obtain ⟨hcount, hfields, _, hfrontier⟩ := hreplays _ horder
  rw [hlog] at hcount
  exact ⟨target, by rw [hclosure]; rfl, htarget, hcount, hfields, hfrontier⟩

end Readable

end DidCrdt
