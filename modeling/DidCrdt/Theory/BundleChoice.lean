import DidCrdt.Theory.Convergence
import DidCrdt.Theory.Replay

/-!
# The copies that a bundle replays

The hash of a delta does not cover its proof, so a bundle may hold several copies of one payload. The
index keeps the last copy of each, and the order found is the same for every order of the bundle
(`topoOrderBundle_perm`). So the order of a bundle decides which copies are replayed, and nothing else:
every choice of one copy of each new payload is replayed by some order (`Choice.exists_order`).

If one choice verifies, and every other copy of a payload is accepted and verifies in its place, then
every choice verifies (`CopiesPass.verifies`).
-/

set_option autoImplicit false
set_option relaxedAutoImplicit false

namespace DidCrdt

open Std (ExtTreeMap)
open scoped List

/-! ### The order found -/

/-- The order found depends on the hashes and their parents alone. -/
theorem topoOrderBundle_congr {byHash byHash' : BundleIndex}
    (h : ∀ k : DeltaHash, byHash[k]?.map SignedDelta.parents = byHash'[k]?.map SignedDelta.parents) :
    topoOrderBundle byHash = topoOrderBundle byHash' := by
  have hparents : (byHash.map fun _ d ↦ d.parents) = byHash'.map fun _ d ↦ d.parents := by
    refine ExtTreeMap.ext_getElem? fun k ↦ ?_
    rw [ExtTreeMap.getElem?_map, ExtTreeMap.getElem?_map]
    exact h k
  have hcontains : byHash.contains = byHash'.contains := by
    funext k
    have hmap := congrArg Option.isSome (h k)
    rwa [Option.isSome_map, Option.isSome_map, ← ExtTreeMap.contains_eq_isSome_getElem?,
      ← ExtTreeMap.contains_eq_isSome_getElem?] at hmap
  have hsize : byHash.size = byHash'.size := by
    have hmap := congrArg ExtTreeMap.size hparents
    rwa [ExtTreeMap.size_map, ExtTreeMap.size_map] at hmap
  have hzero : (byHash.map fun _ _ ↦ 0) = byHash'.map fun _ _ ↦ 0 := by
    refine ExtTreeMap.ext_getElem? fun k ↦ ?_
    have hmap := congrArg (Option.map fun _ ↦ 0) (h k)
    rw [Option.map_map, Option.map_map] at hmap
    rw [ExtTreeMap.getElem?_map, ExtTreeMap.getElem?_map]
    exact hmap
  have hlist : ∀ index : BundleIndex, TopoOrder.edgeList index =
      (index.map fun _ d ↦ d.parents).toList.flatMap fun entry ↦
        (entry.2.filter index.contains).map fun p ↦ (entry.1, p) := by
    intro index
    rw [ExtTreeMap.toList_map, List.flatMap_map]
    rfl
  have hedges : TopoOrder.edges byHash = TopoOrder.edges byHash' := by
    rw [TopoOrder.edges_eq, TopoOrder.edges_eq, hlist, hlist, hparents, hcontains, hzero]
  unfold topoOrderBundle
  rw [hedges, hsize]

variable [Primitives]

section Orders

variable {deltas : Set SignedDelta} {doc : Document} {bundled run : List SignedDelta}
  {order : List DeltaHash}

/-- Assumes: the deltas of the bundle do not collide. Every order of the bundle leads to the same order
of hashes. -/
theorem topoOrderBundle_perm (hfree : CollisionFree (members bundled)) {others : List SignedDelta}
    (hperm : others ~ bundled) : topoOrderBundle (Document.indexBundle others) =
      topoOrderBundle (Document.indexBundle bundled) := by
  refine topoOrderBundle_congr fun k ↦ ?_
  have hin : (Document.indexBundle others).contains k = (Document.indexBundle bundled).contains k := by
    rw [Bool.eq_iff_iff, contains_indexBundle, contains_indexBundle]
    exact (hperm.map _).mem_iff
  rw [ExtTreeMap.contains_eq_isSome_getElem?, ExtTreeMap.contains_eq_isSome_getElem?] at hin
  cases hget : (Document.indexBundle others)[k]? with
  | none =>
    rw [hget] at hin
    rw [Option.isNone_iff_eq_none.mp (Option.isSome_eq_false_iff.mp hin.symm)]
  | some d =>
    rw [hget] at hin
    obtain ⟨e, hget'⟩ := Option.isSome_iff_exists.mp hin.symm
    obtain ⟨hd, hkey⟩ := Document.mem_of_indexBundle hget
    obtain ⟨he, hkey'⟩ := Document.mem_of_indexBundle hget'
    rw [hget', Option.map_some, Option.map_some,
      hfree.parents_eq (hperm.mem_iff.mp hd) he (hkey.trans hkey'.symm)]

/-- The order found lists the hashes of the bundle, none twice. -/
theorem mem_order_iff (horder : topoOrderBundle (Document.indexBundle bundled) = .ok order)
    (h : DeltaHash) : h ∈ order ↔ h ∈ bundled.map SignedDelta.contentHash := by
  rw [(topoOrderBundle_spec horder).1.mem_iff, OrderedMaps.mem_keys_iff, ← OrderedMaps.contains_iff,
    contains_indexBundle]

theorem nodup_order (horder : topoOrderBundle (Document.indexBundle bundled) = .ok order) :
    order.Nodup :=
  (topoOrderBundle_spec horder).1.nodup_iff.mpr ExtTreeMap.nodup_keys

/-! ### Choices of copies -/

/-- One copy of every payload of the bundle that is not held, in the order found. -/
structure Choice (doc : Document) (bundled : List SignedDelta) (order : List DeltaHash)
    (run : List SignedDelta) : Prop where
  hashes : run.map SignedDelta.contentHash = order.filter fun h ↦ !doc.dag.contains h
  copies : ∀ d ∈ run, d ∈ bundled

/-- What a replay submits is a choice. -/
theorem choice_submitted (horder : topoOrderBundle (Document.indexBundle bundled) = .ok order) :
    Choice doc bundled order (doc.submitted (Document.indexBundle bundled) order) := by
  have hkeyed : ∀ hashes : List DeltaHash, (∀ h ∈ hashes, h ∈ bundled.map SignedDelta.contentHash) →
      (hashes.filterMap fun h ↦ (Document.indexBundle bundled)[h]?).map SignedDelta.contentHash =
        hashes := by
    intro hashes
    induction hashes with
    | nil => exact fun _ ↦ rfl
    | cons h hashes ih =>
      intro hin
      obtain ⟨d, hget⟩ := (OrderedMaps.contains_iff _ h).mp
        ((contains_indexBundle bundled h).mpr (hin h List.mem_cons_self))
      rw [List.filterMap_cons_some hget, List.map_cons, contentHash_of_indexBundle hget,
        ih fun k hk ↦ hin k (List.mem_cons_of_mem h hk)]
  refine ⟨hkeyed _ fun h hh ↦ (mem_order_iff horder h).mp (List.mem_of_mem_filter hh), fun d hd ↦ ?_⟩
  obtain ⟨h, _, hget⟩ := List.mem_filterMap.mp hd
  exact (Document.mem_of_indexBundle hget).1

theorem Choice.nodup (hchoice : Choice doc bundled order run)
    (horder : topoOrderBundle (Document.indexBundle bundled) = .ok order) :
    (run.map SignedDelta.contentHash).Nodup := by
  rw [hchoice.hashes]
  exact (nodup_order horder).filter _

/-- Every choice is what the replay of some order of the bundle submits: the one with the copies chosen
at its end. -/
theorem Choice.exists_order (hchoice : Choice doc bundled order run)
    (horder : topoOrderBundle (Document.indexBundle bundled) = .ok order) :
    ∃ others, others ~ bundled ∧ doc.submitted (Document.indexBundle others) order = run := by
  classical
  let others := (bundled.filter fun d ↦ d ∉ run) ++ bundled.filter fun d ↦ d ∈ run
  have hperm : others ~ bundled := by
    refine List.perm_append_comm.trans ?_
    simpa only [decide_not] using List.filter_append_perm (fun d ↦ decide (d ∈ run)) bundled
  refine ⟨others, hperm, ?_⟩
  have hlast : ∀ d ∈ run, (Document.indexBundle others)[d.contentHash]? = some d := by
    intro d hd
    have hin : d ∈ (bundled.filter fun d ↦ decide (d ∈ run)).reverse := by
      rw [List.mem_reverse, List.mem_filter]
      exact ⟨hchoice.copies d hd, decide_eq_true hd⟩
    rw [getElem?_indexBundle, List.reverse_append, List.find?_append]
    obtain ⟨e, hfound⟩ := Option.isSome_iff_exists.mp
      (List.find?_isSome.mpr ⟨d, hin, decide_eq_true rfl⟩ :
        ((bundled.filter fun d ↦ decide (d ∈ run)).reverse.find? fun e ↦
          decide (e.contentHash = d.contentHash)).isSome)
    have he : e ∈ run := by
      have hmem := List.mem_of_find?_eq_some hfound
      rw [List.mem_reverse, List.mem_filter] at hmem
      exact of_decide_eq_true hmem.2
    have hkey : e.contentHash = d.contentHash := by simpa using List.find?_some hfound
    rw [hfound, List.inj_on_of_nodup_map (hchoice.nodup horder) he hd hkey]
    rfl
  unfold Document.submitted
  rw [← hchoice.hashes, List.filterMap_map]
  calc run.filterMap _
    _ = run.filterMap some := List.filterMap_congr hlast
    _ = run := List.filterMap_some

end Orders

/-! ### Verdicts on the copies -/

section Verdicts

variable {deltas : Set SignedDelta} {root : SignedDelta} {doc doc' : Document}
  {d : SignedDelta} {bundled run run' : List SignedDelta} {order : List DeltaHash}

/-- A signature is checked against the methods of the document. -/
theorem verifySignature_congr (h : doc.verificationMethods = doc'.verificationMethods) :
    verifySignature d doc = verifySignature d doc' := by
  unfold verifySignature
  rw [h]

/-- Assumes: the documents hold the same hashes. -/
theorem Coherent.verifySignature_eq (h : Coherent deltas root doc) (h' : Coherent deltas root doc')
    (hfree : CollisionFree deltas) (hheld : heldHashes doc = heldHashes doc') :
    verifySignature d doc = verifySignature d doc' := by
  refine verifySignature_congr (Std.ExtTreeSet.ext_mem fun e ↦ ?_)
  rw [h.describes.verificationMethods, h'.describes.verificationMethods,
    events_eq_of_held_eq h h' hfree hheld]

/-- Assumes: the documents hold the same hashes. -/
theorem Coherent.accepts_of_held_eq (h : Coherent deltas root doc) (h' : Coherent deltas root doc')
    (hfree : CollisionFree deltas) (hheld : heldHashes doc = heldHashes doc') (haccepts : Accepts doc d) :
    Accepts doc' d := by
  have hsame : ∀ hash, hash ∈ doc.logHashes ↔ hash ∈ doc'.logHashes := Set.ext_iff.mp hheld
  obtain ⟨hnew, hadmissible, hparents⟩ := (h.accepts_iff hfree).mp haccepts
  exact (h'.accepts_iff hfree).mpr
    ⟨fun hin ↦ hnew ((hsame _).mpr hin), hadmissible, fun p hp ↦ (hsame p).mp (hparents p hp)⟩

theorem heldHashes_record_eq {e : SignedDelta} (hheld : heldHashes doc = heldHashes doc')
    (hkey : e.contentHash = d.contentHash) : heldHashes (doc.record d) = heldHashes (doc'.record e) := by
  have hsame : ∀ hash, hash ∈ doc.logHashes ↔ hash ∈ doc'.logHashes := Set.ext_iff.mp hheld
  ext hash
  change hash ∈ (doc.record d).logHashes ↔ hash ∈ (doc'.record e).logHashes
  rw [logHashes_record, logHashes_record, List.mem_append, List.mem_append, hsame, hkey]

/-- Every copy of a payload of the run is accepted and verifies in its place. -/
def CopiesPass (bundled : List SignedDelta) (doc : Document) (run : List SignedDelta) : Prop :=
  ∀ before d after, run = before ++ d :: after → ∀ e ∈ bundled, e.contentHash = d.contentHash →
    Accepts (doc.recordAll before) e ∧ verifySignature e (doc.recordAll before) = .ok ()

theorem CopiesPass.tail (h : CopiesPass bundled doc (d :: run)) :
    CopiesPass bundled (doc.record d) run := by
  intro before d' after hsplit
  exact h (d :: before) d' after (congrArg (d :: ·) hsplit)

/-- Assumes: the documents hold the same hashes, and the runs have the same payloads. The copies of one
run verify after those of the other. The induction is on the run that verifies. -/
theorem CopiesPass.verifies (hfree : CollisionFree deltas) (hbundle : members bundled ⊆ deltas)
    (run : List SignedDelta) : ∀ (run' : List SignedDelta) (doc doc' : Document),
    Coherent deltas root doc → Coherent deltas root doc' → heldHashes doc = heldHashes doc' →
    Verifies (members bundled) doc run → CopiesPass bundled doc run → (∀ e ∈ run', e ∈ bundled) →
    run'.map SignedDelta.contentHash = run.map SignedDelta.contentHash →
    Verifies (members bundled) doc' run' := by
  induction run with
  | nil =>
    intro run' doc doc' _ _ _ _ _ _ hsame
    rw [List.map_eq_nil_iff.mp hsame]
    trivial
  | cons d run ih =>
    intro run' doc doc' h h' hheld hverifies hpass hcopies hsame
    obtain ⟨hd, haccepts, hsig, hrest⟩ := hverifies
    cases run' with
    | nil => exact absurd hsame (List.cons_ne_nil _ _).symm
    | cons e run' =>
      obtain ⟨hkey, hsame⟩ := List.cons.inj hsame
      have he := hcopies e List.mem_cons_self
      obtain ⟨haccepts', hsig'⟩ := hpass [] d run rfl e he hkey
      have haccepted := h.accepts_of_held_eq h' hfree hheld haccepts'
      have hverified : verifySignature e doc' = .ok () :=
        (h.verifySignature_eq h' hfree hheld).symm.trans hsig'
      refine ⟨he, haccepted, hverified, ih run' (doc.record d) (doc'.record e)
        (h.verifiedStep hfree ⟨d, hbundle hd, haccepts, hsig, rfl⟩)
        (h'.verifiedStep hfree ⟨e, hbundle he, haccepted, hverified, rfl⟩)
        (heldHashes_record_eq hheld hkey) hrest hpass.tail
        (fun e' he' ↦ hcopies e' (List.mem_cons_of_mem e he')) hsame⟩

/-- Replacing a copy of a choice by another copy of its payload. -/
theorem Choice.replace {before after : List SignedDelta} {e : SignedDelta}
    (hchoice : Choice doc bundled order (before ++ d :: after)) (he : e ∈ bundled)
    (hkey : e.contentHash = d.contentHash) : Choice doc bundled order (before ++ e :: after) := by
  refine ⟨?_, fun e' he' ↦ ?_⟩
  · rw [← hchoice.hashes, List.map_append, List.map_append, List.map_cons, List.map_cons, hkey]
  · rcases List.mem_append.mp he' with he' | he'
    · exact hchoice.copies e' (List.mem_append_left _ he')
    · rcases List.mem_cons.mp he' with rfl | he'
      · exact he
      · exact hchoice.copies e' (List.mem_append_right _ (List.mem_cons_of_mem d he'))

/-- If every choice verifies, every copy passes. -/
theorem Choice.copiesPass (hchoice : Choice doc bundled order run)
    (hall : ∀ run, Choice doc bundled order run → Verifies (members bundled) doc run) :
    CopiesPass bundled doc run := by
  intro before d after hsplit e he hkey
  rw [hsplit] at hchoice
  obtain ⟨_, _, haccepts, hsig, _⟩ :=
    (verifies_append before doc).mp (hall _ (hchoice.replace he hkey))
  exact ⟨haccepts, hsig⟩

end Verdicts

end DidCrdt
