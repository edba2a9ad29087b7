import DidCrdt.Theory.Reconcile

/-!
# The frontier

Whatever is inserted into a store, in whatever order and however often, its frontier is the set of held
hashes that no held delta names as a parent, and what is referenced and what is missing are what the
held deltas say (`insertions_keep_frontier`). The hashes inserted determine the store up to the proofs of
its deltas. When no hash is its own ancestor, every held hash lies below a head (`exists_head_above`).
-/

set_option autoImplicit false
set_option relaxedAutoImplicit false

namespace DidCrdt

open Reconciliation (Acyclic)

namespace DeltaDag

/-- A hash lies above the hashes that its held delta names, and above what lies below these. -/
def Above (g : DeltaDag) : DeltaHash → DeltaHash → Prop :=
  Relation.ReflTransGen fun h p ↦ p ∈ g.successors h

section Store

variable {g : DeltaDag}

theorem mem_successors_iff {h p : DeltaHash} :
    p ∈ g.successors h ↔ ∃ d, g.get h = some d ∧ p ∈ d.parents := by
  rw [successors]
  cases g.get h with
  | none => simp
  | some d => simp

theorem contains_of_mem_successors {h p : DeltaHash} (hp : p ∈ g.successors h) :
    g.contains h = true := by
  obtain ⟨d, hget, _⟩ := mem_successors_iff.mp hp
  exact (g.contains_iff h).mpr ⟨d, hget⟩

/-- The absent ancestors are the referenced hashes that are not held. -/
theorem mem_incompleteAncestors {h : DeltaHash} :
    h ∈ g.incompleteAncestors ↔ h ∈ g.referenced ∧ g.contains h = false := by
  rw [incompleteAncestors, List.mem_insertionSort, List.mem_filter, Std.ExtTreeSet.mem_toList,
    Bool.not_eq_true']

/-- The absent ancestors are listed in ascending order, each once. -/
theorem pairwise_incompleteAncestors (g : DeltaDag) : g.incompleteAncestors.Pairwise (· < ·) := by
  have hnodup : (g.referenced.toList.filter fun h ↦ !g.contains h).Nodup := by
    have hordered := Std.ExtTreeSet.ordered_toList (t := g.referenced)
    exact List.Nodup.filter _ (hordered.imp fun hlt ↦ (compare_lt_iff_lt.mp hlt).ne)
  have hsorted := List.pairwise_insertionSort (· ≤ ·)
    (g.referenced.toList.filter fun h ↦ !g.contains h)
  exact (hsorted.and ((List.perm_insertionSort (· ≤ ·) _).symm.nodup hnodup)).imp
    fun hpair ↦ lt_of_le_of_ne hpair.1 hpair.2

end Store

section Insertions

variable [Primitives]

section Exact

variable {g : DeltaDag}

/-- The heads are the held hashes that no held delta names. -/
theorem Exact.mem_frontierSet_iff (hg : Exact g) (h : DeltaHash) : h ∈ g.frontierSet ↔
    g.contains h = true ∧ ∀ other d, g.get other = some d → h ∉ d.parents := by
  rw [hg.frontier_iff, hg.referenced_iff]
  push Not
  rfl

/-- Assumes: no hash is its own ancestor. Every held hash lies below a head. A highest hash above the
given one is a head: a delta that names it would lie above it. -/
theorem Exact.exists_head_above (hg : Exact g)
    (hacyclic : Acyclic fun h p ↦ p ∈ g.successors h) {h : DeltaHash} (hh : g.contains h = true) :
    ∃ head ∈ g.frontierSet, g.Above head h := by
  have hfinite : {a | g.contains a = true ∧ g.Above a h}.Finite :=
    g.finite_heldSet.subset fun a ha ↦ ha.1
  obtain ⟨head, ⟨hheld, habove⟩, htop⟩ := hacyclic.exists_top hfinite ⟨h, hh, .refl⟩
  refine ⟨head, (hg.mem_frontierSet_iff head).mpr ⟨hheld, fun other d hget hp ↦ ?_⟩, habove⟩
  have hnames : head ∈ g.successors other := mem_successors_iff.mpr ⟨d, hget, hp⟩
  exact htop other ⟨contains_of_mem_successors hnames, .head hnames habove⟩ hnames

end Exact

/-- Assumes: no delta of the collection is among its own ancestors. No hash of a store of it is. -/
theorem Within.acyclic {deltas : Set SignedDelta} {g : DeltaDag} (hg : Within deltas g)
    (hacyclic : Acyclic (NamesParent deltas)) : Acyclic fun h p ↦ p ∈ g.successors h := by
  refine hacyclic.mono fun a b hb ↦ ?_
  obtain ⟨d, hget, hp⟩ := DeltaDag.mem_successors_iff.mp hb
  exact ⟨d, hg.source a d hget, hg.exact.keyed a d hget, hp⟩

variable {log log' : List SignedDelta}

/-- A store holds as many deltas as distinct hashes were inserted. -/
theorem len_rebuild (log : List SignedDelta) :
    (rebuild log).len = (log.map SignedDelta.contentHash).dedup.length := by
  have hperm : (rebuild log).byHash.keys.Perm (log.map SignedDelta.contentHash).dedup := by
    refine (List.perm_ext_iff_of_nodup Std.ExtTreeMap.nodup_keys (List.nodup_dedup _)).mpr fun h ↦ ?_
    rw [OrderedMaps.mem_keys_iff, List.mem_dedup, List.mem_map]
    exact ((rebuild log).contains_iff h).symm.trans (contains_rebuild log h)
  rw [len, ← Std.ExtTreeMap.length_keys, hperm.length_eq]

/-- Assumes: the deltas inserted do not collide. The hashes inserted determine what is held, what is
referenced, and the heads. -/
theorem rebuild_determined (hfree : CollisionFree (members (log ++ log')))
    (hhashes : ∀ h, h ∈ log.map SignedDelta.contentHash ↔ h ∈ log'.map SignedDelta.contentHash) :
    (∀ h, (rebuild log).contains h = (rebuild log').contains h) ∧
      (rebuild log).referenced = (rebuild log').referenced ∧
      (rebuild log).frontierSet = (rebuild log').frontierSet := by
  have hheld : ∀ h, (rebuild log).contains h = (rebuild log').contains h := by
    intro h
    rw [Bool.eq_iff_iff, contains_rebuild, contains_rebuild]
    simpa only [List.mem_map] using hhashes h
  have hleft : Within (members (log ++ log')) (rebuild log) :=
    .rebuild fun d hd ↦ List.mem_append_left _ hd
  have hright : Within (members (log ++ log')) (rebuild log') :=
    .rebuild fun d hd ↦ List.mem_append_right _ hd
  have hparents : ∀ h d d', (rebuild log).get h = some d → (rebuild log').get h = some d' →
      d.parents = d'.parents := fun h d d' hget hget' ↦
    hfree.parents_eq (hleft.source h d hget) (hright.source h d' hget')
      ((hleft.exact.keyed h d hget).trans (hright.exact.keyed h d' hget').symm)
  exact ⟨hheld, referenced_eq_of_held_eq hleft.exact hright.exact hheld hparents,
    frontier_eq_of_held_eq hleft.exact hright.exact hheld hparents⟩

/-- After any insertions: the frontier lists the held hashes that no held delta names as a parent,
exactly the parents of held deltas are referenced, the absent ancestors are listed in order, and there
are as many held deltas as distinct hashes. Other insertions of the same hashes, if no two deltas
collide, end with the same held, referenced and frontier sets. When no delta is among its own ancestors
(as for honest content hashes), every held hash lies below a head. -/
theorem insertions_keep_frontier (log : List SignedDelta) :
    let g := rebuild log
    (∀ h, h ∈ g.frontier ↔
      g.contains h = true ∧ ∀ other d, g.get other = some d → h ∉ d.parents) ∧
    (∀ p, p ∈ g.referenced ↔ ∃ h d, g.get h = some d ∧ p ∈ d.parents) ∧
    (g.incompleteAncestors.Pairwise (· < ·) ∧
      ∀ h, h ∈ g.incompleteAncestors ↔ h ∈ g.referenced ∧ g.contains h = false) ∧
    g.len = (log.map SignedDelta.contentHash).dedup.length ∧
    (∀ log' : List SignedDelta, CollisionFree (members (log ++ log')) →
      (∀ h, h ∈ log.map SignedDelta.contentHash ↔ h ∈ log'.map SignedDelta.contentHash) →
      (∀ h, g.contains h = (rebuild log').contains h) ∧
        g.referenced = (rebuild log').referenced ∧ g.frontierSet = (rebuild log').frontierSet) ∧
    (Acyclic (NamesParent (members log)) →
      ∀ h, g.contains h = true → ∃ head ∈ g.frontier, g.Above head h) := by
  intro g
  have hexact : Exact g := .rebuild log
  have hwithin : Within (members log) g := .rebuild fun d hd ↦ hd
  refine ⟨fun h ↦ ?_, hexact.referenced_iff, ⟨pairwise_incompleteAncestors g, fun h ↦
    mem_incompleteAncestors⟩, len_rebuild log, fun log' ↦ rebuild_determined, fun hacyclic h hh ↦ ?_⟩
  · rw [mem_frontier, hexact.mem_frontierSet_iff]
  · obtain ⟨head, hhead, habove⟩ := hexact.exists_head_above (hwithin.acyclic hacyclic) hh
    exact ⟨head, (g.mem_frontier head).mpr hhead, habove⟩

end Insertions

section Readable

attribute [local instance] Primitives.readable

/-- A creation delta and a delta above it. -/
def sharedLog : List SignedDelta :=
  [.readable "did:crdt:u7" "did:crdt:u7#key-0" "u7" 1 55 (.revokeCredential "a") [],
    .readable "did:crdt:u7" "did:crdt:u7#key-0" "u7" 2 55 (.revokeCredential "b") ["1.0.55"]]

/-- A further delta with a parent. -/
def furtherDelta (parent : String) : SignedDelta :=
  .readable "did:crdt:u7" "did:crdt:u7#key-0" "u7" 3 55 (.revokeCredential "c") [parent]

/-- Deltas that arrive children first, one of them twice, leave the frontier of an orderly arrival. -/
theorem insertions_keep_frontier_reordered :
    let arrivals := furtherDelta "1.0.55" :: sharedLog.reverse ++ sharedLog
    (rebuild arrivals).len = 3 ∧
      (rebuild arrivals).frontierSet = (rebuild (sharedLog ++ [furtherDelta "1.0.55"])).frontierSet ∧
      ∃ head ∈ (rebuild arrivals).frontier, (rebuild arrivals).Above head ⟨"1.0.55"⟩ := by
  intro arrivals
  obtain ⟨_, _, _, hlen, hsame, habove⟩ := insertions_keep_frontier arrivals
  have hfree : CollisionFree (members (arrivals ++ (sharedLog ++ [furtherDelta "1.0.55"]))) := by
    have hdistinct : CollisionFree {d | d ∈ sharedLog ++ [furtherDelta "1.0.55"]} :=
      .of_nodup (by decide)
    exact hdistinct.mono fun d hd ↦ by
      simp only [arrivals, mem_members, List.mem_append, List.mem_cons, List.mem_reverse] at hd
      simp only [Set.mem_ofPred_eq, List.mem_append, List.mem_cons]
      tauto
  have hacyclic : Acyclic (NamesParent (members arrivals)) :=
    acyclic_of_listed [⟨"1.0.55"⟩, ⟨"2.0.55"⟩, ⟨"3.0.55"⟩] (by decide)
  refine ⟨hlen.trans (by decide), (hsame _ hfree fun h ↦ ?_).2.2, habove hacyclic _ (by decide)⟩
  simp [arrivals, or_comm]

end Readable

end DeltaDag

end DidCrdt
