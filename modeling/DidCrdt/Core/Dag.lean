import DidCrdt.Core.Delta
import DidCrdt.Library.DepthFirst

/-!
# The delta DAG

A hash-indexed store of deltas, with the set of hashes that some held delta names as a parent and
the frontier: the held hashes that none does. The store answers what is reachable through `parents`;
it does not decide what is admissible.

`insert` keeps the frontier exact whatever the order of arrival (`Exact.insert`). A store rebuilt
from a list of deltas holds the first delta of every hash (`get_rebuild`), and two stores that hold
the same hashes with the same parents have the same frontier (`frontier_eq_of_held_eq`). The closure
of some parents is the visits of a depth-first traversal; `mem_visits_iff` says what they are.
-/

set_option autoImplicit false
set_option relaxedAutoImplicit false

namespace DidCrdt

open Std (ExtTreeMap ExtTreeSet)

/-- Held deltas by content hash, the hashes they name as parents, and the frontier. -/
structure DeltaDag where
  byHash : ExtTreeMap DeltaHash SignedDelta compare
  referenced : ExtTreeSet DeltaHash compare
  frontierSet : ExtTreeSet DeltaHash compare

namespace DeltaDag

/-- The empty store. -/
def new : DeltaDag := ⟨∅, ∅, ∅⟩

/-- Whether no delta is held. -/
def isEmpty (g : DeltaDag) : Bool := g.byHash.isEmpty

/-- Whether a delta with the hash is held. -/
def contains (g : DeltaDag) (h : DeltaHash) : Bool := g.byHash.contains h

/-- The held delta with the hash. -/
def get (g : DeltaDag) (h : DeltaHash) : Option SignedDelta := g.byHash[h]?

/-- The held deltas. -/
def values (g : DeltaDag) : List SignedDelta := g.byHash.toList.map Prod.snd

/-- The frontier, in ascending order. -/
def frontier (g : DeltaDag) : List DeltaHash := g.frontierSet.toList

/-- Whether a held delta adds the verification method. -/
def hasAuthorisingDelta (g : DeltaDag) (keyId : String) : Bool :=
  g.values.any fun d ↦
    match d.op with
    | .addVerificationMethod id _ _ _ => id = keyId
    | _ => false

/-- Whether a held delta revokes the verification method. -/
def hasRevokingDelta (g : DeltaDag) (keyId : String) : Bool :=
  g.values.any fun d ↦
    match d.op with
    | .revokeVerificationMethod id => id = keyId
    | _ => false

/-- Whether a held delta deactivates the document. -/
def hasDeactivateDelta (g : DeltaDag) : Bool :=
  g.values.any fun d ↦
    match d.op with
    | .deactivate => true
    | _ => false

/-- Inserts a delta, unless its hash is held. Its parents become referenced and leave the frontier,
which it joins unless something references it already. -/
def insert [Primitives] (g : DeltaDag) (d : SignedDelta) : DeltaDag :=
  let h := d.contentHash
  if g.contains h then g
  else
    let referenced := OrderedMaps.insertAll g.referenced d.parents
    let frontier := OrderedMaps.eraseAll g.frontierSet d.parents
    { byHash := g.byHash.insert h d
      referenced := referenced
      frontierSet := if referenced.contains h then frontier else frontier.insert h }

/-- The parents of a held delta. -/
def successors (g : DeltaDag) (h : DeltaHash) : List DeltaHash :=
  match g.get h with
  | some d => d.parents
  | none => []

/-- The hashes that a traversal from the roots visits without entering a stop, in order. The stack
starts with the last root on top, and every iteration fits in the bound. -/
def visits (g : DeltaDag) (stop : DeltaHash → Bool) (roots : List DeltaHash) : List DeltaHash :=
  DepthFirst.order g.successors stop (DepthFirst.bound g.successors g.byHash.keys roots)
    roots.reverse []

/-- The results of `f` on the held deltas of the closure of the parents. -/
def closureCollect {α : Type} (g : DeltaDag) (parents : List DeltaHash)
    (f : SignedDelta → Option α) : List α :=
  (g.visits (fun _ ↦ false) parents).filterMap fun h ↦ (g.get h).bind f

/-! ### What a store holds -/

section Held

variable (g : DeltaDag)

theorem contains_eq_isSome_get (h : DeltaHash) : g.contains h = (g.get h).isSome :=
  ExtTreeMap.contains_eq_isSome_getElem?

theorem contains_iff (h : DeltaHash) : g.contains h = true ↔ ∃ d, g.get h = some d := by
  rw [contains_eq_isSome_get, Option.isSome_iff_exists]

theorem isEmpty_eq_false_of_contains {h : DeltaHash} (hc : g.contains h = true) :
    g.isEmpty = false := by
  rw [isEmpty, ExtTreeMap.isEmpty_eq_false_iff]
  rintro hempty
  obtain ⟨d, hget⟩ := (g.contains_iff h).mp hc
  rw [get, hempty] at hget
  simp at hget

theorem mem_values_iff (d : SignedDelta) : d ∈ g.values ↔ ∃ h, g.get h = some d :=
  OrderedMaps.mem_values_iff g.byHash d

@[simp] theorem mem_frontier (h : DeltaHash) : h ∈ g.frontier ↔ h ∈ g.frontierSet := by
  rw [frontier, ExtTreeSet.mem_toList]

theorem hasAuthorisingDelta_iff (keyId : String) : g.hasAuthorisingDelta keyId = true ↔
    ∃ d ∈ g.values, ∃ pk suite rels, d.op = .addVerificationMethod keyId pk suite rels := by
  rw [hasAuthorisingDelta, List.any_eq_true]
  refine exists_congr fun d ↦ and_congr_right fun _ ↦ ?_
  cases d.op <;> simp [eq_comm]

theorem hasRevokingDelta_iff (keyId : String) : g.hasRevokingDelta keyId = true ↔
    ∃ d ∈ g.values, d.op = .revokeVerificationMethod keyId := by
  rw [hasRevokingDelta, List.any_eq_true]
  refine exists_congr fun d ↦ and_congr_right fun _ ↦ ?_
  cases d.op <;> simp

theorem hasDeactivateDelta_iff : g.hasDeactivateDelta = true ↔
    ∃ d ∈ g.values, d.op = .deactivate := by
  rw [hasDeactivateDelta, List.any_eq_true]
  refine exists_congr fun d ↦ and_congr_right fun _ ↦ ?_
  cases d.op <;> simp

theorem successors_of_not_mem {h : DeltaHash} (hh : h ∉ g.byHash.keys) : g.successors h = [] := by
  have hnone : g.get h = none := by
    cases hget : g.get h with
    | none => rfl
    | some d => exact absurd ((OrderedMaps.mem_keys_iff g.byHash h).mpr ⟨d, hget⟩) hh
  rw [successors, hnone]

/-- The visits are the hashes that can be reached through the parents of held deltas. -/
theorem mem_visits_iff (stop : DeltaHash → Bool) (roots : List DeltaHash) (h : DeltaHash) :
    h ∈ g.visits stop roots ↔ DepthFirst.Reaches g.successors (stop · = true) roots h :=
  DepthFirst.mem_order_iff (fun _ ↦ g.successors_of_not_mem) le_rfl rfl h

end Held

/-! ### Insertion -/

variable [Primitives]

theorem insert_of_contains {g : DeltaDag} {d : SignedDelta}
    (h : g.contains d.contentHash = true) : g.insert d = g := by
  rw [insert, if_pos h]

theorem get_insert (g : DeltaDag) (d : SignedDelta) (h : DeltaHash) :
    (g.insert d).get h =
      if g.contains d.contentHash = true then g.get h
      else if d.contentHash = h then some d else g.get h := by
  by_cases hc : g.contains d.contentHash = true
  · rw [insert_of_contains hc, if_pos hc]
  · rw [insert, if_neg hc, if_neg hc]
    exact OrderedMaps.getElem?_insert g.byHash d.contentHash h d

theorem contains_insert (g : DeltaDag) (d : SignedDelta) (h : DeltaHash) :
    (g.insert d).contains h = true ↔ g.contains h = true ∨ d.contentHash = h := by
  rw [contains_eq_isSome_get, contains_eq_isSome_get, get_insert]
  by_cases hheld : g.contains d.contentHash = true
  · rw [if_pos hheld]
    refine (or_iff_left_of_imp fun heq ↦ ?_).symm
    rwa [← contains_eq_isSome_get, ← heq]
  · rw [if_neg hheld]
    by_cases heq : d.contentHash = h
    · simp [heq]
    · simp [heq]

/-- The indices of a store agree with the deltas that it holds. -/
structure Exact (g : DeltaDag) : Prop where
  keyed : ∀ h d, g.get h = some d → d.contentHash = h
  referenced_iff : ∀ p, p ∈ g.referenced ↔ ∃ h d, g.get h = some d ∧ p ∈ d.parents
  frontier_iff : ∀ h, h ∈ g.frontierSet ↔ g.contains h = true ∧ h ∉ g.referenced

theorem Exact.new : Exact DeltaDag.new where
  keyed h d hget := by simp [get, DeltaDag.new] at hget
  referenced_iff p := by simp [get, DeltaDag.new]
  frontier_iff h := by simp [contains, DeltaDag.new]

/-- Insertion keeps the indices exact, whether the delta arrives before or after its parents. -/
theorem Exact.insert {g : DeltaDag} (hg : Exact g) (d : SignedDelta) : Exact (g.insert d) := by
  by_cases hc : g.contains d.contentHash = true
  · rwa [insert_of_contains hc]
  have hget : ∀ h, (g.insert d).get h = if d.contentHash = h then some d else g.get h := by
    intro h
    rw [get_insert, if_neg hc]
  have hnone : g.get d.contentHash = none := by
    rwa [contains_eq_isSome_get, Option.not_isSome_iff_eq_none] at hc
  have hreferenced : ∀ p, p ∈ (g.insert d).referenced ↔ p ∈ d.parents ∨ p ∈ g.referenced := by
    intro p
    rw [DeltaDag.insert, if_neg hc]
    exact OrderedMaps.mem_insertAll g.referenced d.parents p
  have hfrontier : ∀ h, h ∈ (g.insert d).frontierSet ↔
      (h = d.contentHash ∧ h ∉ (g.insert d).referenced) ∨ (h ∉ d.parents ∧ h ∈ g.frontierSet) := by
    intro h
    rw [hreferenced, DeltaDag.insert, if_neg hc]
    simp only [ExtTreeSet.contains_iff_mem, OrderedMaps.mem_insertAll]
    split_ifs with hmem
    · rw [OrderedMaps.mem_eraseAll]
      constructor
      · exact Or.inr
      · rintro (⟨rfl, hnot⟩ | hold)
        · exact absurd hmem hnot
        · exact hold
    · rw [OrderedMaps.set_mem_insert, OrderedMaps.mem_eraseAll]
      constructor
      · rintro (rfl | hold)
        · exact Or.inl ⟨rfl, hmem⟩
        · exact Or.inr hold
      · rintro (⟨rfl, _⟩ | hold)
        · exact Or.inl rfl
        · exact Or.inr hold
  refine ⟨fun h e he ↦ ?_, fun p ↦ ?_, fun h ↦ ?_⟩
  · rw [hget] at he
    split_ifs at he with heq
    · rw [← Option.some.inj he]
      exact heq
    · exact hg.keyed h e he
  · rw [hreferenced, hg.referenced_iff]
    constructor
    · rintro (hp | ⟨h, e, he, hp⟩)
      · exact ⟨d.contentHash, d, by rw [hget, if_pos rfl], hp⟩
      · refine ⟨h, e, ?_, hp⟩
        rw [hget, if_neg, he]
        rintro rfl
        rw [hnone] at he
        exact absurd he (by simp)
    · rintro ⟨h, e, he, hp⟩
      rw [hget] at he
      split_ifs at he with heq
      · rw [Option.some.inj he]
        exact Or.inl hp
      · exact Or.inr ⟨h, e, he, hp⟩
  · have hheld : (g.insert d).contains h = true ↔ h = d.contentHash ∨ g.contains h = true := by
      rw [contains_iff, contains_iff, hget]
      by_cases heq : d.contentHash = h
      · simp [heq]
      · rw [if_neg heq]
        exact (or_iff_right (Ne.symm heq)).symm
    rw [hfrontier, hheld, hg.frontier_iff, hreferenced]
    tauto

/-- The store rebuilt from a list of deltas. -/
def rebuild (log : List SignedDelta) : DeltaDag := log.foldl DeltaDag.insert DeltaDag.new

theorem rebuild_append (log more : List SignedDelta) :
    rebuild (log ++ more) = more.foldl DeltaDag.insert (rebuild log) :=
  List.foldl_append

theorem rebuild_concat (log : List SignedDelta) (d : SignedDelta) :
    rebuild (log ++ [d]) = (rebuild log).insert d := by
  rw [rebuild_append, List.foldl_cons, List.foldl_nil]

theorem Exact.rebuild (log : List SignedDelta) : Exact (rebuild log) := by
  induction log using List.reverseRecOn with
  | nil => exact Exact.new
  | append_singleton log d ih =>
    rw [rebuild_concat]
    exact ih.insert d

/-- A rebuilt store holds the first delta of every hash. -/
theorem get_rebuild (log : List SignedDelta) (h : DeltaHash) :
    (rebuild log).get h = log.find? fun d ↦ d.contentHash = h := by
  induction log using List.reverseRecOn with
  | nil => simp [DeltaDag.rebuild, get, DeltaDag.new]
  | append_singleton log d ih =>
    rw [rebuild_concat, get_insert, ih, List.find?_append]
    by_cases hheld : log.find? (fun e ↦ e.contentHash = h) = none
    · rw [hheld, Option.none_or]
      by_cases heq : d.contentHash = h
      · have hc : (rebuild log).contains d.contentHash = false := by
          rw [contains_eq_isSome_get, heq, ih, hheld, Option.isSome_none]
        rw [if_neg (by simp [hc]), if_pos heq]
        simp [heq]
      · simp [heq]
    · obtain ⟨e, he⟩ := Option.ne_none_iff_exists'.mp hheld
      rw [he, Option.some_or]
      have hkey : e.contentHash = h := by simpa using List.find?_some he
      by_cases heq : d.contentHash = h
      · have hc : (rebuild log).contains d.contentHash = true := by
          rw [contains_eq_isSome_get, heq, ih, he, Option.isSome_some]
        rw [if_pos hc]
      · rw [if_neg heq, ite_self]

theorem contains_rebuild (log : List SignedDelta) (h : DeltaHash) :
    (rebuild log).contains h = true ↔ ∃ d ∈ log, d.contentHash = h := by
  rw [contains_eq_isSome_get, get_rebuild, List.find?_isSome]
  simp

/-- Assumes: no two deltas of the list have the same hash. -/
theorem get_rebuild_iff {log : List SignedDelta} (hnodup : (log.map SignedDelta.contentHash).Nodup)
    (h : DeltaHash) (d : SignedDelta) :
    (rebuild log).get h = some d ↔ d ∈ log ∧ d.contentHash = h := by
  rw [get_rebuild]
  constructor
  · intro hfind
    exact ⟨List.mem_of_find?_eq_some hfind, by simpa using List.find?_some hfind⟩
  · rintro ⟨hmem, rfl⟩
    have hsome : (log.find? fun e ↦ e.contentHash = d.contentHash).isSome := by
      rw [List.find?_isSome]
      exact ⟨d, hmem, by simp⟩
    obtain ⟨e, he⟩ := Option.isSome_iff_exists.mp hsome
    have hkey : e.contentHash = d.contentHash := by simpa using List.find?_some he
    rw [he, List.inj_on_of_nodup_map hnodup (List.mem_of_find?_eq_some he) hmem hkey]

/-- Assumes: no two deltas of the list have the same hash. -/
theorem mem_values_rebuild {log : List SignedDelta}
    (hnodup : (log.map SignedDelta.contentHash).Nodup) (d : SignedDelta) :
    d ∈ (rebuild log).values ↔ d ∈ log := by
  rw [mem_values_iff]
  constructor
  · rintro ⟨h, hget⟩
    exact ((get_rebuild_iff hnodup h d).mp hget).1
  · exact fun hmem ↦ ⟨d.contentHash, (get_rebuild_iff hnodup _ d).mpr ⟨hmem, rfl⟩⟩

/-- Stores that hold the same hashes, with the same parents, reference the same hashes. -/
theorem referenced_eq_of_held_eq {g g' : DeltaDag} (hg : Exact g) (hg' : Exact g')
    (hheld : ∀ h, g.contains h = g'.contains h)
    (hparents : ∀ h d d', g.get h = some d → g'.get h = some d' → d.parents = d'.parents) :
    g.referenced = g'.referenced := by
  refine ExtTreeSet.ext_mem fun p ↦ ?_
  rw [hg.referenced_iff, hg'.referenced_iff]
  constructor
  · rintro ⟨h, d, hget, hp⟩
    obtain ⟨d', hget'⟩ := (g'.contains_iff h).mp (hheld h ▸ (g.contains_iff h).mpr ⟨d, hget⟩)
    exact ⟨h, d', hget', hparents h d d' hget hget' ▸ hp⟩
  · rintro ⟨h, d', hget', hp⟩
    obtain ⟨d, hget⟩ := (g.contains_iff h).mp (hheld h ▸ (g'.contains_iff h).mpr ⟨d', hget'⟩)
    exact ⟨h, d, hget, hparents h d d' hget hget' ▸ hp⟩

/-- Stores that hold the same hashes, with the same parents, have the same frontier. -/
theorem frontier_eq_of_held_eq {g g' : DeltaDag} (hg : Exact g) (hg' : Exact g')
    (hheld : ∀ h, g.contains h = g'.contains h)
    (hparents : ∀ h d d', g.get h = some d → g'.get h = some d' → d.parents = d'.parents) :
    g.frontierSet = g'.frontierSet := by
  refine ExtTreeSet.ext_mem fun h ↦ ?_
  rw [hg.frontier_iff, hg'.frontier_iff, hheld, referenced_eq_of_held_eq hg hg' hheld hparents]

end DeltaDag

end DidCrdt
