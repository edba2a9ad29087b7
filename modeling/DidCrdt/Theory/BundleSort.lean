import DidCrdt.Theory.BundleOrder

/-!
# Running the sort of a bundle

The source counts and pops over hash maps: they list their entries in any order, looking up a count that
is not there is a failure, and so is a count that falls below zero. `TopoOrder.run` is that program, with
the order of the two listings and the number of iterations as arguments. It never fails, and comes to
`topoOrderBundle` whatever the listings are (`TopoOrder.run_eq`), for any bundle: parents may be repeated,
absent, the delta itself, or in a cycle. So the sort finds an order exactly when the bundle has no cycle
of parents (`topoOrderBundle_sorts`).
-/

set_option autoImplicit false
set_option relaxedAutoImplicit false

namespace DidCrdt

open Std (ExtTreeMap)
open Reconciliation (Acyclic)
open TopologicalOrder (ParentsFirst Stage childrenOf mem_childrenOf waiting waiting_concat)

namespace TopoOrder

/-! ### The program -/

/-- Counts a parent of a delta, if it is in the bundle. -/
def countParent (byHash : BundleIndex) (h : DeltaHash) (es : Edges) (p : DeltaHash) : Option Edges :=
  if byHash.contains p then
    match es.indeg[h]? with
    | none => none
    | some n =>
      some ⟨es.indeg.insert h (n + 1), es.children.alter p fun cs ↦ some (cs.getD [] ++ [h])⟩
  else some es

/-- The counts and the children, from the entries of the bundle in some order. -/
def countEdges (byHash : BundleIndex) (entries : List (DeltaHash × SignedDelta)) : Option Edges :=
  entries.foldlM (fun es entry ↦ entry.2.parents.foldlM (countParent byHash entry.1) es)
    ⟨byHash.map fun _ _ ↦ 0, ∅⟩

/-- Takes one edge off a child that has a count above zero. -/
def decrement (state : ExtTreeMap DeltaHash ℕ compare × List DeltaHash) (c : DeltaHash) :
    Option (ExtTreeMap DeltaHash ℕ compare × List DeltaHash) :=
  match state.1[c]? with
  | some (n + 1) => some (state.1.insert c n, if n = 0 then state.2 ++ [c] else state.2)
  | _ => none

/-- The loop that pops the ready deltas, within a bound on the number of iterations. -/
def drain (children : ExtTreeMap DeltaHash (List DeltaHash) compare) :
    ℕ → ExtTreeMap DeltaHash ℕ compare → List DeltaHash → Option (List DeltaHash)
  | 0, _, _ => none
  | _ + 1, _, [] => some []
  | fuel + 1, indeg, h :: ready => do
    let (indeg, unlocked) ← ((children[h]?).getD []).foldlM decrement (indeg, [])
    let order ← drain children fuel indeg ((unlocked.insertionSort (· ≤ ·)).reverse ++ ready)
    some (h :: order)

/-- The sort, when the bundle lists its entries and the counts are listed in some orders. -/
def run (byHash : BundleIndex) (entries : List (DeltaHash × SignedDelta))
    (listing : List (DeltaHash × ℕ) → List (DeltaHash × ℕ)) (fuel : ℕ) :
    Option (Except Error (List DeltaHash)) := do
  let edges ← countEdges byHash entries
  let ready := (((listing edges.indeg.toList).filter fun entry ↦ entry.2 = 0).map
    Prod.fst).insertionSort (· ≤ ·)
  let order ← drain edges.children fuel edges.indeg ready.reverse
  some (if order.length ≠ byHash.size then
    .error (.deltaRejected "bundle has a parent cycle: tampered") else .ok order)

/-! ### No failure -/

/-- Children with enough edges left can be taken off. -/
theorem foldlM_decrement (cs : List DeltaHash) :
    ∀ state : ExtTreeMap DeltaHash ℕ compare × List DeltaHash,
      (∀ c, cs.count c ≤ (state.1[c]?).getD 0) → cs.foldlM decrement state = some (cs.foldl release state) := by
  induction cs with
  | nil => exact fun _ _ ↦ rfl
  | cons a cs ih =>
    intro state hcounts
    have hstep : decrement state a = some (release state a) := by
      have hcount := hcounts a
      rw [List.count_cons_self] at hcount
      unfold decrement release
      cases hget : state.1[a]? with
      | none => simp [hget] at hcount
      | some n =>
        cases n with
        | zero => simp [hget] at hcount
        | succ n => simp
    rw [List.foldlM_cons, hstep, List.foldl_cons]
    refine ih _ fun c ↦ ?_
    have hcount := hcounts c
    have hvalue := release_value state a c
    rw [← List.singleton_append, List.count_append] at hcount
    omega

/-- The loop pops what Kahn's algorithm pops, when the children are listed in another order. The
induction is on the iterations; the stage bounds what is still ready. -/
theorem drain_eq {keys : List DeltaHash} {edges : List (DeltaHash × DeltaHash)}
    {children listed : ExtTreeMap DeltaHash (List DeltaHash) compare}
    (hchildren : ∀ p, (children[p]?).getD [] = childrenOf edges p)
    (hlisted : ∀ p, ((listed[p]?).getD []).Perm (childrenOf edges p))
    (hkeys : ∀ e ∈ edges, e.1 ∈ keys) (fuel : ℕ) :
    ∀ (more : ℕ) (indeg counts : ExtTreeMap DeltaHash ℕ compare) (out ready : List DeltaHash),
      Stage keys edges out ready → (∀ c, (indeg[c]?).getD 0 = waiting edges out c) →
      (∀ c, (counts[c]?).getD 0 = waiting edges out c) → keys.length ≤ out.length + fuel →
      fuel < more → drain listed more counts ready = some (kahn children fuel indeg ready) := by
  induction fuel with
  | zero =>
    intro more indeg counts out ready hstage _ _ hlength hmore
    have hready : ready = [] := by
      have hsub : out ++ ready ⊆ keys := fun a ha ↦ (List.mem_append.mp ha).elim (hstage.sub a)
        fun ha ↦ ((hstage.ready a).mp ha).1
      have hle := (List.subperm_of_subset hstage.nodup hsub).length_le
      rw [List.length_append] at hle
      exact List.length_eq_zero_iff.mp (by omega)
    obtain ⟨more, rfl⟩ := Nat.exists_eq_add_of_lt hmore
    rw [hready, Nat.zero_add, drain, kahn]
  | succ fuel ih =>
    intro more indeg counts out ready hstage hindeg hcounts hlength hmore
    obtain ⟨more, rfl⟩ := Nat.exists_eq_add_one_of_ne_zero (Nat.ne_of_gt (Nat.zero_lt_of_lt hmore))
    cases ready with
    | nil => rw [drain, kahn]
    | cons h ready =>
      obtain ⟨_, hnext, hnodup, hmem, hpop⟩ := stage_release hkeys hstage hindeg (.refl _)
      obtain ⟨hleft, hnext', hnodup', hmem', _⟩ := stage_release hkeys hstage hcounts (hlisted h)
      -- the listings unlock the same children, which are sorted before they are ready
      have hunlocked := OrderedMaps.insertionSort_congr
        ((List.perm_ext_iff_of_nodup hnodup' hnodup).mpr fun c ↦ (hmem' c).trans (hmem c).symm)
      have hrest := ih more _ _ (out ++ [h]) _ hpop hnext hnext'
        (by rw [List.length_append, List.length_singleton]; omega) (Nat.lt_of_succ_lt_succ hmore)
      rw [drain, kahn, foldlM_decrement _ _ hleft, hchildren]
      simp only [Option.bind_eq_bind, Option.bind_some, hunlocked, hrest]

/-! ### The listings -/

section Listings

variable {byHash : BundleIndex} {entries : List (DeltaHash × SignedDelta)}

/-- The edges of a bundle, as its entries are listed. -/
def listedEdges (byHash : BundleIndex) (entries : List (DeltaHash × SignedDelta)) :
    List (DeltaHash × DeltaHash) :=
  entries.flatMap fun entry ↦ (entry.2.parents.filter byHash.contains).map fun p ↦ (entry.1, p)

/-- Counting never fails on the counts of the bundle. -/
theorem foldlM_countParent (h : DeltaHash) (parents : List DeltaHash) : ∀ es : Edges,
    es.indeg.contains h = true →
      parents.foldlM (countParent byHash h) es =
        some (((parents.filter byHash.contains).map fun p ↦ (h, p)).foldl
          (fun es e ↦ es.add e.1 e.2) es) := by
  induction parents with
  | nil => exact fun _ _ ↦ rfl
  | cons p parents ih =>
    intro es hh
    rw [List.foldlM_cons, List.filter_cons]
    by_cases hp : byHash.contains p = true
    · obtain ⟨n, hget⟩ := (OrderedMaps.contains_iff es.indeg h).mp hh
      have hadd : countParent byHash h es p = some (es.add h p) := by
        rw [countParent, if_pos hp, hget]
        refine congrArg some (congrArg₂ Edges.mk (ExtTreeMap.ext_getElem? fun {c} ↦ ?_) rfl)
        rw [OrderedMaps.getElem?_insert, OrderedMaps.getElem?_modify]
        by_cases hc : h = c
        · subst hc
          rw [if_pos rfl, if_pos rfl, hget, Option.map_some]
        · rw [if_neg hc, if_neg hc]
      rw [hadd, if_pos hp]
      refine ih (es.add h p) ?_
      rw [OrderedMaps.contains_iff]
      exact ⟨n + 1, by simp [Edges.add, hget]⟩
    · rw [countParent, if_neg hp, if_neg hp]
      exact ih es hh

/-- Counting the edges never fails, and counts the edges of the listing. -/
theorem countEdges_eq (hentries : entries.Perm byHash.toList) : countEdges byHash entries =
    some ((listedEdges byHash entries).foldl (fun es e ↦ es.add e.1 e.2)
      ⟨byHash.map fun _ _ ↦ 0, ∅⟩) := by
  have hloop : ∀ (l : List (DeltaHash × SignedDelta)) (es : Edges),
      (∀ entry ∈ l, es.indeg.contains entry.1 = true) →
      l.foldlM (fun es entry ↦ entry.2.parents.foldlM (countParent byHash entry.1) es) es =
        some ((listedEdges byHash l).foldl (fun es e ↦ es.add e.1 e.2) es) := by
    intro l
    induction l with
    | nil => exact fun _ _ ↦ rfl
    | cons entry l ih =>
      intro es hcounted
      rw [List.foldlM_cons, foldlM_countParent _ _ es (hcounted entry List.mem_cons_self)]
      rw [listedEdges, List.flatMap_cons, List.foldl_append]
      refine ih _ fun other hother ↦ ?_
      rw [OrderedMaps.contains_iff, (foldl_add _ es).1]
      obtain ⟨n, hget⟩ := (OrderedMaps.contains_iff es.indeg other.1).mp
        (hcounted other (List.mem_cons_of_mem entry hother))
      exact ⟨_, by rw [hget, Option.map_some]⟩
  refine hloop entries _ fun entry hentry ↦ ?_
  have hget := (OrderedMaps.mem_toList_iff byHash entry.1 entry.2).mp (hentries.mem_iff.mp hentry)
  exact (OrderedMaps.contains_iff _ entry.1).mpr ⟨0, by simp [hget]⟩

/-- Assumes: the bundle and the counts are listed in some orders, and there are more iterations than
deltas. The program comes to the sort of the model. -/
theorem run_eq (hentries : entries.Perm byHash.toList)
    {listing : List (DeltaHash × ℕ) → List (DeltaHash × ℕ)} (hlisting : ∀ l, (listing l).Perm l)
    {fuel : ℕ} (hfuel : byHash.size < fuel) :
    run byHash entries listing fuel = some (topoOrderBundle byHash) := by
  have hperm : (listedEdges byHash entries).Perm (edgeList byHash) := hentries.flatMap_right _
  set listed : Edges := (listedEdges byHash entries).foldl (fun es e ↦ es.add e.1 e.2)
    ⟨byHash.map fun _ _ ↦ 0, ∅⟩ with hlisted
  have hindeg : listed.indeg = (edges byHash).indeg := by
    refine ExtTreeMap.ext_getElem? fun {c} ↦ ?_
    rw [hlisted, edges_eq, (foldl_add _ _).1, (foldl_add _ _).1, hperm.countP_eq]
  have hchildren : ∀ p, ((listed.children[p]?).getD []).Perm (childrenOf (edgeList byHash) p) := by
    intro p
    rw [hlisted, (foldl_add _ _).2 p]
    simpa [childrenOf] using (hperm.filter _).map Prod.fst
  have hready := OrderedMaps.insertionSort_congr (((hlisting (edges byHash).indeg.toList).filter
    fun entry ↦ entry.2 = 0).map Prod.fst)
  have hdrain := drain_eq (children_edges byHash) hchildren (child_mem_keys byHash) byHash.size fuel
    _ _ [] _ (stage_start byHash) (waiting_edges byHash) (waiting_edges byHash)
    (by rw [ExtTreeMap.length_keys]; exact Nat.le_add_left _ _) hfuel
  rw [run, countEdges_eq hentries, ← hlisted]
  simp only [Option.bind_eq_bind, Option.bind_some, hindeg, hready, hdrain]
  rfl

end Listings

end TopoOrder

/-- Assumes: the bundle and the counts are listed in some orders, and there are more iterations than
deltas. The sort of any bundle ends without a failure, and its result does not depend on the listings. It
finds an order if and only if the bundle has no cycle of parents; the order then has every hash of the
bundle once, and every in-bundle parent before its child. -/
theorem topoOrderBundle_sorts (byHash : BundleIndex) {entries : List (DeltaHash × SignedDelta)}
    (hentries : entries.Perm byHash.toList)
    {listing : List (DeltaHash × ℕ) → List (DeltaHash × ℕ)} (hlisting : ∀ l, (listing l).Perm l)
    {fuel : ℕ} (hfuel : byHash.size < fuel) :
    TopoOrder.run byHash entries listing fuel = some (topoOrderBundle byHash) ∧
    ((∃ order, topoOrderBundle byHash = .ok order) ↔ Acyclic byHash.Names) ∧
    ∀ order, topoOrderBundle byHash = .ok order → order.Nodup ∧
      (∀ h, h ∈ order ↔ byHash.contains h = true) ∧
      ∀ h p, byHash.Names h p → order.idxOf p < order.idxOf h := by
  have hsorted : ∀ order, topoOrderBundle byHash = .ok order → order.Nodup ∧
      (∀ h, h ∈ order ↔ byHash.contains h = true) ∧
      ∀ h p, byHash.Names h p → order.idxOf p < order.idxOf h := by
    intro order hok
    obtain ⟨hperm, hordered⟩ := topoOrderBundle_spec hok
    have hmem : ∀ h, h ∈ order ↔ byHash.contains h = true := fun h ↦ by
      rw [hperm.mem_iff, OrderedMaps.mem_keys_iff, OrderedMaps.contains_iff]
    refine ⟨hperm.symm.nodup ExtTreeMap.nodup_keys, hmem, fun h p hnames ↦ ?_⟩
    have hh : h ∈ order := (hmem h).mpr ((OrderedMaps.contains_iff byHash h).mpr
      ⟨_, hnames.choose_spec.1⟩)
    simpa using ParentsFirst.idxOf_lt hnames order [] hordered List.not_mem_nil hh
  refine ⟨TopoOrder.run_eq hentries hlisting hfuel, ⟨?_, topoOrderBundle_eq_ok⟩, hsorted⟩
  rintro ⟨order, hok⟩
  exact .of_rank order.idxOf (hsorted order hok).2.2

section Readable

attribute [local instance] Primitives.readable

/-- A bundle whose second delta names the first twice and a hash outside, listed backwards. -/
theorem topoOrderBundle_sorts_repeated :
    let first := SignedDelta.readable "did:crdt:u7" "k" "u7" 1 55 .deactivate []
    let second := SignedDelta.readable "did:crdt:u7" "k" "u7" 2 55 .deactivate
      ["1.0.55", "1.0.55", "0.0.0"]
    let byHash : BundleIndex := Document.indexBundle [first, second]
    TopoOrder.run byHash byHash.toList.reverse List.reverse 3 =
      some (.ok [⟨"1.0.55"⟩, ⟨"2.0.55"⟩]) := by
  intro first second byHash
  have hsize : byHash.size < 3 := by decide
  rw [(topoOrderBundle_sorts byHash (List.reverse_perm _) List.reverse_perm hsize).1]
  decide

end Readable

end DidCrdt
