import DidCrdt.Library.TopologicalOrder
import DidCrdt.Core.Document

/-!
# The order of a bundle

`topoOrderBundle` counts the in-bundle parents of every delta and pops deltas whose count is zero. The
order it finds lists every hash of the bundle once, after its in-bundle parents (`topoOrderBundle_spec`),
and it finds one whenever the bundle has no cycle of parents (`topoOrderBundle_eq_ok`).
-/

set_option autoImplicit false
set_option relaxedAutoImplicit false

namespace DidCrdt

open Std (ExtTreeMap)
open Reconciliation (Acyclic)
open TopologicalOrder (ParentsFirst Stage childrenOf mem_childrenOf waiting waiting_concat)

/-- The delta of the bundle with the hash names the other hash of the bundle as a parent. -/
def BundleIndex.Names (byHash : BundleIndex) (h p : DeltaHash) : Prop :=
  ∃ d, byHash[h]? = some d ∧ p ∈ d.parents ∧ byHash.contains p = true

namespace TopoOrder

/-! ### The edges -/

/-- The edges of a bundle, children before parents. -/
def edgeList (byHash : BundleIndex) : List (DeltaHash × DeltaHash) :=
  byHash.toList.flatMap fun entry ↦
    (entry.2.parents.filter byHash.contains).map fun p ↦ (entry.1, p)

theorem mem_edgeList {byHash : BundleIndex} {h p : DeltaHash} :
    (h, p) ∈ edgeList byHash ↔ byHash.Names h p := by
  simp only [edgeList, List.mem_flatMap, List.mem_map, List.mem_filter, Prod.mk.injEq, Prod.exists]
  constructor
  · rintro ⟨h', d, hentry, p', ⟨hp, hin⟩, rfl, rfl⟩
    exact ⟨d, (OrderedMaps.mem_toList_iff byHash h' d).mp hentry, hp, hin⟩
  · rintro ⟨d, hget, hp, hin⟩
    exact ⟨h, d, (OrderedMaps.mem_toList_iff byHash h d).mpr hget, p, ⟨hp, hin⟩, rfl, rfl⟩

theorem edges_eq (byHash : BundleIndex) :
    edges byHash = (edgeList byHash).foldl (fun es e ↦ es.add e.1 e.2)
      ⟨byHash.map fun _ _ ↦ 0, ∅⟩ := by
  rw [edgeList, List.foldl_flatMap, edges]
  congr 1
  funext es entry
  rw [List.foldl_map, List.foldl_filter]

/-- The counts and the children after some edges. -/
theorem foldl_add (l : List (DeltaHash × DeltaHash)) : ∀ es : Edges,
    (∀ c, (l.foldl (fun es e ↦ es.add e.1 e.2) es).indeg[c]? =
      es.indeg[c]?.map (· + l.countP fun e ↦ e.1 = c)) ∧
    ∀ p, ((l.foldl (fun es e ↦ es.add e.1 e.2) es).children[p]?).getD [] =
      (es.children[p]?).getD [] ++ childrenOf l p := by
  induction l with
  | nil => exact fun es ↦ ⟨fun c ↦ by simp, fun p ↦ by simp [childrenOf]⟩
  | cons e l ih =>
    intro es
    obtain ⟨hcounts, hchildren⟩ := ih (es.add e.1 e.2)
    refine ⟨fun c ↦ ?_, fun p ↦ ?_⟩
    · rw [List.foldl_cons, hcounts]
      unfold Edges.add
      rw [OrderedMaps.getElem?_modify, List.countP_cons]
      by_cases hchild : e.1 = c
      · rw [if_pos hchild, if_pos (by simpa using hchild), Option.map_map]
        congr 1
        funext n
        change n + 1 + _ = n + (_ + 1)
        omega
      · rw [if_neg hchild, if_neg (by simpa using hchild)]
        rfl
    · rw [List.foldl_cons, hchildren]
      unfold Edges.add childrenOf
      rw [OrderedMaps.getElem?_alter, List.filter_cons]
      by_cases hparent : e.2 = p
      · simp [hparent]
      · simp [hparent]

variable {byHash : BundleIndex}

theorem children_edges (byHash : BundleIndex) (p : DeltaHash) :
    ((edges byHash).children[p]?).getD [] = childrenOf (edgeList byHash) p := by
  rw [edges_eq, (foldl_add _ _).2 p]
  simp

theorem indeg_edges (byHash : BundleIndex) (c : DeltaHash) :
    (edges byHash).indeg[c]? = byHash[c]?.map fun _ ↦ waiting (edgeList byHash) [] c := by
  rw [edges_eq, (foldl_add _ _).1 c]
  simp [waiting, Option.map_map, Function.comp_def]

/-- The counts at the start are those of the waiting edges. -/
theorem waiting_edges (byHash : BundleIndex) (c : DeltaHash) :
    ((edges byHash).indeg[c]?).getD 0 = waiting (edgeList byHash) [] c := by
  rw [indeg_edges]
  cases hget : byHash[c]? with
  | some d => rfl
  | none =>
    refine (TopologicalOrder.waiting_eq_zero_iff.mpr fun p hp ↦ ?_).symm
    obtain ⟨d, hget', _⟩ := mem_edgeList.mp hp
    rw [hget] at hget'
    exact absurd hget' (by simp)

/-- The child of an edge is in the bundle. -/
theorem child_mem_keys (byHash : BundleIndex) : ∀ e ∈ edgeList byHash, e.1 ∈ byHash.keys := by
  rintro ⟨c, p⟩ he
  obtain ⟨d, hget, _⟩ := mem_edgeList.mp he
  exact (OrderedMaps.mem_keys_iff byHash c).mpr ⟨d, hget⟩

/-! ### Kahn's algorithm -/

theorem release_value (state : ExtTreeMap DeltaHash ℕ compare × List DeltaHash) (a c : DeltaHash) :
    ((release state a).1[c]?).getD 0 = (state.1[c]?).getD 0 - [a].count c := by
  unfold release
  rw [OrderedMaps.getElem?_insert]
  by_cases hac : a = c
  · simp [hac]
  · simp [hac]

/-- Releasing the children of a popped delta takes their edges off the counts and unlocks those that
wait for nothing. -/
theorem foldl_release (cs : List DeltaHash) : ∀ state : ExtTreeMap DeltaHash ℕ compare × List DeltaHash,
    (∀ c, cs.count c ≤ (state.1[c]?).getD 0) →
    (∀ c, ((cs.foldl release state).1[c]?).getD 0 = (state.1[c]?).getD 0 - cs.count c) ∧
    ∃ unlocked, (cs.foldl release state).2 = state.2 ++ unlocked ∧ unlocked.Nodup ∧
      ∀ c, c ∈ unlocked ↔ c ∈ cs ∧ ((cs.foldl release state).1[c]?).getD 0 = 0 := by
  induction cs with
  | nil => exact fun state _ ↦ ⟨fun c ↦ rfl, [], by simp⟩
  | cons a cs ih =>
    intro state hcounts
    have hvalue := release_value state a
    have hsplit : ∀ c, ([a] ++ cs).count c = [a].count c + cs.count c := fun c ↦ List.count_append
    rw [List.singleton_append] at hsplit
    have hrest : ∀ c, cs.count c ≤ ((release state a).1[c]?).getD 0 := by
      intro c
      have hcount := hcounts c
      rw [hsplit] at hcount
      rw [hvalue]
      omega
    obtain ⟨hfinal, unlocked, hunlocked, hnodup, hmem⟩ := ih (release state a) hrest
    refine ⟨fun c ↦ ?_, ?_⟩
    · rw [List.foldl_cons, hfinal, hvalue, hsplit]
      omega
    have hcount := hcounts a
    have hlast := hfinal a
    rw [hvalue, List.count_singleton_self] at hlast
    rw [List.count_cons_self] at hcount
    rw [List.foldl_cons, hunlocked]
    by_cases hzero : (state.1[a]?).getD 0 - 1 = 0
    · -- the last edge of the child: it is unlocked now, and not again
      have hunlock : (release state a).2 = state.2 ++ [a] := by
        unfold release
        exact if_pos hzero
      have hnone : a ∉ cs := List.count_eq_zero.mp (by omega)
      refine ⟨a :: unlocked, by rw [hunlock]; simp, ?_, fun c ↦ ?_⟩
      · exact List.nodup_cons.mpr ⟨fun ha ↦ hnone ((hmem a).mp ha).1, hnodup⟩
      · rw [List.mem_cons, List.mem_cons, hmem]
        have hreleased : c = a → (((cs.foldl release (release state a)).1)[c]?).getD 0 = 0 := by
          rintro rfl
          omega
        tauto
    · have hunlock : (release state a).2 = state.2 := by
        unfold release
        exact if_neg hzero
      refine ⟨unlocked, by rw [hunlock], hnodup, fun c ↦ ?_⟩
      rw [List.mem_cons, hmem]
      have hlater : c = a → (((cs.foldl release (release state a)).1)[c]?).getD 0 = 0 → c ∈ cs := by
        rintro rfl hreleased
        exact List.count_pos_iff.mp (by omega)
      tauto

/-- Popping a ready delta: its children, in any order, have edges left to take off. Those that wait for
nothing from then on are unlocked, each once, and are ready next. -/
theorem stage_release {keys : List DeltaHash} {edges : List (DeltaHash × DeltaHash)}
    (hkeys : ∀ e ∈ edges, e.1 ∈ keys) {indeg : ExtTreeMap DeltaHash ℕ compare}
    {out ready cs : List DeltaHash} {h : DeltaHash} (hstage : Stage keys edges out (h :: ready))
    (hcounts : ∀ c, (indeg[c]?).getD 0 = waiting edges out c) (hcs : cs.Perm (childrenOf edges h)) :
    (∀ c, cs.count c ≤ (indeg[c]?).getD 0) ∧
    (∀ c, (((cs.foldl release (indeg, [])).1)[c]?).getD 0 = waiting edges (out ++ [h]) c) ∧
    (cs.foldl release (indeg, [])).2.Nodup ∧
    (∀ c, c ∈ (cs.foldl release (indeg, [])).2 ↔
      c ∈ childrenOf edges h ∧ waiting edges (out ++ [h]) c = 0) ∧
    Stage keys edges (out ++ [h])
      (((cs.foldl release (indeg, [])).2.insertionSort (· ≤ ·)).reverse ++ ready) := by
  have hnew : h ∉ out := ((hstage.ready h).mp List.mem_cons_self).2.1
  have hwaiting := fun c ↦ waiting_concat edges c hnew
  have hleft : ∀ c, cs.count c ≤ (indeg[c]?).getD 0 := by
    intro c
    rw [hcounts, hcs.count_eq]
    exact (hwaiting c).symm ▸ Nat.le_add_left _ _
  obtain ⟨hvalues, unlocked, hunlocked, hnodup, hmem⟩ := foldl_release cs (indeg, []) hleft
  have hnext : ∀ c, (((cs.foldl release (indeg, [])).1)[c]?).getD 0 =
      waiting edges (out ++ [h]) c := by
    intro c
    have hcount := hwaiting c
    rw [hvalues, hcounts, hcs.count_eq]
    omega
  rw [List.nil_append] at hunlocked
  rw [hunlocked]
  have hiff : ∀ c, c ∈ unlocked ↔ c ∈ childrenOf edges h ∧ waiting edges (out ++ [h]) c = 0 :=
    fun c ↦ by rw [hmem, hnext, hcs.mem_iff]
  refine ⟨hleft, hnext, hnodup, hiff, hstage.pop hkeys hiff hnodup (List.Perm.append_right ready ?_)⟩
  exact (List.reverse_perm _).trans (List.perm_insertionSort _ _)

/-- Kahn's algorithm from a stage: the order found completes the popped elements, parents first, up to a
stage at which nothing is ready or the fuel is spent. -/
theorem kahn_spec {keys : List DeltaHash} {edges : List (DeltaHash × DeltaHash)}
    {children : ExtTreeMap DeltaHash (List DeltaHash) compare}
    (hchildren : ∀ p, (children[p]?).getD [] = childrenOf edges p) (hkeys : ∀ e ∈ edges, e.1 ∈ keys)
    (fuel : ℕ) : ∀ (indeg : ExtTreeMap DeltaHash ℕ compare) (out ready : List DeltaHash),
    Stage keys edges out ready → (∀ c, (indeg[c]?).getD 0 = waiting edges out c) →
    ParentsFirst (fun c p ↦ (c, p) ∈ edges) out (kahn children fuel indeg ready) ∧
    ∃ rest, Stage keys edges (out ++ kahn children fuel indeg ready) rest ∧
      (rest = [] ∨ (kahn children fuel indeg ready).length = fuel) := by
  induction fuel with
  | zero =>
    intro indeg out ready hstage _
    exact ⟨trivial, ready, by rwa [kahn, List.append_nil], Or.inr rfl⟩
  | succ fuel ih =>
    intro indeg out ready hstage hcounts
    cases ready with
    | nil => exact ⟨trivial, [], by rwa [kahn, List.append_nil], Or.inl rfl⟩
    | cons h ready =>
      obtain ⟨_, hnext, _, _, hpop⟩ := stage_release hkeys hstage hcounts (.refl _)
      rw [kahn, hchildren]
      obtain ⟨hordered, rest, hlast, hend⟩ := ih _ (out ++ [h]) _ hpop hnext
      refine ⟨⟨fun p hp ↦ hstage.parents hp, hordered⟩, rest, ?_, hend.imp_right fun hlength ↦ ?_⟩
      · rwa [List.append_assoc, List.singleton_append] at hlast
      · rw [List.length_cons, hlength]

/-- The ready deltas at the start. -/
theorem stage_start (byHash : BundleIndex) :
    Stage byHash.keys (edgeList byHash) []
      ((((edges byHash).indeg.toList.filter fun entry ↦ entry.2 = 0).map
        Prod.fst).insertionSort (· ≤ ·)).reverse := by
  have hkeys : ((edges byHash).indeg.toList.map Prod.fst).Nodup := by
    refine List.pairwise_map.mpr (ExtTreeMap.distinct_keys_toList.imp fun hne heq ↦ hne ?_)
    exact Std.LawfulEqCmp.compare_eq_iff_eq.mpr heq
  refine ⟨?_, fun a ha ↦ absurd ha List.not_mem_nil, fun a ha ↦ absurd ha List.not_mem_nil,
    fun a ↦ ?_⟩
  · rw [List.nil_append, List.nodup_reverse, (List.perm_insertionSort _ _).nodup_iff]
    exact hkeys.sublist (List.filter_sublist.map Prod.fst)
  · rw [List.mem_reverse, List.mem_insertionSort, List.mem_map, OrderedMaps.mem_keys_iff]
    constructor
    · rintro ⟨⟨c, n⟩, hentry, rfl⟩
      obtain ⟨hentry, hzero⟩ := List.mem_filter.mp hentry
      rw [OrderedMaps.mem_toList_iff, indeg_edges, Option.map_eq_some_iff] at hentry
      obtain ⟨d, hget, rfl⟩ := hentry
      exact ⟨⟨d, hget⟩, List.not_mem_nil, of_decide_eq_true hzero⟩
    · rintro ⟨⟨d, hget⟩, _, hzero⟩
      refine ⟨(a, 0), List.mem_filter.mpr ⟨?_, decide_eq_true rfl⟩, rfl⟩
      rw [OrderedMaps.mem_toList_iff, indeg_edges, hget, Option.map_some, hzero]

end TopoOrder

/-! ### The order of a bundle -/

variable {byHash : BundleIndex} {order : List DeltaHash}

/-- What `topoOrderBundle` runs: the order found, and the stage at its end. -/
theorem TopoOrder.kahn_bundle (byHash : BundleIndex) :
    ∃ order rest, ParentsFirst byHash.Names [] order ∧
      Stage byHash.keys (TopoOrder.edgeList byHash) order rest ∧
      (rest = [] ∨ order.length = byHash.size) ∧
      topoOrderBundle byHash = if order.length ≠ byHash.size then
        .error (.deltaRejected "bundle has a parent cycle: tampered") else .ok order := by
  obtain ⟨hordered, rest, hstage, hend⟩ := TopoOrder.kahn_spec (TopoOrder.children_edges byHash)
    (TopoOrder.child_mem_keys byHash) byHash.size _ _ _ (TopoOrder.stage_start byHash)
    (TopoOrder.waiting_edges byHash)
  rw [List.nil_append] at hstage
  refine ⟨_, rest, ?_, hstage, hend, rfl⟩
  exact hordered.imp (fun a p ↦ TopoOrder.mem_edgeList.mpr) _ _

/-- The order lists every hash of the bundle once, after its in-bundle parents. -/
theorem topoOrderBundle_spec (hok : topoOrderBundle byHash = .ok order) :
    order.Perm byHash.keys ∧ ParentsFirst byHash.Names [] order := by
  obtain ⟨found, rest, hordered, hstage, _, hresult⟩ := TopoOrder.kahn_bundle byHash
  rw [hresult] at hok
  split_ifs at hok with hlength
  obtain rfl := Except.ok.inj hok
  refine ⟨?_, hordered⟩
  have hnodup : found.Nodup := (List.nodup_append.mp hstage.nodup).1
  refine (List.subperm_of_subset hnodup hstage.sub).perm_of_length_le ?_
  rw [not_not.mp hlength, ExtTreeMap.length_keys]

/-- Assumes: the bundle has no cycle of parents. An order is found. -/
theorem topoOrderBundle_eq_ok (hacyclic : Acyclic byHash.Names) :
    ∃ order, topoOrderBundle byHash = .ok order := by
  obtain ⟨found, rest, _, hstage, hend, hresult⟩ := TopoOrder.kahn_bundle byHash
  refine ⟨found, ?_⟩
  rw [hresult, if_neg]
  rw [not_not]
  rcases hend with rfl | hlength
  · have hparents : ∀ e ∈ TopoOrder.edgeList byHash, e.2 ∈ byHash.keys := by
      rintro ⟨c, p⟩ he
      obtain ⟨d, _, _, hin⟩ := TopoOrder.mem_edgeList.mp he
      exact (OrderedMaps.mem_keys_iff byHash p).mpr ((OrderedMaps.contains_iff byHash p).mp hin)
    have hcovers := hstage.covers hparents (by simpa only [TopoOrder.mem_edgeList] using hacyclic)
    have hnodup : found.Nodup := (List.nodup_append.mp hstage.nodup).1
    have hle := (List.subperm_of_subset hnodup hstage.sub).length_le
    have hge := (List.subperm_of_subset ExtTreeMap.nodup_keys hcovers).length_le
    rw [ExtTreeMap.length_keys] at hle hge
    omega
  · exact hlength

end DidCrdt
