import DidCrdt.Library.Reconciliation
import DidCrdt.Theory.AntiEntropy

/-!
# Reconciliation by frontiers

A replica names the hashes it lacks: the heads of its peer that it does not hold, and the absent
parents of what it does hold. For each of them the peer extracts a closure, pruned at the frontier that
the replica has by then, and the replica merges it.

The frontier at which a closure is pruned may hold deltas whose parents are missing. What carries the
argument is that everything that came in since the start has its parents held (`PullState.pulled`), and
that a head which came in since was a target (`PullState.heads`), so that no later target is pruned.
-/

set_option autoImplicit false
set_option relaxedAutoImplicit false

namespace DidCrdt

open Reconciliation (Acyclic Pulled)

section

variable [Primitives]

/-! ### Stores of one history -/

namespace DeltaDag

theorem contains_foldl_insert (more : List SignedDelta) : ∀ (g : DeltaDag) (h : DeltaHash),
    (more.foldl insert g).contains h = true ↔
      g.contains h = true ∨ h ∈ more.map SignedDelta.contentHash := by
  induction more with
  | nil => simp
  | cons d more ih =>
    intro g h
    rw [List.foldl_cons, ih, contains_insert, List.map_cons, List.mem_cons, or_assoc,
      eq_comm (a := h)]

theorem Exact.foldl_insert (more : List SignedDelta) : ∀ g : DeltaDag, Exact g →
    Exact (more.foldl DeltaDag.insert g) := by
  induction more with
  | nil => exact fun g hg ↦ hg
  | cons d more ih => exact fun g hg ↦ ih _ (hg.insert d)

/-- What a store holds after insertions comes from it or from the insertions. -/
theorem get_foldl_insert (more : List SignedDelta) : ∀ (g : DeltaDag) (h : DeltaHash)
    (d : SignedDelta), (more.foldl insert g).get h = some d → g.get h = some d ∨ d ∈ more := by
  induction more with
  | nil => exact fun g h d hget ↦ Or.inl hget
  | cons e more ih =>
    intro g h d hget
    rcases ih _ h d hget with hget | hmem
    · rw [get_insert] at hget
      split_ifs at hget with hheld heq
      · exact Or.inl hget
      · exact Or.inr (Option.some.inj hget ▸ List.mem_cons_self)
      · exact Or.inl hget
    · exact Or.inr (List.mem_cons_of_mem e hmem)

/-- The hashes held. -/
def heldSet (g : DeltaDag) : Set DeltaHash := {h | g.contains h = true}

/-- The store is built of deltas of the collection. -/
structure Within (deltas : Set SignedDelta) (g : DeltaDag) : Prop where
  exact : Exact g
  source : ∀ h d, g.get h = some d → d ∈ deltas

/-- Every parent of a held delta is held. -/
def ParentsHeld (g : DeltaDag) : Prop :=
  ∀ h d, g.get h = some d → ∀ p ∈ d.parents, g.contains p = true

theorem Within.rebuild {deltas : Set SignedDelta} {log : List SignedDelta}
    (h : ∀ d ∈ log, d ∈ deltas) : Within deltas (.rebuild log) where
  exact := .rebuild log
  source hash d hget := by
    rw [get_rebuild] at hget
    exact h d (List.mem_of_find?_eq_some hget)

/-- Deltas whose parents are listed before them make no cycle. -/
theorem acyclic_of_listed {log : List SignedDelta} (hashes : List DeltaHash)
    (hbefore : ∀ d ∈ log, ∀ p ∈ d.parents, hashes.idxOf p < hashes.idxOf d.contentHash) :
    Acyclic (NamesParent (members log)) := by
  refine .of_rank hashes.idxOf ?_
  rintro h p ⟨d, hd, rfl, hp⟩
  exact hbefore d hd p hp

/-- The parents of what a list of deltas leaves in a store are held when the list has them. -/
theorem ParentsHeld.of_forall {log : List SignedDelta}
    (h : ∀ d ∈ log, ∀ p ∈ d.parents, (rebuild log).contains p = true) :
    ParentsHeld (.rebuild log) := by
  intro hash d hget
  rw [get_rebuild] at hget
  exact h d (List.mem_of_find?_eq_some hget)

section Within

variable {deltas : Set SignedDelta} {g : DeltaDag} {h p : DeltaHash}

omit [Primitives] in
theorem finite_heldSet (g : DeltaDag) : g.heldSet.Finite := by
  refine (List.finite_toSet g.byHash.keys).subset fun h hh ↦ ?_
  exact (OrderedMaps.mem_keys_iff g.byHash h).mpr ((g.contains_iff h).mp hh)

/-- Assumes: the deltas do not collide. The parents of a held hash are those of the held delta. -/
theorem Within.mem_successors_iff (hg : Within deltas g) (hfree : CollisionFree deltas)
    (hheld : g.contains h = true) : p ∈ g.successors h ↔ NamesParent deltas h p := by
  obtain ⟨d, hget⟩ := (g.contains_iff h).mp hheld
  have hkey := hg.exact.keyed h d hget
  rw [successors, hget]
  constructor
  · exact fun hp ↦ ⟨d, hg.source h d hget, hkey, hp⟩
  · rintro ⟨e, he, hkey', hp⟩
    rwa [hfree.parents_eq he (hg.source h d hget) (hkey'.trans hkey.symm)] at hp

theorem Within.referenced_iff (hg : Within deltas g) (hfree : CollisionFree deltas) :
    p ∈ g.referenced ↔ ∃ h, g.contains h = true ∧ NamesParent deltas h p := by
  rw [hg.exact.referenced_iff]
  constructor
  · rintro ⟨h, d, hget, hp⟩
    exact ⟨h, (g.contains_iff h).mpr ⟨d, hget⟩, d, hg.source h d hget, hg.exact.keyed h d hget, hp⟩
  · rintro ⟨h, hheld, hnames⟩
    obtain ⟨d, hget⟩ := (g.contains_iff h).mp hheld
    have hp := (hg.mem_successors_iff hfree hheld).mpr hnames
    rw [successors, hget] at hp
    exact ⟨h, d, hget, hp⟩

theorem ParentsHeld.names (hclosed : ParentsHeld g) (hg : Within deltas g)
    (hfree : CollisionFree deltas) (hheld : g.contains h = true) (hnames : NamesParent deltas h p) :
    g.contains p = true := by
  obtain ⟨d, hget⟩ := (g.contains_iff h).mp hheld
  have hp := (hg.mem_successors_iff hfree hheld).mpr hnames
  rw [successors, hget] at hp
  exact hclosed h d hget p hp

end Within

end DeltaDag

/-! ### One pull -/

namespace DeltaDag

/-- Asks the source for the closures of some hashes, each pruned at the frontier by then, and merges
them one after the other. -/
def pull (source : DeltaDag) : List DeltaHash → DeltaDag → Except Error DeltaDag
  | [], g => .ok g
  | h :: wanted, g =>
    match source.extractClosure h g.frontier with
    | .error e => .error e
    | .ok bundle =>
      match g.mergeBundle bundle with
      | (_, .error e) => .error e
      | (g, .ok _) => source.pull wanted g

/-- The hashes to ask the source for, as far as it holds them. -/
def wantedFrom (g source : DeltaDag) : List DeltaHash :=
  (g.missingFromFrontier source.frontier).filter source.contains

omit [Primitives] in
theorem mem_wantedFrom_iff (g source : DeltaDag) (h : DeltaHash) :
    h ∈ g.wantedFrom source ↔ source.contains h = true ∧ g.contains h = false ∧
      (h ∈ source.frontierSet ∨ h ∈ g.referenced) := by
  rw [wantedFrom, List.mem_filter, missingFromFrontier, OrderedMaps.mem_sortDedup, List.mem_append,
    List.mem_filter, incompleteAncestors, List.mem_insertionSort, List.mem_filter, mem_frontier,
    Std.ExtTreeSet.mem_toList, Bool.not_eq_true']
  tauto

/-- A pull under way: everything that came in came from the source and has its parents held, and the
heads that came in were targets. -/
structure PullState (deltas : Set SignedDelta) (old source g : DeltaDag) (done : List DeltaHash) :
    Prop where
  within : Within deltas g
  pulled : Pulled (NamesParent deltas) old.heldSet g.heldSet
  bounded : ∀ h, g.contains h = true → old.contains h = true ∨ source.contains h = true
  heads : ∀ h ∈ g.frontierSet, old.contains h = true ∨ h ∈ done
  targets : ∀ h ∈ done, g.contains h = true

section Pull

variable {deltas : Set SignedDelta} {old source g : DeltaDag} {done : List DeltaHash} {h : DeltaHash}

theorem PullState.start (hold : Within deltas old) : PullState deltas old source old [] where
  within := hold
  pulled := .refl _
  bounded _ hh := Or.inl hh
  heads h hh := Or.inl ((hold.exact.frontier_iff h).mp hh).1
  targets _ hh := absurd hh List.not_mem_nil

/-- The parent of a visited hash is visited, or is a head at which the closure is pruned. -/
theorem mem_visits_of_names (hfree : CollisionFree deltas) (hsource : Within deltas source)
    (hclosed : ParentsHeld source) (hheld : source.contains h = true) {stop : List DeltaHash}
    {a p : DeltaHash} (ha : a ∈ source.visits (fun h ↦ stop.contains h) [h])
    (hnames : NamesParent deltas a p) :
    source.contains a = true ∧
      (p ∈ stop ∨ p ∈ source.visits (fun h ↦ stop.contains h) [h]) := by
  have hreach := (source.mem_visits_iff _ _ a).mp ha
  have hin : source.contains a = true := by
    refine hreach.closed (fun b hb ↦ List.mem_singleton.mp hb ▸ hheld) fun b hb c hc ↦ ?_
    exact hclosed.names hsource hfree hb ((hsource.mem_successors_iff hfree hb).mp hc)
  refine ⟨hin, ?_⟩
  by_cases hstop : p ∈ stop
  · exact Or.inl hstop
  · refine Or.inr ((source.mem_visits_iff _ _ p).mpr (.step hreach ?_ (by simpa using hstop)))
    exact (hsource.mem_successors_iff hfree hin).mpr hnames

omit [Primitives] in
/-- Every visited hash is held by a source that holds the parents of what it holds. -/
theorem contains_of_mem_visits (hclosed : ParentsHeld source) (hheld : source.contains h = true)
    {stop : List DeltaHash} {a : DeltaHash}
    (ha : a ∈ source.visits (fun h ↦ stop.contains h) [h]) : source.contains a = true := by
  refine ((source.mem_visits_iff _ _ a).mp ha).closed
    (fun b hb ↦ List.mem_singleton.mp hb ▸ hheld) fun b hb c hc ↦ ?_
  obtain ⟨d, hget⟩ := (source.contains_iff b).mp hb
  rw [successors, hget] at hc
  exact hclosed b d hget c hc

/-- The hashes of the closure are those visited. -/
theorem map_contentHash_closure (hsource : Within deltas source) {visited : List DeltaHash}
    (hheld : ∀ a ∈ visited, source.contains a = true) (a : DeltaHash) :
    a ∈ (visited.filterMap source.get).map SignedDelta.contentHash ↔ a ∈ visited := by
  simp only [List.mem_map, List.mem_filterMap]
  constructor
  · rintro ⟨d, ⟨b, hb, hget⟩, rfl⟩
    rwa [hsource.exact.keyed b d hget]
  · intro ha
    obtain ⟨d, hget⟩ := (source.contains_iff a).mp (hheld a ha)
    exact ⟨d, ⟨a, ha, hget⟩, hsource.exact.keyed a d hget⟩

/-- Assumes: the bundle holds its target and every parent is in it or held. The bundle is merged. -/
theorem mergeBundle_eq_ok {bundle : ClosureBundle}
    (htarget : bundle.target ∈ bundle.deltas.map SignedDelta.contentHash)
    (hparents : ∀ d ∈ bundle.deltas, ∀ p ∈ d.parents,
      g.contains p = true ∨ p ∈ bundle.deltas.map SignedDelta.contentHash) :
    ∃ n, g.mergeBundle bundle = (bundle.deltas.foldl DeltaDag.insert g, .ok n) := by
  have hhashes : ∀ p, (OrderedMaps.insertAll ∅
      (bundle.deltas.map SignedDelta.contentHash)).contains p = true ↔
      p ∈ bundle.deltas.map SignedDelta.contentHash := by
    intro p
    rw [Std.ExtTreeSet.contains_iff_mem, OrderedMaps.mem_insertAll]
    exact or_iff_left Std.ExtTreeSet.not_mem_empty
  have hnone : (bundle.deltas.flatMap SignedDelta.parents).find? (fun p ↦
      !g.contains p && !(OrderedMaps.insertAll ∅
        (bundle.deltas.map SignedDelta.contentHash)).contains p) = none := by
    rw [List.find?_eq_none]
    intro p hp hdangling
    obtain ⟨d, hd, hp⟩ := List.mem_flatMap.mp hp
    rw [Bool.and_eq_true, Bool.not_eq_true', Bool.not_eq_true'] at hdangling
    rcases hparents d hd p hp with hheld | hin
    · rw [hheld] at hdangling
      exact absurd hdangling.1 (by simp)
    · rw [(hhashes p).mpr hin] at hdangling
      exact absurd hdangling.2 (by simp)
  refine ⟨(bundle.deltas.foldl DeltaDag.insert g).len - g.len, ?_⟩
  rw [mergeBundle]
  simp only [(hhashes _).mpr htarget, hnone, Bool.not_true, Bool.false_eq_true, ↓reduceIte]

/-- Merging the closure of a target that the store did not hold at the start. -/
theorem PullState.step (hfree : CollisionFree deltas) (hsource : Within deltas source)
    (hclosed : ParentsHeld source) (hstate : PullState deltas old source g done)
    (hheld : source.contains h = true) (hnot : old.contains h = false) (hnew : h ∉ done) :
    ∃ bundle g' n, source.extractClosure h g.frontier = .ok bundle ∧
      g.mergeBundle bundle = (g', .ok n) ∧ PullState deltas old source g' (done ++ [h]) := by
  have hstop : ∀ p, p ∈ g.frontier → g.contains p = true := fun p hp ↦
    ((hstate.within.exact.frontier_iff p).mp ((g.mem_frontier p).mp hp)).1
  set visited := source.visits (fun h ↦ g.frontier.contains h) [h] with hvisited
  have hheldAll : ∀ a ∈ visited, source.contains a = true :=
    fun a ha ↦ contains_of_mem_visits hclosed hheld ha
  -- the target is no head of the store, so that the closure is not pruned there
  have htarget : h ∈ visited := by
    refine (source.mem_visits_iff _ _ h).mpr (.root (List.mem_singleton_self h) fun hhead ↦ ?_)
    rcases hstate.heads h (by simpa using hhead) with hold | hdone
    · rw [hnot] at hold
      exact absurd hold (by simp)
    · exact hnew hdone
  have hhashes := map_contentHash_closure hsource hheldAll
  have hnext : ∀ a ∈ visited, ∀ p, NamesParent deltas a p → g.contains p = true ∨ p ∈ visited :=
    fun a ha p hp ↦ (mem_visits_of_names hfree hsource hclosed hheld ha hp).2.imp_left (hstop p)
  have hparents : ∀ d ∈ visited.filterMap source.get, ∀ p ∈ d.parents, g.contains p = true ∨
      p ∈ (visited.filterMap source.get).map SignedDelta.contentHash := by
    intro d hd p hp
    obtain ⟨a, ha, hget⟩ := List.mem_filterMap.mp hd
    rw [hhashes]
    exact hnext a ha p ⟨d, hsource.source a d hget, hsource.exact.keyed a d hget, hp⟩
  obtain ⟨n, hmerge⟩ : ∃ n, g.mergeBundle ⟨h, visited.filterMap source.get⟩ =
      ((visited.filterMap source.get).foldl DeltaDag.insert g, .ok n) :=
    mergeBundle_eq_ok ((hhashes h).mpr htarget) hparents
  set g' := (visited.filterMap source.get).foldl DeltaDag.insert g with hg'
  have hcontains : ∀ a, g'.contains a = true ↔ g.contains a = true ∨ a ∈ visited := by
    intro a
    rw [hg', contains_foldl_insert, hhashes]
  have hwithin : Within deltas g' := by
    refine ⟨.foldl_insert _ g hstate.within.exact, fun a d hget ↦ ?_⟩
    rcases get_foldl_insert _ g a d hget with hget | hmem
    · exact hstate.within.source a d hget
    · obtain ⟨b, _, hget⟩ := List.mem_filterMap.mp hmem
      exact hsource.source b d hget
  have hset : g'.heldSet = g.heldSet ∪ {a | a ∈ visited} := Set.ext hcontains
  refine ⟨_, g', n, extractClosure_eq_ok hheldAll, hmerge, hwithin, ?_, fun a ha ↦ ?_,
    fun a ha ↦ ?_, fun a ha ↦ ?_⟩
  · rw [hset]
    exact hstate.pulled.extend hnext
  · exact ((hcontains a).mp ha).elim (hstate.bounded a) fun ha ↦ Or.inr (hheldAll a ha)
  · obtain ⟨hin, hunnamed⟩ := (hwithin.exact.frontier_iff a).mp ha
    rw [hwithin.referenced_iff hfree] at hunnamed
    rcases (hcontains a).mp hin with hold | hfresh
    · refine (hstate.heads a ((hstate.within.exact.frontier_iff a).mpr ⟨hold, ?_⟩)).imp_right
        (List.mem_append_left _)
      rw [hstate.within.referenced_iff hfree]
      rintro ⟨b, hb, hnames⟩
      exact hunnamed ⟨b, (hcontains b).mpr (Or.inl hb), hnames⟩
    · -- what came in is the target or named by something that came in
      cases (source.mem_visits_iff _ _ a).mp hfresh with
      | root hroot _ => exact Or.inr (List.mem_append_right _ hroot)
      | @step b _ hprev hsucc _ =>
        have hb : b ∈ visited := (source.mem_visits_iff _ _ b).mpr hprev
        have hnames := (hsource.mem_successors_iff hfree (hheldAll b hb)).mp hsucc
        exact absurd ⟨b, (hcontains b).mpr (Or.inr hb), hnames⟩ hunnamed
  · rcases List.mem_append.mp ha with ha | ha
    · exact (hcontains a).mpr (Or.inl (hstate.targets a ha))
    · exact (hcontains a).mpr (Or.inr (List.mem_singleton.mp ha ▸ htarget))

/-- A pull of distinct targets that the store did not hold at the start. -/
theorem PullState.run (hfree : CollisionFree deltas) (hsource : Within deltas source)
    (hclosed : ParentsHeld source) (wanted : List DeltaHash) :
    ∀ (g : DeltaDag) (done : List DeltaHash), PullState deltas old source g done →
      (done ++ wanted).Nodup →
      (∀ h ∈ wanted, source.contains h = true ∧ old.contains h = false) →
      ∃ g', source.pull wanted g = .ok g' ∧ PullState deltas old source g' (done ++ wanted) := by
  induction wanted with
  | nil => exact fun g done hstate _ _ ↦ ⟨g, rfl, by rwa [List.append_nil]⟩
  | cons h wanted ih =>
    intro g done hstate hnodup hwanted
    obtain ⟨hheld, hnot⟩ := hwanted h List.mem_cons_self
    have hnew : h ∉ done := fun hdone ↦
      (List.nodup_append.mp hnodup).2.2 h hdone h List.mem_cons_self rfl
    obtain ⟨bundle, g', n, hextract, hmerge, hnext⟩ :=
      hstate.step hfree hsource hclosed hheld hnot hnew
    have hsplit : done ++ h :: wanted = (done ++ [h]) ++ wanted := by simp
    rw [hsplit] at hnodup ⊢
    obtain ⟨last, hpull, hlast⟩ := ih g' (done ++ [h]) hnext hnodup
      fun x hx ↦ hwanted x (List.mem_cons_of_mem h hx)
    refine ⟨last, ?_, hlast⟩
    rw [pull, hextract]
    simp only [hmerge]
    exact hpull

omit [Primitives] in
theorem nodup_wantedFrom (g source : DeltaDag) : (g.wantedFrom source).Nodup :=
  (OrderedMaps.nodup_sortDedup _).filter _

/-- Assumes: the deltas do not collide and have no cycle of parents, and the source holds the parents of
what it holds. A pull of what is wanted from the source, in any order, succeeds, and leaves what was
held and what the source holds. -/
theorem pull_reaches_union (hfree : CollisionFree deltas) (hacyclic : Acyclic (NamesParent deltas))
    (hold : Within deltas old) (hsource : Within deltas source) (hclosed : ParentsHeld source)
    {order : List DeltaHash} (horder : order.Perm (old.wantedFrom source)) :
    ∃ g, source.pull order old = .ok g ∧ Within deltas g ∧
      ∀ h, g.contains h = true ↔ old.contains h = true ∨ source.contains h = true := by
  have hwanted : ∀ h ∈ order, source.contains h = true ∧ old.contains h = false := fun h hh ↦
    ⟨((mem_wantedFrom_iff old source h).mp (horder.mem_iff.mp hh)).1,
      ((mem_wantedFrom_iff old source h).mp (horder.mem_iff.mp hh)).2.1⟩
  obtain ⟨g, hpull, hstate⟩ := PullState.run hfree hsource hclosed order old [] (.start hold)
    (horder.symm.nodup (nodup_wantedFrom old source)) hwanted
  have hheld : ∀ h, h ∈ old.wantedFrom source → g.contains h = true := fun h hh ↦
    hstate.targets h (horder.mem_iff.mpr hh)
  have hcover : source.heldSet ⊆ g.heldSet := by
    refine hstate.pulled.covers (finite_heldSet source) hacyclic (fun h hh htop ↦ ?_)
      fun x hx h hh hnames ↦ ?_
    · -- a hash that the source does not name is a head of the source
      by_cases hin : old.contains h = true
      · exact hstate.pulled.sub hin
      · refine hheld h ((mem_wantedFrom_iff old source h).mpr ⟨hh, by simpa using hin, Or.inl ?_⟩)
        rw [hsource.exact.frontier_iff, hsource.referenced_iff hfree]
        exact ⟨hh, fun ⟨x, hx, hnames⟩ ↦ htop x hx hnames⟩
    · by_cases hin : old.contains h = true
      · exact hstate.pulled.sub hin
      · refine hheld h ((mem_wantedFrom_iff old source h).mpr ⟨hh, by simpa using hin, Or.inr ?_⟩)
        exact (hold.referenced_iff hfree).mpr ⟨x, hx, hnames⟩
  refine ⟨g, hpull, hstate.within, fun h ↦ ⟨hstate.bounded h, ?_⟩⟩
  rintro (hin | hin)
  · exact hstate.pulled.sub hin
  · exact hcover hin

/-- Stores of one history that hold the same hashes have the same frontier. -/
theorem Within.frontier_eq (hfree : CollisionFree deltas) (hg : Within deltas g)
    {g' : DeltaDag} (hg' : Within deltas g') (hheld : ∀ h, g.contains h = g'.contains h) :
    g.frontier = g'.frontier := by
  have hsets : g.frontierSet = g'.frontierSet := by
    refine frontier_eq_of_held_eq hg.exact hg'.exact hheld fun h d d' hget hget' ↦ ?_
    exact hfree.parents_eq (hg.source h d hget) (hg'.source h d' hget')
      ((hg.exact.keyed h d hget).trans (hg'.exact.keyed h d' hget').symm)
  rw [frontier, frontier, hsets]

/-- Assumes: the deltas do not collide. A store that holds what two others hold, which hold the parents
of what they hold, holds the parents of what it holds. -/
theorem ParentsHeld.union (hfree : CollisionFree deltas) (hg : Within deltas g)
    (hold : Within deltas old) (holdClosed : ParentsHeld old) (hsource : Within deltas source)
    (hclosed : ParentsHeld source)
    (hunion : ∀ h, g.contains h = true ↔ old.contains h = true ∨ source.contains h = true) :
    ParentsHeld g := by
  intro h d hget p hp
  have hnames : NamesParent deltas h p := ⟨d, hg.source h d hget, hg.exact.keyed h d hget, hp⟩
  rcases (hunion h).mp ((g.contains_iff h).mpr ⟨d, hget⟩) with hheld | hheld
  · exact (hunion p).mpr (Or.inl (holdClosed.names hold hfree hheld hnames))
  · exact (hunion p).mpr (Or.inr (hclosed.names hsource hfree hheld hnames))

end Pull

/-! ### Two replicas -/

/-- Assumes: the deltas of the two replicas do not collide, no delta is among its own ancestors (as for
honest content hashes), and the second replica holds the parents of what it holds. Whatever the first
replica asks for, in any order, is extracted and merged, and it then holds what the second holds. If it
held the parents of what it held too, then after a pull the other way, from it before or after its own
pull, both hold the union and have equal frontiers. -/
theorem pull_exchange_converges {log log' : List SignedDelta}
    (hfree : CollisionFree {d | d ∈ log ++ log'})
    (hacyclic : Acyclic (NamesParent {d | d ∈ log ++ log'}))
    (hclosed : ParentsHeld (.rebuild log')) {order : List DeltaHash}
    (horder : order.Perm ((rebuild log).wantedFrom (.rebuild log'))) :
    ∃ a, (rebuild log').pull order (.rebuild log) = .ok a ∧
      (∀ h, a.contains h = true ↔
        (rebuild log).contains h = true ∨ (rebuild log').contains h = true) ∧
      (ParentsHeld (.rebuild log) →
        ∀ source, (source = .rebuild log ∨ source = a) →
        ∀ order', order'.Perm ((rebuild log').wantedFrom source) →
        ∃ b, source.pull order' (.rebuild log') = .ok b ∧
          (∀ h, b.contains h = a.contains h) ∧ b.frontier = a.frontier) := by
  have hfirst : Within {d | d ∈ log ++ log'} (.rebuild log) :=
    .rebuild fun d hd ↦ List.mem_append_left _ hd
  have hsecond : Within {d | d ∈ log ++ log'} (.rebuild log') :=
    .rebuild fun d hd ↦ List.mem_append_right _ hd
  obtain ⟨a, hpull, hwithin, hunion⟩ :=
    pull_reaches_union hfree hacyclic hfirst hsecond hclosed horder
  refine ⟨a, hpull, hunion, fun hfirstClosed source hsource order' horder' ↦ ?_⟩
  have hpeer : Within {d | d ∈ log ++ log'} source ∧ ParentsHeld source := by
    rcases hsource with rfl | rfl
    · exact ⟨hfirst, hfirstClosed⟩
    · exact ⟨hwithin, .union hfree hwithin hfirst hfirstClosed hsecond hclosed hunion⟩
  obtain ⟨b, hpull', hwithin', hunion'⟩ :=
    pull_reaches_union hfree hacyclic hsecond hpeer.1 hpeer.2 horder'
  have hheld : ∀ h, b.contains h = a.contains h := by
    intro h
    rw [Bool.eq_iff_iff, hunion', hunion]
    rcases hsource with rfl | rfl
    · exact or_comm
    · rw [hunion]
      tauto
  exact ⟨b, hpull', hheld, hwithin'.frontier_eq hfree hwithin hheld⟩

end DeltaDag

end

namespace DeltaDag

section Readable

attribute [local instance] Primitives.readable

/-- A replica holds a delta whose parent is missing; another holds the parent and its parent. -/
theorem pull_exchange_converges_gap :
    let first := SignedDelta.readable "did:crdt:u7" "did:crdt:u7#key-0" "u7" 1 55 .deactivate []
    let second :=
      SignedDelta.readable "did:crdt:u7" "did:crdt:u7#key-0" "u7" 2 55 .deactivate ["1.0.55"]
    let third :=
      SignedDelta.readable "did:crdt:u7" "did:crdt:u7#key-0" "u7" 3 55 .deactivate ["2.0.55"]
    ∃ a, (rebuild [first, second]).pull [⟨"2.0.55"⟩] (.rebuild [third]) = .ok a ∧
      ∀ h, a.contains h = true ↔
        (rebuild [third]).contains h = true ∨ (rebuild [first, second]).contains h = true := by
  intro first second third
  have hacyclic : Acyclic (NamesParent (members ([third] ++ [first, second]))) :=
    acyclic_of_listed [⟨"1.0.55"⟩, ⟨"2.0.55"⟩, ⟨"3.0.55"⟩] (by decide)
  have hclosed : ParentsHeld (.rebuild [first, second]) := .of_forall (by decide)
  have horder : [⟨"2.0.55"⟩].Perm ((rebuild [third]).wantedFrom (.rebuild [first, second])) := by
    decide
  obtain ⟨a, hpull, hunion, _⟩ := pull_exchange_converges
    (CollisionFree.of_nodup (by decide)) hacyclic hclosed horder
  exact ⟨a, hpull, hunion⟩

end Readable

end DeltaDag

end DidCrdt
