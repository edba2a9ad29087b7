import DidCrdt.Core.Document

/-!
# Reconciliation

A replica answers the frontier of a peer with the deltas that the peer lacks: the closures of its own
heads, without what the frontier of the peer cuts off (`deltasForPeer`). When every hash below the
heads is held, the extraction does not fail and the answer has everything below them
(`collectHeads_spec`). In the other direction a replica names the hashes it lacks
(`missingFromFrontier`) and merges the closures of these into its DAG (`mergeBundle`). The closures of
all heads together are the history of a document as one bundle (`closureBundle`, `exportBundle`).
-/

set_option autoImplicit false
set_option relaxedAutoImplicit false

namespace DidCrdt

variable [Primitives]

namespace DeltaDag

/-- The closure of a head, without entering a stop. A hash that is not held is an error. -/
def extractClosure (g : DeltaDag) (target : DeltaHash) (stop : List DeltaHash) :
    Except Error ClosureBundle :=
  let visited := g.visits (fun h ↦ stop.contains h) [target]
  match visited.find? fun h ↦ !g.contains h with
  | some h =>
    .error (.deltaRejected s!"cannot extract closure: missing delta {h.toString}")
  | none => .ok ⟨target, visited.filterMap g.get⟩

/-- The number of held deltas. -/
def len (g : DeltaDag) : ℕ := g.byHash.size

/-- The hashes that a held delta names as a parent and that are not held. -/
def incompleteAncestors (g : DeltaDag) : List DeltaHash :=
  (g.referenced.toList.filter fun h ↦ !g.contains h).insertionSort (· ≤ ·)

/-- The hashes to ask a peer with the frontier for. -/
def missingFromFrontier (g : DeltaDag) (remoteFrontier : List DeltaHash) : List DeltaHash :=
  OrderedMaps.sortDedup
    ((remoteFrontier.filter fun h ↦ !g.contains h) ++ g.incompleteAncestors)

/-- Merges a bundle that holds its target and has no dangling parent. -/
def mergeBundle (g : DeltaDag) (bundle : ClosureBundle) : DeltaDag × Except Error ℕ :=
  let bundleHashes := OrderedMaps.insertAll ∅ (bundle.deltas.map SignedDelta.contentHash)
  if !bundleHashes.contains bundle.target then
    (g, .error (.deltaRejected
      s!"bundle does not contain its target {bundle.target.toString}"))
  else
    match (bundle.deltas.flatMap SignedDelta.parents).find? fun p ↦
      !g.contains p && !bundleHashes.contains p with
    | some p =>
      (g, .error (.deltaRejected
        s!"bundle has a dangling parent {p.toString}: tampered or incomplete"))
    | none =>
      let merged := bundle.deltas.foldl insert g
      (merged, .ok (merged.len - g.len))

/-- Appends the deltas whose hashes are new. -/
def appendNew (out deltas : List SignedDelta) : List SignedDelta :=
  deltas.foldl (fun out d ↦
    if (out.map SignedDelta.contentHash).contains d.contentHash then out else out ++ [d]) out

/-- The deltas below some heads, up to the first head whose closure cannot be extracted. -/
def collectHeads (g : DeltaDag) (stop : List DeltaHash) :
    List DeltaHash → List SignedDelta → Except Error (List SignedDelta)
  | [], out => .ok out
  | head :: heads, out =>
    match g.extractClosure head stop with
    | .error e => .error e
    | .ok bundle => g.collectHeads stop heads (appendNew out bundle.deltas)

/-- The held deltas that a peer with the frontier lacks. -/
def deltasForPeer (g : DeltaDag) (peerFrontier : List DeltaHash) :
    Except Error (List SignedDelta) :=
  g.collectHeads peerFrontier (g.frontier.filter fun head ↦ !peerFrontier.contains head) []

end DeltaDag

namespace Document

/-- The history as a bundle for another replica, which names the greatest head. -/
def exportBundle (doc : Document) : Except Error ClosureBundle :=
  let heads := doc.dag.frontier
  match heads.max? with
  | none => .error (.deltaRejected "cannot export an empty history")
  | some target => (doc.dag.collectHeads [] heads []).map fun deltas ↦ ⟨target, deltas⟩

/-- The history as a bundle for verifiers, which names the greatest head. -/
def closureBundle (doc : Document) : Except Error ClosureBundle :=
  let heads := doc.dag.frontier.insertionSort (· ≤ ·)
  match heads.getLast? with
  | none => .error (.deltaRejected "no delta history from which to extract a closure")
  | some target => (doc.dag.collectHeads [] heads []).map fun deltas ↦ ⟨target, deltas⟩

end Document

namespace DeltaDag

/-! ### The answer -/

omit [Primitives] in
/-- Assumes: every hash visited is held. The deltas visited are the closure. -/
theorem extractClosure_eq_ok {g : DeltaDag} {target : DeltaHash} {stop : List DeltaHash}
    (hheld : ∀ h ∈ g.visits (fun h ↦ stop.contains h) [target], g.contains h = true) :
    g.extractClosure target stop =
      .ok ⟨target, (g.visits (fun h ↦ stop.contains h) [target]).filterMap g.get⟩ := by
  have hfound : (g.visits (fun h ↦ stop.contains h) [target]).find? (fun h ↦ !g.contains h) =
      none := by
    rw [List.find?_eq_none]
    intro h hh
    simp [hheld h hh]
  rw [extractClosure]
  simp only [hfound]

theorem mem_appendNew_sub (deltas : List SignedDelta) : ∀ (out : List SignedDelta) (d : SignedDelta),
    d ∈ appendNew out deltas → d ∈ out ∨ d ∈ deltas := by
  induction deltas with
  | nil => exact fun out d hd ↦ Or.inl hd
  | cons e deltas ih =>
    intro out d hd
    change d ∈ appendNew (if (out.map SignedDelta.contentHash).contains e.contentHash then out
      else out ++ [e]) deltas at hd
    split_ifs at hd with hknown
    · exact (ih _ _ hd).imp_right (List.mem_cons_of_mem e)
    · rcases ih _ _ hd with hd | hd
      · rcases List.mem_append.mp hd with hd | hd
        · exact Or.inl hd
        · exact Or.inr (List.mem_singleton.mp hd ▸ List.mem_cons_self)
      · exact Or.inr (List.mem_cons_of_mem e hd)

/-- Appending keeps the hashes and adds those of the deltas. -/
theorem hashes_appendNew (deltas : List SignedDelta) : ∀ (out : List SignedDelta) (h : DeltaHash),
    h ∈ out.map SignedDelta.contentHash ∨ h ∈ deltas.map SignedDelta.contentHash →
      h ∈ (appendNew out deltas).map SignedDelta.contentHash := by
  induction deltas with
  | nil => exact fun out h hh ↦ hh.resolve_right List.not_mem_nil
  | cons e deltas ih =>
    intro out h hh
    change h ∈ (appendNew (if (out.map SignedDelta.contentHash).contains e.contentHash then out
      else out ++ [e]) deltas).map SignedDelta.contentHash
    rw [List.map_cons, List.mem_cons] at hh
    apply ih
    split_ifs with hknown
    · rcases hh with hh | rfl | hh
      · exact Or.inl hh
      · exact Or.inl (by simpa using hknown)
      · exact Or.inr hh
    · rw [List.map_append, List.mem_append, List.map_singleton, List.mem_singleton]
      tauto

/-- No hash is appended twice. -/
theorem nodup_appendNew (deltas : List SignedDelta) : ∀ out : List SignedDelta,
    (out.map SignedDelta.contentHash).Nodup →
      ((appendNew out deltas).map SignedDelta.contentHash).Nodup := by
  induction deltas with
  | nil => exact fun out hout ↦ hout
  | cons e deltas ih =>
    intro out hout
    change ((appendNew (if (out.map SignedDelta.contentHash).contains e.contentHash then out
      else out ++ [e]) deltas).map SignedDelta.contentHash).Nodup
    apply ih
    split_ifs with hknown
    · exact hout
    · have hnew : e.contentHash ∉ out.map SignedDelta.contentHash := by simpa using hknown
      rw [List.map_append, List.map_singleton]
      exact List.nodup_append.mpr ⟨hout, List.nodup_singleton _, fun a ha b hb heq ↦
        hnew (List.mem_singleton.mp hb ▸ heq ▸ ha)⟩

theorem nodup_collectHeads (g : DeltaDag) (stop heads : List DeltaHash) :
    ∀ out result : List SignedDelta, (out.map SignedDelta.contentHash).Nodup →
      g.collectHeads stop heads out = .ok result →
        (result.map SignedDelta.contentHash).Nodup := by
  induction heads with
  | nil =>
    intro out result hout hok
    rwa [← Except.ok.inj hok]
  | cons head heads ih =>
    intro out result hout hok
    rw [collectHeads] at hok
    cases hextract : g.extractClosure head stop with
    | error e => simp [hextract] at hok
    | ok bundle =>
      rw [hextract] at hok
      exact ih _ result (nodup_appendNew bundle.deltas out hout) hok

/-- Assumes: every hash visited below the heads is held. The deltas below the heads are collected. -/
theorem collectHeads_spec (g : DeltaDag) (stop heads : List DeltaHash)
    (hheld : ∀ head ∈ heads, ∀ h ∈ g.visits (fun h ↦ stop.contains h) [head],
      g.contains h = true) : ∀ out : List SignedDelta,
    ∃ result, g.collectHeads stop heads out = .ok result ∧
      (∀ d ∈ result, d ∈ out ∨ ∃ head ∈ heads, ∃ h ∈ g.visits (fun h ↦ stop.contains h) [head],
        g.get h = some d) ∧
      (∀ h ∈ out.map SignedDelta.contentHash, h ∈ result.map SignedDelta.contentHash) ∧
      ∀ head ∈ heads, ∀ h ∈ g.visits (fun h ↦ stop.contains h) [head], ∀ d, g.get h = some d →
        d.contentHash ∈ result.map SignedDelta.contentHash := by
  induction heads with
  | nil =>
    intro out
    exact ⟨out, rfl, fun d hd ↦ Or.inl hd, fun h hh ↦ hh, fun head hhead ↦
      absurd hhead List.not_mem_nil⟩
  | cons head heads ih =>
    intro out
    have hextract := extractClosure_eq_ok (hheld head List.mem_cons_self)
    obtain ⟨result, hok, hsource, hkept, hbelow⟩ := ih
      (fun other hother ↦ hheld other (List.mem_cons_of_mem _ hother))
      (appendNew out ((g.visits (fun h ↦ stop.contains h) [head]).filterMap g.get))
    refine ⟨result, ?_, fun d hd ↦ ?_, fun h hh ↦ ?_, fun other hother h hh d hget ↦ ?_⟩
    · rw [collectHeads, hextract]
      exact hok
    · rcases hsource d hd with hd | hd
      · rcases mem_appendNew_sub _ _ _ hd with hd | hd
        · exact Or.inl hd
        · exact Or.inr ⟨head, List.mem_cons_self, List.mem_filterMap.mp hd⟩
      · obtain ⟨other, hother, hbelow⟩ := hd
        exact Or.inr ⟨other, List.mem_cons_of_mem head hother, hbelow⟩
    · exact hkept h (hashes_appendNew _ _ h (Or.inl hh))
    · rcases List.mem_cons.mp hother with rfl | hother
      · refine hkept _ (hashes_appendNew _ _ _ (Or.inr ?_))
        exact List.mem_map_of_mem (List.mem_filterMap.mpr ⟨h, hh, hget⟩)
      · exact hbelow other hother h hh d hget

end DeltaDag

end DidCrdt
