import DidCrdt.Core.Recon

/-!
# Traversals

The closure of some parents is searched for a delta with a property (`closureFind`). A match is decisive
even when ancestors are missing; without one, the missing ancestors are the answer.

This query, the scan of the causal check, the collection of observed additions and the extraction of a
bundle are loops over a stack of their own in the source. Here they are written out with a bound on the
number of iterations (`closureFindLoop`, `scanClosureLoop`, `closureCollectLoop`, `extractClosureLoop`),
and `traverse_eq` says what such a loop comes to.
-/

set_option autoImplicit false
set_option relaxedAutoImplicit false

namespace DidCrdt

/-- The outcome of a search through a closure. -/
inductive ClosureQuery
  | found
  | notFound
  | incomplete (missing : List DeltaHash)
deriving DecidableEq, Repr

namespace ClosureQuery

/-- The outcome of a search that matched nothing. -/
def ofMissing (missing : List DeltaHash) : ClosureQuery :=
  if missing.isEmpty then .notFound else .incomplete (OrderedMaps.sortDedup missing)

/-- The outcome of a search that ended early or with some missing hashes. -/
def ofSearch : Except Unit (List DeltaHash) → ClosureQuery
  | .error _ => .found
  | .ok missing => ofMissing missing

end ClosureQuery

namespace DeltaDag

variable (g : DeltaDag)

/-! ### The work at a visit -/

/-- A search ends at a match, and remembers what is missing. -/
def findVisit (pred : SignedDelta → Bool) (missing : List DeltaHash) (h : DeltaHash) :
    Except Unit (List DeltaHash) :=
  match g.get h with
  | none => .ok (missing ++ [h])
  | some d => if pred d then .error () else .ok missing

/-- A collection appends the results. -/
def collectVisit {α : Type} (f : SignedDelta → Option α) (out : List α) (h : DeltaHash) :
    Except Empty (List α) :=
  match g.get h with
  | none => .ok out
  | some d =>
    match f d with
    | some a => .ok (out ++ [a])
    | none => .ok out

/-- An extraction appends the deltas, and fails at a missing one. -/
def extractVisit (deltas : List SignedDelta) (h : DeltaHash) : Except Error (List SignedDelta) :=
  match g.get h with
  | none => .error (.deltaRejected s!"cannot extract closure: missing delta {h.toString}")
  | some d => .ok (deltas ++ [d])

/-- A scan gathers the facts about a signer. -/
def scanVisit (signer : String) (facts : ClosureFacts) (h : DeltaHash) : Except Empty ClosureFacts :=
  .ok (.visit g signer facts h)

/-! ### The loops -/

/-- The result of a loop that cannot end early. -/
def completed {σ : Type} : Except Empty σ → σ
  | .ok s => s

/-- A loop over the hashes reached from the roots, the last root on top of the stack. -/
def traverse {σ ρ : Type} (stop : DeltaHash → Bool) (visit : σ → DeltaHash → Except ρ σ) (fuel : ℕ)
    (roots : List DeltaHash) (s : σ) : Option (Except ρ σ) :=
  DepthFirst.walk g.successors stop visit fuel roots.reverse [] s

/-- Iterations that suffice to traverse the store from the roots, the last one on the empty stack. -/
def enough (roots : List DeltaHash) : ℕ :=
  DepthFirst.bound g.successors g.byHash.keys roots + 1

/-- The loop of a search. -/
def closureFindLoop (fuel : ℕ) (parents : List DeltaHash) (pred : SignedDelta → Bool) :
    Option ClosureQuery :=
  (g.traverse (fun _ ↦ false) (g.findVisit pred) fuel parents []).map ClosureQuery.ofSearch

/-- The loop of the causal check. -/
def scanClosureLoop (fuel : ℕ) (parents : List DeltaHash) (signer : String) : Option ClosureFacts :=
  (g.traverse (fun _ ↦ false) (g.scanVisit signer) fuel parents .start).map fun result ↦
    let facts := completed result
    { facts with missing := OrderedMaps.sortDedup facts.missing }

/-- The loop of a collection. -/
def closureCollectLoop {α : Type} (fuel : ℕ) (parents : List DeltaHash)
    (f : SignedDelta → Option α) : Option (List α) :=
  (g.traverse (fun _ ↦ false) (g.collectVisit f) fuel parents []).map completed

/-- The loop of an extraction. -/
def extractClosureLoop (fuel : ℕ) (target : DeltaHash) (stop : List DeltaHash) :
    Option (Except Error ClosureBundle) :=
  (g.traverse (fun h ↦ stop.contains h) g.extractVisit fuel [target] []).map fun result ↦
    result.map fun deltas ↦ ⟨target, deltas⟩

/-- Searches the closure of the parents for a delta with the property. -/
def closureFind (parents : List DeltaHash) (pred : SignedDelta → Bool) : ClosureQuery :=
  .ofSearch ((g.visits (fun _ ↦ false) parents).foldlM (g.findVisit pred) [])

/-- Whether the closure of the parents is held. -/
def closureComplete (parents : List DeltaHash) : Bool :=
  g.closureFind parents (fun _ ↦ false) = .notFound

/-! ### What the loops come to -/

/-- With enough iterations a loop ends, after the work at the visits one after the other. -/
theorem traverse_eq {σ ρ : Type} (stop : DeltaHash → Bool) (visit : σ → DeltaHash → Except ρ σ)
    {fuel : ℕ} {roots : List DeltaHash} (hfuel : g.enough roots ≤ fuel) (s : σ) :
    g.traverse stop visit fuel roots s = some ((g.visits stop roots).foldlM visit s) := by
  have hends : DepthFirst.walk g.successors stop visit (g.enough roots) roots.reverse [] s =
      some ((g.visits stop roots).foldlM visit s) :=
    DepthFirst.walk_eq visit (fun _ ↦ g.successors_of_not_mem) _ _ _ s
      (by rw [List.length_reverse, DepthFirst.bound])
  exact DepthFirst.walk_mono visit hfuel hends

section Loops

variable {g} {fuel : ℕ} {parents : List DeltaHash}

theorem closureFindLoop_eq (hfuel : g.enough parents ≤ fuel) (pred : SignedDelta → Bool) :
    g.closureFindLoop fuel parents pred = some (g.closureFind parents pred) := by
  rw [closureFindLoop, g.traverse_eq _ _ hfuel, Option.map_some, closureFind]

theorem scanClosureLoop_eq (hfuel : g.enough parents ≤ fuel) (signer : String) :
    g.scanClosureLoop fuel parents signer = some (scanClosure g parents signer) := by
  have hfold : ∀ (l : List DeltaHash) (facts : ClosureFacts),
      completed (l.foldlM (g.scanVisit signer) facts) = l.foldl (.visit g signer) facts := by
    intro l
    induction l with
    | nil => exact fun _ ↦ rfl
    | cons h l ih => exact fun facts ↦ ih (.visit g signer facts h)
  rw [scanClosureLoop, g.traverse_eq _ _ hfuel, Option.map_some, hfold]
  rfl

theorem closureCollectLoop_eq {α : Type} (hfuel : g.enough parents ≤ fuel)
    (f : SignedDelta → Option α) :
    g.closureCollectLoop fuel parents f = some (g.closureCollect parents f) := by
  have hfold : ∀ (l : List DeltaHash) (out : List α),
      completed (l.foldlM (g.collectVisit f) out) =
        out ++ l.filterMap fun h ↦ (g.get h).bind f := by
    intro l
    induction l with
    | nil => exact fun out ↦ (List.append_nil out).symm
    | cons h l ih =>
      intro out
      rw [List.foldlM_cons, List.filterMap_cons]
      cases hget : g.get h with
      | none => simpa [collectVisit, hget, bind, Except.bind] using ih out
      | some d =>
        cases hf : f d with
        | none => simpa [collectVisit, hget, hf, bind, Except.bind] using ih out
        | some a => simpa [collectVisit, hget, hf, bind, Except.bind] using ih (out ++ [a])
  rw [closureCollectLoop, g.traverse_eq _ _ hfuel, Option.map_some, hfold, closureCollect,
    List.nil_append]

theorem extractClosureLoop_eq {target : DeltaHash} (hfuel : g.enough [target] ≤ fuel)
    (stop : List DeltaHash) :
    g.extractClosureLoop fuel target stop = some (g.extractClosure target stop) := by
  have hfold : ∀ (l : List DeltaHash) (out : List SignedDelta),
      l.foldlM g.extractVisit out =
        (l.find? fun h ↦ !g.contains h).elim (.ok (out ++ l.filterMap g.get)) fun h ↦
          .error (.deltaRejected s!"cannot extract closure: missing delta {h.toString}") := by
    intro l
    induction l with
    | nil => exact fun out ↦ congrArg Except.ok (List.append_nil out).symm
    | cons h l ih =>
      intro out
      rw [List.foldlM_cons, List.find?_cons, List.filterMap_cons, contains_eq_isSome_get]
      cases hget : g.get h with
      | none => simp [extractVisit, hget, bind, Except.bind]
      | some d => simpa [extractVisit, hget, bind, Except.bind] using ih (out ++ [d])
  rw [extractClosureLoop, g.traverse_eq _ _ hfuel, Option.map_some, hfold, extractClosure]
  cases hfind : (g.visits (fun h ↦ stop.contains h) [target]).find? fun h ↦ !g.contains h with
  | none => rfl
  | some h => rfl

end Loops

end DeltaDag

end DidCrdt
