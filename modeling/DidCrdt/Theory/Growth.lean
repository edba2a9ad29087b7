import DidCrdt.Core.Causal

/-!
# Verdicts while the store grows

A store that receives further deltas keeps what it holds (`Grows`), so the closure of some parents
only grows. It grows through missing hashes alone: while none of the missing hashes arrives, the
closure stays what it is (`Grows.closure_iff`), and with it every fact that the verdict reads.

`verifyCausal_grows` draws the consequences for a delta with parents. A decision is final, and an
undecided verdict changes only when one of the hashes it lists arrives.
-/

set_option autoImplicit false
set_option relaxedAutoImplicit false

namespace DidCrdt

/-! ### Growth of a store -/

namespace DeltaDag

/-- What the first store holds, the second holds as well. -/
def Grows (g g' : DeltaDag) : Prop :=
  ∀ h d, g.get h = some d → g'.get h = some d

namespace Grows

variable {g g' g'' : DeltaDag}

theorem refl (g : DeltaDag) : Grows g g :=
  fun _ _ hget ↦ hget

theorem trans (h : Grows g g') (h' : Grows g' g'') : Grows g g'' :=
  fun hash d hget ↦ h' hash d (h hash d hget)

theorem insert [Primitives] (g : DeltaDag) (d : SignedDelta) : Grows g (g.insert d) := by
  intro h e hget
  rw [get_insert]
  split_ifs with hheld hhash
  · exact hget
  · have hcontains : g.contains h = true := (g.contains_iff h).mpr ⟨e, hget⟩
    exact absurd (hhash ▸ hcontains) hheld
  · exact hget

theorem insertAll [Primitives] (more : List SignedDelta) :
    ∀ g : DeltaDag, Grows g (more.foldl DeltaDag.insert g) := by
  induction more with
  | nil => exact Grows.refl
  | cons d more ih => exact fun g ↦ (Grows.insert g d).trans (ih (g.insert d))

/-- A held delta keeps its parents. -/
theorem successors_eq (h : Grows g g') {hash : DeltaHash} (hheld : g.contains hash = true) :
    g'.successors hash = g.successors hash := by
  obtain ⟨d, hget⟩ := (g.contains_iff hash).mp hheld
  rw [successors, successors, hget, h hash d hget]

/-- The closure grows with the store. -/
theorem closure (h : Grows g g') {parents : List DeltaHash} {hash : DeltaHash}
    (hclosure : g.Closure parents hash) : g'.Closure parents hash := by
  refine DepthFirst.Reaches.congr (fun a _ b hb ↦ ?_) hclosure
  unfold successors at hb ⊢
  cases hget : g.get a with
  | none =>
    rw [hget] at hb
    exact absurd hb List.not_mem_nil
  | some d =>
    rw [hget] at hb
    rw [h a d hget]
    exact hb

/-- A fact of the closure stays a fact of the closure. -/
theorem closureHas (h : Grows g g') {parents : List DeltaHash} {P : SignedDelta → Prop}
    (hfact : g.ClosureHas parents P) : g'.ClosureHas parents P := by
  obtain ⟨hash, hclosure, d, hget, hP⟩ := hfact
  exact ⟨hash, h.closure hclosure, d, h hash d hget, hP⟩

end Grows

/-- No hash that the closure in the first store lacks is held by the second. -/
def StillMissing (g g' : DeltaDag) (parents : List DeltaHash) : Prop :=
  ∀ h, g.Closure parents h → g.contains h = false → g'.contains h = false

theorem ClosureComplete.stillMissing {g : DeltaDag} {parents : List DeltaHash}
    (h : g.ClosureComplete parents) (g' : DeltaDag) : StillMissing g g' parents := by
  intro hash hclosure hnot
  rw [h hash hclosure] at hnot
  exact absurd hnot (by simp)

section Still

variable {g g' : DeltaDag} {parents : List DeltaHash}

/-- While the missing hashes stay missing, the closure does not change. -/
theorem Grows.closure_iff (h : Grows g g') (hstill : StillMissing g g' parents)
    (hash : DeltaHash) : g'.Closure parents hash ↔ g.Closure parents hash := by
  constructor
  · intro hclosure
    induction hclosure with
    | root hroot hstop => exact .root hroot hstop
    | @step a b hprev hsucc hstop ih =>
      refine .step ih ?_ hstop
      cases hheld : g.contains a with
      | true => rwa [h.successors_eq hheld] at hsucc
      | false =>
        -- a hash that is missing in both stores has no successors
        have hnone : g'.get a = none := by
          rw [← Option.not_isSome_iff_eq_none, ← contains_eq_isSome_get, hstill a ih hheld]
          exact Bool.false_ne_true
        rw [successors, hnone] at hsucc
        exact absurd hsucc List.not_mem_nil
  · exact h.closure

/-- While the missing hashes stay missing, the closure holds the same deltas. -/
theorem Grows.get_eq (h : Grows g g') (hstill : StillMissing g g' parents) {hash : DeltaHash}
    (hclosure : g.Closure parents hash) : g'.get hash = g.get hash := by
  cases hget : g.get hash with
  | some d => exact h hash d hget
  | none =>
    have hnot : g.contains hash = false := by
      rw [contains_eq_isSome_get, hget, Option.isSome_none]
    have hnot' := hstill hash hclosure hnot
    rwa [contains_eq_isSome_get, Option.isSome_eq_false_iff, Option.isNone_iff_eq_none] at hnot'

theorem Grows.closureHas_iff (h : Grows g g') (hstill : StillMissing g g' parents)
    (P : SignedDelta → Prop) : g'.ClosureHas parents P ↔ g.ClosureHas parents P := by
  constructor
  · rintro ⟨hash, hclosure, d, hget, hP⟩
    have hclosure' := (h.closure_iff hstill hash).mp hclosure
    exact ⟨hash, hclosure', d, (h.get_eq hstill hclosure').symm.trans hget, hP⟩
  · exact h.closureHas

/-- While the missing hashes stay missing, a pass over the closure gathers the same facts. -/
theorem Grows.scanClosure_eq (h : Grows g g') (hstill : StillMissing g g' parents)
    (signer : String) : scanClosure g' parents signer = scanClosure g parents signer := by
  have hadded : (scanClosure g' parents signer).signerAdded =
      (scanClosure g parents signer).signerAdded := by
    rw [Bool.eq_iff_iff, scanClosure_signerAdded, scanClosure_signerAdded]
    exact h.closureHas_iff hstill _
  have hrevoked : (scanClosure g' parents signer).revoked =
      (scanClosure g parents signer).revoked := by
    rw [Bool.eq_iff_iff, scanClosure_revoked, scanClosure_revoked]
    exact h.closureHas_iff hstill _
  have hdeactivated : (scanClosure g' parents signer).deactivated =
      (scanClosure g parents signer).deactivated := by
    rw [Bool.eq_iff_iff, scanClosure_deactivated, scanClosure_deactivated]
    exact h.closureHas_iff hstill _
  have hmissing : (scanClosure g' parents signer).missing =
      (scanClosure g parents signer).missing := by
    refine OrderedMaps.sortDedup_congr fun hash ↦ ?_
    have hpass := mem_scanClosure_missing g' parents signer hash
    have hpass' := mem_scanClosure_missing g parents signer hash
    rw [scanClosure, OrderedMaps.mem_sortDedup] at hpass hpass'
    rw [hpass, hpass', h.closure_iff hstill]
    exact and_congr_right fun hclosure ↦ by rw [h.get_eq hstill hclosure]
  generalize scanClosure g' parents signer = facts' at *
  generalize scanClosure g parents signer = facts at *
  obtain ⟨added, revoked, deactivated, missing⟩ := facts
  obtain ⟨added', revoked', deactivated', missing'⟩ := facts'
  simp only at hadded hrevoked hdeactivated hmissing
  rw [hadded, hrevoked, hdeactivated, hmissing]

end Still

end DeltaDag

/-! ### Verdicts -/

section Verdicts

variable {g g' : DeltaDag} {d : SignedDelta}

theorem verifyCausal_eq_of_stillMissing (h : DeltaDag.Grows g g') (hparents : d.parents ≠ [])
    (hstill : DeltaDag.StillMissing g g' d.parents) : verifyCausal d g' = verifyCausal d g := by
  rw [verifyCausal_of_ne_nil hparents, verifyCausal_of_ne_nil hparents, h.scanClosure_eq hstill]

/-- A delta that was found valid stays valid. -/
theorem verifyCausal_valid_of_grows (h : DeltaDag.Grows g g') (hparents : d.parents ≠ [])
    (hvalid : verifyCausal d g = .valid) : verifyCausal d g' = .valid := by
  have hcomplete := ((verifyCausal_eq_valid_iff hparents).mp hvalid).1
  rw [verifyCausal_eq_of_stillMissing h hparents (hcomplete.stillMissing g'), hvalid]

/-- A verdict is invalid when the closure revokes the signer or deactivates the document, or is
complete and does not add the signer. -/
theorem verifyCausal_eq_invalid_iff (hparents : d.parents ≠ []) :
    (∃ reason, verifyCausal d g = .invalid reason) ↔
      g.ClosureHas d.parents (fun r ↦ r.RevokesMethod d.signer) ∨
      g.ClosureHas d.parents SignedDelta.Deactivates ∨
      (g.ClosureComplete d.parents ∧
        ¬ g.ClosureHas d.parents (fun a ↦ a.AddsMethod d.signer)) := by
  rw [verifyCausal_of_ne_nil hparents, ← scanClosure_signerAdded, ← scanClosure_revoked,
    ← scanClosure_deactivated g d.parents d.signer,
    ← scanClosure_missing_isEmpty_iff g d.parents d.signer]
  generalize scanClosure g d.parents d.signer = facts
  obtain ⟨added, revoked, deactivated, missing⟩ := facts
  cases added <;> cases revoked <;> cases deactivated <;> cases missing <;> simp

/-- A delta that was found invalid stays invalid. -/
theorem verifyCausal_invalid_of_grows (h : DeltaDag.Grows g g') (hparents : d.parents ≠ [])
    (hinvalid : ∃ reason, verifyCausal d g = .invalid reason) :
    ∃ reason, verifyCausal d g' = .invalid reason := by
  rcases (verifyCausal_eq_invalid_iff hparents).mp hinvalid with hrevoked | hdeactivated | hrest
  · exact (verifyCausal_eq_invalid_iff hparents).mpr (Or.inl (h.closureHas hrevoked))
  · exact (verifyCausal_eq_invalid_iff hparents).mpr (Or.inr (Or.inl (h.closureHas hdeactivated)))
  · rw [verifyCausal_eq_of_stillMissing h hparents (hrest.1.stillMissing g')]
    exact hinvalid

/-- The hashes of an undecided verdict are the missing hashes of the closure. -/
theorem mem_missing_iff (hparents : d.parents ≠ []) {missing : List DeltaHash}
    (hunknown : verifyCausal d g = .unknown missing) (h : DeltaHash) :
    h ∈ missing ↔ g.Closure d.parents h ∧ g.contains h = false := by
  obtain ⟨_, _, _, rfl⟩ := (verifyCausal_eq_unknown_iff hparents missing).mp hunknown
  rw [mem_scanClosure_missing, DeltaDag.contains_eq_isSome_get, Option.isSome_eq_false_iff,
    Option.isNone_iff_eq_none]

/-- An undecided verdict stays as it is until one of its hashes arrives. -/
theorem verifyCausal_unknown_of_grows (h : DeltaDag.Grows g g') (hparents : d.parents ≠ [])
    {missing : List DeltaHash} (hunknown : verifyCausal d g = .unknown missing)
    (hnone : ∀ hash ∈ missing, g'.contains hash = false) :
    verifyCausal d g' = .unknown missing := by
  rw [verifyCausal_eq_of_stillMissing h hparents ?_, hunknown]
  exact fun hash hclosure hnot ↦
    hnone hash ((mem_missing_iff hparents hunknown hash).mpr ⟨hclosure, hnot⟩)

theorem missing_ne_nil (hparents : d.parents ≠ []) {missing : List DeltaHash}
    (hunknown : verifyCausal d g = .unknown missing) : missing ≠ [] := by
  obtain ⟨hincomplete, _, _, rfl⟩ := (verifyCausal_eq_unknown_iff hparents missing).mp hunknown
  rwa [← scanClosure_missing_isEmpty_iff g d.parents d.signer, List.isEmpty_iff] at hincomplete

end Verdicts

/-! ### The order of verdicts -/

/-- The verdict on a delta with parents never goes down or sideways. -/
theorem partialCmp_of_grows {g g' : DeltaDag} {d : SignedDelta} (h : DeltaDag.Grows g g')
    (hparents : d.parents ≠ []) :
    (verifyCausal d g).partialCmp (verifyCausal d g') = some .lt ∨
      (verifyCausal d g).partialCmp (verifyCausal d g') = some .eq := by
  cases hverdict : verifyCausal d g with
  | valid =>
    rw [verifyCausal_valid_of_grows h hparents hverdict]
    exact Or.inr rfl
  | invalid reason =>
    obtain ⟨reason', hlater⟩ := verifyCausal_invalid_of_grows h hparents ⟨reason, hverdict⟩
    rw [hlater]
    exact Or.inr rfl
  | unknown missing =>
    cases verifyCausal d g' with
    | unknown _ => exact Or.inr rfl
    | valid => exact Or.inl rfl
    | invalid _ => exact Or.inl rfl

/-! ### Stores built by insertion -/

/-- Admission is monotone: over a store built by insertions and every store that further insertions
make of it, valid and invalid verdicts on a delta with parents are final, and an undecided one lists
hashes that are not held and stays as it is until one of them arrives. -/
theorem verifyCausal_grows [Primitives] (log more : List SignedDelta) (d : SignedDelta)
    (hparents : d.parents ≠ []) :
    let g := DeltaDag.rebuild log
    let g' := more.foldl DeltaDag.insert g
    (verifyCausal d g = .valid → verifyCausal d g' = .valid) ∧
    ((∃ reason, verifyCausal d g = .invalid reason) →
      ∃ reason, verifyCausal d g' = .invalid reason) ∧
    ∀ missing, verifyCausal d g = .unknown missing →
      missing ≠ [] ∧ (∀ h ∈ missing, g.contains h = false) ∧
        ((∀ h ∈ missing, g'.contains h = false) → verifyCausal d g' = .unknown missing) := by
  intro g g'
  have hgrows : DeltaDag.Grows g g' := DeltaDag.Grows.insertAll more g
  refine ⟨verifyCausal_valid_of_grows hgrows hparents,
    verifyCausal_invalid_of_grows hgrows hparents, fun missing hunknown ↦ ?_⟩
  refine ⟨missing_ne_nil hparents hunknown, fun h hmem ↦ ?_,
    verifyCausal_unknown_of_grows hgrows hparents hunknown⟩
  exact ((mem_missing_iff hparents hunknown h).mp hmem).2

section Readable

attribute [local instance] Primitives.readable

/-- A delta whose parent arrives before the parent of that parent. -/
theorem verifyCausal_grows_pending :
    let d := SignedDelta.readable "did:crdt:u7" "did:crdt:u7#key-0" "u7" 2 55 .deactivate ["1.0.55"]
    let parent := SignedDelta.readable "did:crdt:u7" "did:crdt:u7#key-0" "u7" 1 55 .deactivate ["0.0.0"]
    (verifyCausal d (DeltaDag.rebuild []) = .unknown [⟨"1.0.55"⟩]) ∧
    ∀ missing, verifyCausal d (DeltaDag.rebuild []) = .unknown missing →
      missing ≠ [] ∧ (∀ h ∈ missing, (DeltaDag.rebuild []).contains h = false) ∧
        ((∀ h ∈ missing, ([parent].foldl DeltaDag.insert (DeltaDag.rebuild [])).contains h = false) →
          verifyCausal d ([parent].foldl DeltaDag.insert (DeltaDag.rebuild [])) =
            .unknown missing) := by
  intro d parent
  exact ⟨by decide, (verifyCausal_grows [] [parent] d (by decide)).2.2⟩

end Readable

end DidCrdt
