import DidCrdt.Core.Dag

/-!
# Causal admission

`verifyCausal` decides a delta against its causal past: the closure of its parents in the DAG. One
traversal of the closure gathers whether it adds the signer, revokes it, or deactivates the document,
and which hashes of it are missing (`scanClosure_signerAdded`, `scanClosure_revoked`,
`scanClosure_deactivated`, `mem_scanClosure_missing`). `verifyCausal_eq_valid_iff` and
`verifyCausal_eq_unknown_iff` read the verdict: a delta is valid when its closure is complete, adds
the signer, and neither revokes it nor deactivates the document.
-/

set_option autoImplicit false
set_option relaxedAutoImplicit false

namespace DidCrdt

/-! ### What a delta does to authority -/

namespace SignedDelta

/-- The delta adds the entry. -/
def Introduces (d : SignedDelta) (id publicKeyMultibase : String) : Prop :=
  ∃ suite rels, d.op = .addVerificationMethod id publicKeyMultibase suite rels

/-- The delta adds a verification method with the id. -/
def AddsMethod (d : SignedDelta) (id : String) : Prop :=
  ∃ pk, d.Introduces id pk

/-- The delta revokes the verification method. -/
def RevokesMethod (d : SignedDelta) (id : String) : Prop :=
  d.op = .revokeVerificationMethod id

/-- The delta deactivates the document. -/
def Deactivates (d : SignedDelta) : Prop :=
  d.op = .deactivate

end SignedDelta

/-! ### The verdict -/

/-- The verdict on a delta: undecided for lack of ancestors, valid, or finally invalid. -/
inductive AdmissionResult
  | unknown (missing : List DeltaHash)
  | valid
  | invalid (reason : RejectReason)
deriving DecidableEq, Repr

namespace AdmissionResult

/-- The flat order: an undecided verdict is below the decided ones, and what a verdict carries does
not count. -/
def partialCmp : AdmissionResult → AdmissionResult → Option Ordering
  | .unknown _, .unknown _ => some .eq
  | .valid, .valid => some .eq
  | .invalid _, .invalid _ => some .eq
  | .unknown _, _ => some .lt
  | _, .unknown _ => some .gt
  | .valid, .invalid _ => none
  | .invalid _, .valid => none

end AdmissionResult

/-- What one pass over a closure gathers about a signer. -/
structure ClosureFacts where
  signerAdded : Bool
  revoked : Bool
  deactivated : Bool
  missing : List DeltaHash

namespace ClosureFacts

/-- Before the pass. -/
def start : ClosureFacts := ⟨false, false, false, []⟩

/-- The facts after a visit to a hash. -/
def visit (dag : DeltaDag) (signer : String) (facts : ClosureFacts) (h : DeltaHash) :
    ClosureFacts :=
  match dag.get h with
  | none => { facts with missing := facts.missing ++ [h] }
  | some d =>
    match d.op with
    | .addVerificationMethod id _ _ _ =>
      if id = signer then { facts with signerAdded := true } else facts
    | .revokeVerificationMethod keyId =>
      if keyId = signer then { facts with revoked := true } else facts
    | .deactivate => { facts with deactivated := true }
    | _ => facts

end ClosureFacts

/-- One pass over the closure of the parents, about the signer. -/
def scanClosure (dag : DeltaDag) (parents : List DeltaHash) (signer : String) : ClosureFacts :=
  let facts := (dag.visits (fun _ ↦ false) parents).foldl (ClosureFacts.visit dag signer) .start
  { facts with missing := OrderedMaps.sortDedup facts.missing }

/-- The causal verdict on a delta. -/
def verifyCausal (d : SignedDelta) (dag : DeltaDag) : AdmissionResult :=
  let signer := d.signer
  if d.parents.isEmpty then
    if !dag.isEmpty then .invalid .signerNotAuthorised
    else
      match d.op with
      | .addVerificationMethod id _ _ _ =>
        if id = signer then .valid else .invalid .signerNotAuthorised
      | _ => .invalid .genesisOpNotAllowed
  else
    let facts := scanClosure dag d.parents signer
    if facts.revoked then .invalid .revoked
    else if facts.deactivated then .invalid .deactivated
    else if !facts.missing.isEmpty then .unknown facts.missing
    else if !facts.signerAdded then .invalid .signerNotAuthorised
    else .valid

/-! ### The closure -/

/-- The hashes reachable from the parents through held deltas. -/
def DeltaDag.Closure (g : DeltaDag) (parents : List DeltaHash) : DeltaHash → Prop :=
  DepthFirst.Reaches g.successors (fun _ ↦ False) parents

theorem DeltaDag.mem_visits_closure (g : DeltaDag) (parents : List DeltaHash) (h : DeltaHash) :
    h ∈ g.visits (fun _ ↦ false) parents ↔ g.Closure parents h := by
  rw [g.mem_visits_iff]
  simp only [DeltaDag.Closure, Bool.false_eq_true]

/-- A collected result comes from a held delta of the closure. -/
theorem DeltaDag.mem_closureCollect {α : Type} (g : DeltaDag) (parents : List DeltaHash)
    (f : SignedDelta → Option α) (a : α) :
    a ∈ g.closureCollect parents f ↔
      ∃ h d, g.Closure parents h ∧ g.get h = some d ∧ f d = some a := by
  simp only [DeltaDag.closureCollect, List.mem_filterMap, g.mem_visits_closure,
    Option.bind_eq_some_iff]
  constructor
  · rintro ⟨h, hclosure, d, hget, hf⟩
    exact ⟨h, d, hclosure, hget, hf⟩
  · rintro ⟨h, d, hclosure, hget, hf⟩
    exact ⟨h, hclosure, d, hget, hf⟩

/-- Some held delta of the closure has the property. -/
def DeltaDag.ClosureHas (g : DeltaDag) (parents : List DeltaHash) (P : SignedDelta → Prop) : Prop :=
  ∃ h, g.Closure parents h ∧ ∃ d, g.get h = some d ∧ P d

/-! ### The facts gathered -/

namespace ClosureFacts

variable (dag : DeltaDag) (signer : String) (facts : ClosureFacts) (h : DeltaHash)

theorem signerAdded_visit : (visit dag signer facts h).signerAdded = true ↔
    facts.signerAdded = true ∨ ∃ d, dag.get h = some d ∧ d.AddsMethod signer := by
  cases hget : dag.get h with
  | none => simp [visit, hget]
  | some d =>
    obtain ⟨_, _, op, _, _⟩ := d
    cases op with
    | addVerificationMethod id =>
      by_cases hid : id = signer <;> simp [visit, hget, hid, SignedDelta.AddsMethod,
        SignedDelta.Introduces]
    | revokeVerificationMethod id =>
      by_cases hid : id = signer <;> simp [visit, hget, hid, SignedDelta.AddsMethod,
        SignedDelta.Introduces]
    | _ => simp [visit, hget, SignedDelta.AddsMethod,
        SignedDelta.Introduces]

theorem revoked_visit : (visit dag signer facts h).revoked = true ↔
    facts.revoked = true ∨ ∃ d, dag.get h = some d ∧ d.RevokesMethod signer := by
  cases hget : dag.get h with
  | none => simp [visit, hget]
  | some d =>
    obtain ⟨_, _, op, _, _⟩ := d
    cases op with
    | addVerificationMethod id =>
      by_cases hid : id = signer <;> simp [visit, hget, hid, SignedDelta.RevokesMethod]
    | revokeVerificationMethod id =>
      by_cases hid : id = signer <;> simp [visit, hget, hid, SignedDelta.RevokesMethod]
    | _ => simp [visit, hget, SignedDelta.RevokesMethod]

theorem deactivated_visit : (visit dag signer facts h).deactivated = true ↔
    facts.deactivated = true ∨ ∃ d, dag.get h = some d ∧ d.Deactivates := by
  cases hget : dag.get h with
  | none => simp [visit, hget]
  | some d =>
    obtain ⟨_, _, op, _, _⟩ := d
    cases op with
    | addVerificationMethod id =>
      by_cases hid : id = signer <;> simp [visit, hget, hid, SignedDelta.Deactivates]
    | revokeVerificationMethod id =>
      by_cases hid : id = signer <;> simp [visit, hget, hid, SignedDelta.Deactivates]
    | _ => simp [visit, hget, SignedDelta.Deactivates]

theorem mem_missing_visit (p : DeltaHash) : p ∈ (visit dag signer facts h).missing ↔
    p ∈ facts.missing ∨ (h = p ∧ dag.get h = none) := by
  cases hget : dag.get h with
  | none => simp [visit, hget, eq_comm]
  | some d =>
    obtain ⟨_, _, op, _, _⟩ := d
    cases op with
    | addVerificationMethod id =>
      by_cases hid : id = signer <;> simp [visit, hget, hid]
    | revokeVerificationMethod id =>
      by_cases hid : id = signer <;> simp [visit, hget, hid]
    | _ => simp [visit, hget]

end ClosureFacts

section Spec

variable (dag : DeltaDag) (parents : List DeltaHash) (signer : String)

theorem scanClosure_signerAdded : (scanClosure dag parents signer).signerAdded = true ↔
    dag.ClosureHas parents fun d ↦ d.AddsMethod signer := by
  have hloop := DepthFirst.foldl_gathers (P := fun s : ClosureFacts ↦ s.signerAdded = true)
    (ClosureFacts.signerAdded_visit dag signer) (dag.visits (fun _ ↦ false) parents) .start
  refine hloop.trans ?_
  simp [ClosureFacts.start, DeltaDag.ClosureHas, dag.mem_visits_closure]

theorem scanClosure_revoked : (scanClosure dag parents signer).revoked = true ↔
    dag.ClosureHas parents fun d ↦ d.RevokesMethod signer := by
  have hloop := DepthFirst.foldl_gathers (P := fun s : ClosureFacts ↦ s.revoked = true)
    (ClosureFacts.revoked_visit dag signer) (dag.visits (fun _ ↦ false) parents) .start
  refine hloop.trans ?_
  simp [ClosureFacts.start, DeltaDag.ClosureHas, dag.mem_visits_closure]

theorem scanClosure_deactivated : (scanClosure dag parents signer).deactivated = true ↔
    dag.ClosureHas parents SignedDelta.Deactivates := by
  have hloop := DepthFirst.foldl_gathers (P := fun s : ClosureFacts ↦ s.deactivated = true)
    (ClosureFacts.deactivated_visit dag signer) (dag.visits (fun _ ↦ false) parents) .start
  refine hloop.trans ?_
  simp [ClosureFacts.start, DeltaDag.ClosureHas, dag.mem_visits_closure]

theorem mem_scanClosure_missing (p : DeltaHash) : p ∈ (scanClosure dag parents signer).missing ↔
    dag.Closure parents p ∧ dag.get p = none := by
  have hloop := DepthFirst.foldl_gathers (P := fun s : ClosureFacts ↦ p ∈ s.missing)
    (fun s h ↦ ClosureFacts.mem_missing_visit dag signer s h p)
    (dag.visits (fun _ ↦ false) parents) .start
  rw [scanClosure, OrderedMaps.mem_sortDedup, hloop]
  simp [ClosureFacts.start, dag.mem_visits_closure]

/-- Every hash of the closure is held. -/
def DeltaDag.ClosureComplete : Prop := ∀ h, dag.Closure parents h → dag.contains h = true

theorem scanClosure_missing_isEmpty_iff :
    (scanClosure dag parents signer).missing.isEmpty = true ↔ dag.ClosureComplete parents := by
  rw [List.isEmpty_iff, List.eq_nil_iff_forall_not_mem]
  refine forall_congr' fun h ↦ ?_
  rw [mem_scanClosure_missing, not_and, DeltaDag.contains_eq_isSome_get, Option.isSome_iff_ne_none]

end Spec

/-! ### The verdict, read declaratively -/

section Verdict

variable (dag : DeltaDag) (d : SignedDelta)

/-- The closure adds the signer, does not revoke it, and does not deactivate the document. -/
def CausallyAuthorised : Prop :=
  dag.ClosureHas d.parents (fun a ↦ a.AddsMethod d.signer) ∧
    ¬ dag.ClosureHas d.parents (fun r ↦ r.RevokesMethod d.signer) ∧
    ¬ dag.ClosureHas d.parents SignedDelta.Deactivates

variable {dag d}

theorem verifyCausal_of_nil (hparents : d.parents = []) (hdag : dag.isEmpty = false) :
    verifyCausal d dag = .invalid .signerNotAuthorised := by
  simp [verifyCausal, hparents, hdag]

/-- The verdict on a delta with parents is decided by the facts of its closure. -/
theorem verifyCausal_of_ne_nil (hparents : d.parents ≠ []) :
    verifyCausal d dag =
      if (scanClosure dag d.parents d.signer).revoked then .invalid .revoked
      else if (scanClosure dag d.parents d.signer).deactivated then .invalid .deactivated
      else if !(scanClosure dag d.parents d.signer).missing.isEmpty then
        .unknown (scanClosure dag d.parents d.signer).missing
      else if !(scanClosure dag d.parents d.signer).signerAdded then .invalid .signerNotAuthorised
      else .valid := by
  rw [verifyCausal, if_neg (by simpa using hparents)]

theorem verifyCausal_eq_valid_iff (hparents : d.parents ≠ []) :
    verifyCausal d dag = .valid ↔
      dag.ClosureComplete d.parents ∧ CausallyAuthorised dag d := by
  rw [verifyCausal_of_ne_nil hparents, CausallyAuthorised, ← scanClosure_signerAdded,
    ← scanClosure_revoked dag d.parents d.signer, ← scanClosure_deactivated dag d.parents d.signer,
    ← scanClosure_missing_isEmpty_iff dag d.parents d.signer]
  generalize scanClosure dag d.parents d.signer = facts
  obtain ⟨added, revoked, deactivated, missing⟩ := facts
  cases added <;> cases revoked <;> cases deactivated <;> cases missing <;> simp

theorem verifyCausal_eq_unknown_iff (hparents : d.parents ≠ []) (missing : List DeltaHash) :
    verifyCausal d dag = .unknown missing ↔
      ¬ dag.ClosureComplete d.parents ∧
      ¬ dag.ClosureHas d.parents (fun r ↦ r.RevokesMethod d.signer) ∧
      ¬ dag.ClosureHas d.parents SignedDelta.Deactivates ∧
      missing = (scanClosure dag d.parents d.signer).missing := by
  rw [verifyCausal_of_ne_nil hparents, ← scanClosure_revoked dag d.parents d.signer,
    ← scanClosure_deactivated dag d.parents d.signer,
    ← scanClosure_missing_isEmpty_iff dag d.parents d.signer]
  generalize scanClosure dag d.parents d.signer = facts
  obtain ⟨added, revoked, deactivated, absent⟩ := facts
  cases added <;> cases revoked <;> cases deactivated <;> cases absent <;> simp [eq_comm]

end Verdict

end DidCrdt
