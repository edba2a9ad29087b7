import DidCrdt.Core.Admission
import DidCrdt.Theory.CausalPast

/-!
# Combining checks

The combination of verdicts does not depend on the order of the checks (`meetAll_perm`), and it is idempotent on
lists of missing hashes that are in ascending order (`meet_self_iff`). It is decided as soon as one check refuses
(`isResolved_meetAll_iff`), and it rises when the checks rise (`Below.meet`). The three checks of a delta against
its past, combined in any order, give the verdict of the one pass over the closure, with the same missing hashes;
only when the signer is revoked and there is another reason as well is the reason another (`meetAll_checks`).
-/

set_option autoImplicit false
set_option relaxedAutoImplicit false

namespace DidCrdt

/-! ### Lists of missing hashes -/

theorem mergeMissing_comm (a b : List DeltaHash) : mergeMissing a b = mergeMissing b a :=
  OrderedMaps.sortDedup_congr fun h ↦ by rw [List.mem_append, List.mem_append, or_comm]

theorem mergeMissing_assoc (a b c : List DeltaHash) :
    mergeMissing (mergeMissing a b) c = mergeMissing a (mergeMissing b c) := by
  refine OrderedMaps.sortDedup_congr fun h ↦ ?_
  simp only [mergeMissing, List.mem_append, OrderedMaps.mem_sortDedup, or_assoc]

theorem mergeMissing_self_iff (a : List DeltaHash) : mergeMissing a a = a ↔ a.Pairwise (· < ·) := by
  constructor
  · intro h
    rw [← h]
    exact OrderedMaps.pairwise_sortDedup _
  · intro h
    exact (OrderedMaps.pairwise_sortDedup _).eq_of_mem_iff h fun p ↦ by
      rw [OrderedMaps.mem_sortDedup, List.mem_append, or_self]

namespace AdmissionResult

/-! ### The combination of two verdicts -/

theorem meet_comm (a b : AdmissionResult) : a.meet b = b.meet a := by
  cases a <;> cases b <;> simp [meet, min_comm, mergeMissing_comm]

theorem meet_assoc (a b c : AdmissionResult) : (a.meet b).meet c = a.meet (b.meet c) := by
  cases a <;> cases b <;> cases c <;> simp [meet, min_assoc, mergeMissing_assoc]

@[simp] theorem valid_meet (a : AdmissionResult) : valid.meet a = a := by
  cases a <;> rfl

@[simp] theorem meet_valid (a : AdmissionResult) : a.meet valid = a := by
  cases a <;> rfl

theorem meet_self_iff (a : AdmissionResult) : a.meet a = a ↔ a.missing.Pairwise (· < ·) := by
  cases a with
  | unknown missing => simp [meet, AdmissionResult.missing, mergeMissing_self_iff]
  | valid => simp [AdmissionResult.missing]
  | invalid reason => simp [meet, AdmissionResult.missing]

/-- Above in the order of what is known. -/
def Below (a b : AdmissionResult) : Prop :=
  partialCmp a b = some .lt ∨ partialCmp a b = some .eq

/-- Verdicts that rise make the combination rise. -/
theorem Below.meet {a a' b b' : AdmissionResult} (h : Below a a') (h' : Below b b') :
    Below (a.meet b) (a'.meet b') := by
  cases a <;> cases a' <;> cases b <;> cases b' <;>
    simp [Below, AdmissionResult.meet, partialCmp] at h h' ⊢

/-! ### The combination of a list -/

/-- The conjunction of a list of checks. -/
def meetAll (checks : List AdmissionResult) : AdmissionResult := checks.foldl meet .valid

theorem meetAll_perm {checks checks' : List AdmissionResult} (h : checks.Perm checks') :
    meetAll checks = meetAll checks' := by
  have hcomm : RightCommutative meet := ⟨fun a b c ↦ by rw [meet_assoc, meet_comm b c, ← meet_assoc]⟩
  exact h.foldl_eq _

@[simp] theorem meetAll_nil : meetAll [] = .valid := rfl

theorem meetAll_cons (a : AdmissionResult) (checks : List AdmissionResult) :
    meetAll (a :: checks) = a.meet (meetAll checks) := by
  have hassoc : Std.Associative meet := ⟨meet_assoc⟩
  have hfold : (checks.foldl meet (a.meet .valid)) = a.meet (checks.foldl meet .valid) := List.foldl_assoc
  rw [meetAll, List.foldl_cons, valid_meet, ← meet_valid a, hfold, meet_valid]
  rfl

/-- A combination is decided when a check refuses, or when every check is decided. -/
theorem isResolved_meetAll_iff (checks : List AdmissionResult) :
    (meetAll checks).isResolved = true ↔
      (∃ reason, invalid reason ∈ checks) ∨ ∀ check ∈ checks, check.isResolved = true := by
  have hrefused : ∀ checks : List AdmissionResult,
      (∃ reason, meetAll checks = invalid reason) ↔ ∃ reason, invalid reason ∈ checks := by
    intro checks
    induction checks with
    | nil => simp
    | cons a checks ih =>
      rw [meetAll_cons]
      simp only [List.mem_cons, exists_or, ← ih]
      cases a <;> cases meetAll checks <;> simp [meet]
  induction checks with
  | nil => simp [isResolved]
  | cons a checks ih =>
    have h := hrefused checks
    rw [meetAll_cons]
    simp only [List.mem_cons, exists_or]
    cases a <;> cases hrest : meetAll checks <;> simp_all [meet, isResolved]

end AdmissionResult

/-! ### The checks of a delta against its past -/

section Checks

variable (g : DeltaDag) (d : SignedDelta)

/-- What a search for a fact that permits the delta says. -/
def permits (reason : RejectReason) : ClosureQuery → AdmissionResult
  | .found => .valid
  | .notFound => .invalid reason
  | .incomplete missing => .unknown missing

/-- What a search for a fact that forbids the delta says. -/
def forbids (reason : RejectReason) : ClosureQuery → AdmissionResult
  | .found => .invalid reason
  | .notFound => .valid
  | .incomplete missing => .unknown missing

/-- The checks of a delta, one search each: the past adds the signer, does not revoke it, and does not
deactivate the document. -/
def pastChecks : List AdmissionResult :=
  [permits .signerNotAuthorised (g.closureFind d.parents (SignedDelta.adds d.signer)),
    forbids .revoked (g.closureFind d.parents (SignedDelta.revokes d.signer)),
    forbids .deactivated (g.closureFind d.parents SignedDelta.deactivates)]

/-- A search, by whether the closure has a match and what is missing of it. -/
theorem closureFind_eq_of_iff {parents : List DeltaHash} (signer : String) (pred : SignedDelta → Bool)
    {matched : Bool} (hmatched : matched = true ↔ g.ClosureHas parents fun d ↦ pred d = true) :
    g.closureFind parents pred =
      if matched then .found
      else if (scanClosure g parents signer).missing.isEmpty then .notFound
      else .incomplete (scanClosure g parents signer).missing := by
  cases matched with
  | true => exact (g.closureFind_eq_found_iff parents pred).mpr (hmatched.mp rfl)
  | false =>
    have hnone : ¬ g.ClosureHas parents fun d ↦ pred d = true := fun hhas ↦
      Bool.false_ne_true (hmatched.mpr hhas)
    have hscan := scanClosure_missing_isEmpty_iff g parents signer
    rcases g.closureFind_of_no_match parents pred hnone with ⟨hcomplete, heq⟩ | ⟨missing, hne, hmissing, heq⟩
    · simp [heq, hscan.mpr hcomplete]
    · obtain rfl := hmissing.unique (scanClosure_missing g parents signer)
      simpa [heq] using hne

/-- The checks in any order combine to the verdict of the one pass, but for the reason when the signer is
revoked and the document deactivated, or the signer never added. -/
theorem meetAll_checks {g : DeltaDag} {d : SignedDelta} (hparents : d.parents ≠ [])
    {checks : List AdmissionResult} (hperm : checks.Perm (pastChecks g d)) :
    AdmissionResult.meetAll checks =
      if (scanClosure g d.parents d.signer).revoked && (scanClosure g d.parents d.signer).deactivated then
        .invalid .deactivated
      else if (scanClosure g d.parents d.signer).revoked &&
          (scanClosure g d.parents d.signer).missing.isEmpty &&
          !(scanClosure g d.parents d.signer).signerAdded then
        .invalid .signerNotAuthorised
      else verifyCausal d g := by
  have hadds := closureFind_eq_of_iff g d.signer (SignedDelta.adds d.signer)
    (by simpa only [SignedDelta.adds_iff] using scanClosure_signerAdded g d.parents d.signer)
  have hrevokes := closureFind_eq_of_iff g d.signer (SignedDelta.revokes d.signer)
    (by simpa only [SignedDelta.revokes_iff] using scanClosure_revoked g d.parents d.signer)
  have hdeactivates := closureFind_eq_of_iff g d.signer SignedDelta.deactivates
    (by simpa only [SignedDelta.deactivates_iff] using scanClosure_deactivated g d.parents d.signer)
  have hsorted := (scanClosure_missing g d.parents d.signer).1
  rw [AdmissionResult.meetAll_perm hperm, pastChecks, hadds, hrevokes, hdeactivates,
    verifyCausal_of_ne_nil hparents]
  generalize scanClosure g d.parents d.signer = facts at hsorted ⊢
  obtain ⟨added, revoked, deactivated, missing⟩ := facts
  have hmerge : mergeMissing missing missing = missing := (mergeMissing_self_iff missing).mpr hsorted
  cases hempty : missing.isEmpty <;> cases added <;> cases revoked <;> cases deactivated <;>
    simp [hmerge, permits, forbids, AdmissionResult.meetAll, AdmissionResult.meet] <;> decide

end Checks

section Readable

attribute [local instance] Primitives.readable

/-- The key of the document revokes itself, and at the same time deactivates the document. -/
def revokedAndDeactivated : DeltaDag :=
  .rebuild [Document.genesis "u7",
    .readable "did:crdt:u7" "did:crdt:u7#key-0" "u7" 1 55 (.revokeVerificationMethod "did:crdt:u7#key-0")
      ["0.0.0"],
    .readable "did:crdt:u7" "did:crdt:u7#key-0" "u7" 2 55 .deactivate ["0.0.0"]]

/-- After both, the checks say that the document is deactivated, and the one pass that the signer is revoked. -/
theorem meetAll_checks_revoked :
    let d := SignedDelta.readable "did:crdt:u7" "did:crdt:u7#key-0" "u7" 3 55 (.revokeCredential "c")
      ["1.0.55", "2.0.55"]
    AdmissionResult.meetAll (pastChecks revokedAndDeactivated d).reverse = .invalid .deactivated ∧
      verifyCausal d revokedAndDeactivated = .invalid .revoked := by
  intro d
  have hboth : (scanClosure revokedAndDeactivated d.parents d.signer).revoked = true ∧
      (scanClosure revokedAndDeactivated d.parents d.signer).deactivated = true := by decide
  refine ⟨(meetAll_checks (by decide) (List.reverse_perm _)).trans ?_, by decide⟩
  rw [hboth.1, hboth.2]
  rfl

end Readable

end DidCrdt
