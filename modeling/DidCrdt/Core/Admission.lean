import DidCrdt.Core.Causal

/-!
# The algebra of admission

Verdicts of several checks are combined by `AdmissionResult.meet`: a refusal absorbs the others, and what is
missing is collected.
-/

set_option autoImplicit false
set_option relaxedAutoImplicit false

namespace DidCrdt

/-- The place of a reason among the reasons, in the order of their declaration. -/
def RejectReason.rank : RejectReason → ℕ
  | .deactivated => 0
  | .genesisOpNotAllowed => 1
  | .signerNotAuthorised => 2
  | .revoked => 3

theorem RejectReason.rank_injective : Function.Injective RejectReason.rank := by
  intro reason other h
  cases reason <;> cases other <;> first | rfl | exact absurd h (by decide)

/-- Reasons in the order of their declaration. -/
instance instLinearOrderRejectReason : LinearOrder RejectReason :=
  LinearOrder.lift' RejectReason.rank RejectReason.rank_injective

/-- Merges two lists of missing hashes. -/
def mergeMissing (a b : List DeltaHash) : List DeltaHash := OrderedMaps.sortDedup (a ++ b)

namespace AdmissionResult

/-- The conjunction of two checks. Of two reasons the smaller one is kept. -/
def meet : AdmissionResult → AdmissionResult → AdmissionResult
  | .invalid a, .invalid b => .invalid (min a b)
  | .invalid reason, .unknown _ => .invalid reason
  | .invalid reason, .valid => .invalid reason
  | .unknown _, .invalid reason => .invalid reason
  | .valid, .invalid reason => .invalid reason
  | .unknown a, .unknown b => .unknown (mergeMissing a b)
  | .unknown a, .valid => .unknown a
  | .valid, .unknown a => .unknown a
  | .valid, .valid => .valid

/-- Whether the verdict is decided. -/
def isResolved : AdmissionResult → Bool
  | .unknown _ => false
  | _ => true

/-- Whether the verdict is final. -/
def isStable (verdict : AdmissionResult) : Bool := verdict.isResolved

/-- The hashes that an undecided verdict waits for. -/
def missing : AdmissionResult → List DeltaHash
  | .unknown missing => missing
  | _ => []

end AdmissionResult

end DidCrdt
