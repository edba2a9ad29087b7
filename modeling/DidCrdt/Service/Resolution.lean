import DidCrdt.Core.Did
import DidCrdt.Core.Representation
import DidCrdt.Service.Handlers

/-!
# Resolution

The service answers what a document resolves to, with the deltas that it was made from when the request asks
for them.
-/

set_option autoImplicit false
set_option relaxedAutoImplicit false

namespace DidCrdt

/-- Whether the value of an option is one of the two spellings that turn it on. -/
def flag (raw : Option String) : Bool := raw = some "true" ∨ raw = some ""

/-- The answers to a resolution. The first two carry the result as JSON. -/
inductive ResolutionAnswer
  | ok (result : ResolutionResult)
  | gone (result : ResolutionResult)
  | failed (response : Response)

section

variable [Primitives] [StateDigests]

/-- What a document resolves to, with its closure when that is asked for. A closure that cannot be extracted
is an error. -/
def Document.resolution (doc : Document) (includeClosure : Bool) : Except Error ResolutionResult :=
  let result := doc.resolve
  if includeClosure then
    doc.closureBundle.map fun bundle ↦
      { result with didDocumentMetadata := { result.didDocumentMetadata with signedClosure := some bundle } }
  else .ok result

/-- Resolves an identifier among the documents that are held. -/
def resolveDid (docs : Docs) (didStr : String) (includeClosure : Option String) : ResolutionAnswer :=
  match Did.fromStr didStr with
  | .error _ => .failed ⟨.badRequest, .text "invalid DID format"⟩
  | .ok did =>
    match docs[did]? with
    | none => .failed ⟨.notFound, .empty⟩
    | some doc =>
      match doc.resolution (flag includeClosure) with
      | .error err => .failed (coreErrorResponse err)
      | .ok result => if result.didDocumentMetadata.deactivated then .gone result else .ok result

end

/-- The result that an answer carries. -/
def ResolutionAnswer.result : ResolutionAnswer → Option ResolutionResult
  | .ok result => some result
  | .gone result => some result
  | .failed _ => none

section

variable [Primitives] [StateDigests] {docs : Docs} {didStr : String} {includeClosure : Option String}

/-- A result that is answered is that of the document held under the identifier. -/
theorem result_resolveDid {result : ResolutionResult}
    (h : (resolveDid docs didStr includeClosure).result = some result) :
    ∃ did doc, Did.fromStr didStr = .ok did ∧ docs[did]? = some doc ∧
      doc.resolution (flag includeClosure) = .ok result := by
  unfold resolveDid at h
  cases hdid : Did.fromStr didStr with
  | error e => simp [hdid, ResolutionAnswer.result] at h
  | ok did =>
    cases hget : docs[did]? with
    | none => simp [hdid, hget, ResolutionAnswer.result] at h
    | some doc =>
      cases hresult : doc.resolution (flag includeClosure) with
      | error e => simp [hdid, hget, hresult, ResolutionAnswer.result] at h
      | ok found =>
        refine ⟨did, doc, rfl, hget, ?_⟩
        simp only [hdid, hget, hresult] at h
        split_ifs at h
        all_goals
          obtain rfl : found = result := Option.some.inj h
          exact hresult

/-- What a result is made of: the projection, and the closure when it was asked for. -/
theorem Document.resolution_eq_ok {doc : Document} {asked : Bool} {result : ResolutionResult}
    (h : doc.resolution asked = .ok result) :
    result.didDocument = doc.resolve.didDocument ∧
      ∀ bundle ∈ result.didDocumentMetadata.signedClosure, doc.closureBundle = .ok bundle := by
  unfold Document.resolution at h
  split_ifs at h
  · cases hbundle : doc.closureBundle with
    | error e => simp [hbundle, Except.map] at h
    | ok bundle =>
      rw [hbundle] at h
      obtain rfl := Except.ok.inj h
      exact ⟨rfl, fun b hb ↦ congrArg Except.ok (Option.some.inj hb)⟩
  · obtain rfl := Except.ok.inj h
    exact ⟨rfl, fun b hb ↦ absurd hb (by simp [Document.resolve])⟩

end

end DidCrdt
