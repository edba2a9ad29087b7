import DidCrdt.Sync.Gossip

/-!
# Write handlers

The service creates documents (`createDid`) and accepts deltas (`submitDelta`) over the documents of
its store. A submission changes at most the document of its delta, by a merge (`submitDelta_fst`),
while a creation stores the new document whatever was stored under its identifier.
-/

set_option autoImplicit false
set_option relaxedAutoImplicit false

namespace DidCrdt

/-! ### Responses -/

/-- The status codes that the write handlers answer. -/
inductive StatusCode
  | created
  | accepted
  | badRequest
  | forbidden
  | notFound
  | conflict
  | payloadTooLarge
deriving DecidableEq, Repr

/-- The bodies that the write handlers answer. -/
inductive ResponseBody
  | empty
  | text (text : String)
  | pending (missing : List String)
  | document (did : String) (document : ResolutionResult)

/-- An answer. -/
structure Response where
  status : StatusCode
  body : ResponseBody

/-- The answer to an error of the core. -/
def coreErrorResponse (err : Error) : Response :=
  match err with
  | .invalidSignature => ⟨.forbidden, .text err.message⟩
  | .unauthorised _ => ⟨.forbidden, .text err.message⟩
  | .deltaRejected _ => ⟨.conflict, .text err.message⟩
  | .deltaPending _ => ⟨.conflict, .text err.message⟩
  | .deltaTooLarge _ _ => ⟨.payloadTooLarge, .text err.message⟩

/-- The answer that lists missing predecessors. -/
def pendingResponse (missing : List DeltaHash) : Response :=
  ⟨.conflict, .pending (missing.map DeltaHash.toString)⟩

section

variable [Primitives]

/-! ### Handlers -/

/-- Creates a document from a public key. -/
def createDid [StateDigests] (docs : Docs) (publicKeyMultibase : String) : Docs × Response :=
  let (doc, _) := Document.new publicKeyMultibase
  let did := doc.did
  (docs.insert did doc, ⟨.created, .document did.toString doc.resolve⟩)

/-- Accepts a delta for the document of the path. -/
def submitDelta (docs : Docs) (didStr : String) (delta : SignedDelta) : Docs × Response :=
  let size := Primitives.serialisedSize delta
  if maxDeltaSize < size then
    (docs, ⟨.payloadTooLarge, .text
      s!"delta too large: {size} bytes exceeds maximum {maxDeltaSize} bytes"⟩)
  else if delta.did.toString ≠ didStr then
    (docs, ⟨.badRequest, .text "DID in path does not match DID in delta"⟩)
  else
    let did := delta.did
    match docs[did]? with
    | none => (docs, ⟨.notFound, .empty⟩)
    | some doc =>
      -- missing predecessors come first: the key of the signer may be among them
      let missing := doc.missingParents delta
      if !missing.isEmpty then (docs, pendingResponse missing)
      else
        match verifySignature delta doc with
        | .error err => (docs, ⟨.forbidden, .text err.message⟩)
        | .ok () =>
          match doc.merge delta with
          | (doc, .ok ()) => (docs.insert did doc, ⟨.accepted, .empty⟩)
          | (doc, .error (.deltaPending missing)) => (docs.insert did doc, pendingResponse missing)
          | (doc, .error err) => (docs.insert did doc, coreErrorResponse err)

/-- What a submission leaves: the store as it was, or the document of the delta after a merge of the
delta, whose predecessors were held and whose signature verified. -/
theorem submitDelta_fst (docs : Docs) (didStr : String) (delta : SignedDelta) :
    (submitDelta docs didStr delta).1 = docs ∧ (submitDelta docs didStr delta).2.status ≠ .accepted ∨
      ∃ doc, docs[delta.did]? = some doc ∧ doc.missingParents delta = [] ∧
        verifySignature delta doc = .ok () ∧
        (submitDelta docs didStr delta).1 = docs.insert delta.did (doc.merge delta).1 ∧
        ((submitDelta docs didStr delta).2.status = .accepted ↔ (doc.merge delta).2 = .ok ()) := by
  unfold submitDelta
  by_cases hsize : maxDeltaSize < Primitives.serialisedSize delta
  · simp [hsize]
  by_cases hpath : delta.did.toString = didStr
  · cases hget : docs[delta.did]? with
    | none => simp [hsize, hpath, hget]
    | some doc =>
      by_cases hmissing : doc.missingParents delta = []
      · cases hsig : verifySignature delta doc with
        | error err => simp [hsize, hpath, hget, hmissing, hsig]
        | ok _ =>
          refine Or.inr ⟨doc, rfl, hmissing, hsig, ?_⟩
          rcases hmerge : doc.merge delta with ⟨next, outcome⟩
          cases outcome with
          | ok _ => simp [hsize, hpath, hget, hmissing, hsig, hmerge]
          | error err =>
            cases err <;>
              simp [hsize, hpath, hget, hmissing, hsig, hmerge, pendingResponse, coreErrorResponse]
      · simp [hsize, hpath, hget, hmissing, pendingResponse]
  · simp [hsize, hpath]

end

end DidCrdt
