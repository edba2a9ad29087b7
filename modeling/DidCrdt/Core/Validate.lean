import DidCrdt.Core.State

/-!
# Signatures and aliases

`recogniseAlsoKnownAs` accepts the alias sets of a narrow grammar. `verifySignature` checks the proof
of a delta against the verification methods of a document: the key is the first entry with the id
that the proof names, in the order of the set. `verifySignature_eq_ok_iff` separates that lookup from
the check under the key found, which depends on the delta alone (`SignedUnder`). `checkAuthorisation`
asks for the authority of the signer in the state of a document.
-/

set_option autoImplicit false
set_option relaxedAutoImplicit false

namespace DidCrdt

/-! ### Aliases -/

/-- The most aliases of a document. -/
def maxAlsoKnownAs : ℕ := 32

/-- The longest alias, in bytes. -/
def maxAlsoKnownAsUriLen : ℕ := 512

/-- The parts before and after the first colon. -/
def splitOnceColon : List Char → Option (List Char × List Char)
  | [] => none
  | c :: cs =>
    if c = ':' then some ([], cs)
    else (splitOnceColon cs).map fun parts ↦ (c :: parts.1, parts.2)

/-- An ASCII letter. -/
def isAsciiAlphabetic (c : Char) : Bool :=
  ('A' ≤ c && c ≤ 'Z') || ('a' ≤ c && c ≤ 'z')

/-- An ASCII letter or digit. -/
def isAsciiAlphanumeric (c : Char) : Bool :=
  isAsciiAlphabetic c || ('0' ≤ c && c ≤ '9')

/-- A scheme: a letter, then letters, digits and the characters `+`, `-` and `.`. -/
def schemeOk : List Char → Bool
  | [] => false
  | c :: tail =>
    isAsciiAlphabetic c && tail.all fun c ↦ isAsciiAlphanumeric c || c == '+' || c == '-' || c == '.'

/-- A printable ASCII character other than the space. -/
def isPrintable (c : Char) : Bool :=
  '!' ≤ c && c ≤ '~'

/-- Recognises one alias. -/
def recogniseUri [Primitives] (uri : String) : Except Error Unit :=
  if uri.isEmpty || maxAlsoKnownAsUriLen < uri.utf8ByteSize then
    .error (.deltaRejected
      s!"alsoKnownAs entry length {uri.utf8ByteSize} is outside 1..={maxAlsoKnownAsUriLen}")
  else
    match splitOnceColon uri.toList with
    | none =>
      .error (.deltaRejected
        s!"alsoKnownAs entry {debugString uri} is not an absolute URI (no scheme)")
    | some (scheme, rest) =>
      if !schemeOk scheme then
        .error (.deltaRejected s!"alsoKnownAs entry {debugString uri} has a malformed scheme")
      else if rest.isEmpty || !rest.all isPrintable then
        .error (.deltaRejected
          s!"alsoKnownAs entry {debugString uri} has an empty or non-printable body")
      else .ok ()

/-- Recognises an alias set. -/
def recogniseAlsoKnownAs [Primitives] (uris : List String) : Except Error Unit :=
  if maxAlsoKnownAs < uris.length then
    .error (.deltaRejected
      s!"alsoKnownAs carries {uris.length} entries, limit is {maxAlsoKnownAs}")
  else uris.forM recogniseUri

/-- An alias that is not recognised is refused. -/
theorem recogniseUri_error [Primitives] {uri : String} {e : Error} (h : recogniseUri uri = .error e) :
    ∃ text, e = .deltaRejected text := by
  unfold recogniseUri at h
  grind

/-- An alias set that is not recognised is refused. -/
theorem recogniseAlsoKnownAs_error [Primitives] {uris : List String} {e : Error}
    (h : recogniseAlsoKnownAs uris = .error e) : ∃ text, e = .deltaRejected text := by
  have hall : ∀ l : List String, l.forM recogniseUri = .error e → ∃ text, e = .deltaRejected text := by
    intro l
    induction l with
    | nil => exact fun h ↦ absurd h (by simp [pure, Except.pure])
    | cons uri l ih =>
      change (recogniseUri uri >>= fun _ ↦ l.forM recogniseUri) = _ → _
      cases huri : recogniseUri uri with
      | error e' =>
        intro h
        obtain rfl : e' = e := Except.error.inj h
        exact recogniseUri_error huri
      | ok _ => exact ih
  unfold recogniseAlsoKnownAs at h
  split_ifs at h with hmany
  · exact ⟨_, (Except.error.inj h).symm⟩
  · exact hall uris h

/-! ### Signatures -/

variable [Primitives]

/-- Decodes a multibase base64url string with the prefix `u`. -/
def decodeMultibaseU (s : String) : Except Error (List UInt8) :=
  match s.toList with
  | 'u' :: rest =>
    match Primitives.base64Decode (String.ofList rest) with
    | some bytes => .ok bytes
    | none => .error .invalidSignature
  | _ => .error .invalidSignature

/-- The check of decoded signature bytes under a multibase key: the key decodes, the timestamp is
bound to it, and the signature verifies in the suite of the proof. -/
def verifyUnderKey (d : SignedDelta) (sigBytes : List UInt8) (publicKeyMultibase : String) :
    Except Error Unit :=
  match decodeMultibaseU publicKeyMultibase with
  | .error e => .error e
  | .ok keyBytes =>
    let expectedNodeId := Primitives.nodeDigest keyBytes
    if d.timestamp.nodeId ≠ expectedNodeId then
      .error (.unauthorised (s!"node_id {d.timestamp.nodeId.val} does not match BLAKE3 hash of " ++
        s!"signer public key (expected {expectedNodeId.val})"))
    else
      match d.proof.suite with
      | .ed25519Signature2020 =>
        if keyBytes.length ≠ 32 || sigBytes.length ≠ 64 then .error .invalidSignature
        else if Primitives.ed25519Verifies keyBytes d.signingInput sigBytes then .ok ()
        else .error .invalidSignature
      | .ecdsaSecp256k1Signature2019 =>
        if Primitives.secp256k1Verifies keyBytes d.signingInput sigBytes then .ok ()
        else .error .invalidSignature

/-- Verifies the proof of a delta against the verification methods of a document. -/
def verifySignature (d : SignedDelta) (doc : Document) : Except Error Unit :=
  if d.proof.proofValue.isEmpty then
    if (GSet.entries doc.verificationMethods).isEmpty then .ok () else .error .invalidSignature
  else
    match decodeMultibaseU d.proof.proofValue with
    | .error e => .error e
    | .ok sigBytes =>
      match VerificationMethods.findId doc.verificationMethods d.signer with
      | none =>
        .error (.unauthorised s!"verification method {d.signer} not found in document")
      | some entry => verifyUnderKey d sigBytes entry.publicKeyMultibase

theorem verifySignature_ne_pending (d : SignedDelta) (doc : Document) (missing : List DeltaHash) :
    verifySignature d doc ≠ .error (.deltaPending missing) := by
  unfold verifySignature verifyUnderKey decodeMultibaseU
  grind

/-- The proof of the delta is a signature that verifies under the key. -/
def SignedUnder (d : SignedDelta) (publicKeyMultibase : String) : Prop :=
  d.proof.proofValue.isEmpty = false ∧
    ∃ sigBytes, decodeMultibaseU d.proof.proofValue = .ok sigBytes ∧
      verifyUnderKey d sigBytes publicKeyMultibase = .ok ()

/-- Assumes: the document has a verification method. The proof of a delta verifies when it is a
signature under the key of the first entry with the id of the signer. -/
theorem verifySignature_eq_ok_iff {d : SignedDelta} {doc : Document}
    (hne : ∃ e, e ∈ doc.verificationMethods) :
    verifySignature d doc = .ok () ↔
      ∃ e, VerificationMethods.findId doc.verificationMethods d.signer = some e ∧
        SignedUnder d e.publicKeyMultibase := by
  have hentries : (GSet.entries doc.verificationMethods).isEmpty = false := by
    obtain ⟨e, he⟩ := hne
    rw [List.isEmpty_eq_false_iff]
    exact List.ne_nil_of_mem ((GSet.mem_entries _ e).mpr he)
  unfold verifySignature SignedUnder
  cases hproof : d.proof.proofValue.isEmpty with
  | true => simp [hentries]
  | false =>
    simp only [Bool.false_eq_true, ↓reduceIte, true_and]
    cases hsig : decodeMultibaseU d.proof.proofValue with
    | error e => simp
    | ok sigBytes =>
      cases hfind : VerificationMethods.findId doc.verificationMethods d.signer with
      | none => simp
      | some entry => simp

/-! ### Authority in a state -/

/-- Checks a delta against the current state of a document. The rotations of keys are not compared. -/
def checkAuthorisation (d : SignedDelta) (doc : Document) : Except Error Unit :=
  if d.did ≠ doc.did then
    .error (.deltaRejected
      s!"delta DID {d.did.toString} does not match document DID {doc.did.toString}")
  else if doc.deactivated then
    .error (.deltaRejected "document is deactivated; no further mutations are accepted")
  else if (GSet.entries doc.verificationMethods).isEmpty then
    match d.op with
    | .addVerificationMethod _ _ _ _ => .ok ()
    | _ => .error (.unauthorised "only AddVerificationMethod is permitted on a genesis document")
  else if !VerificationMethods.containsId doc.verificationMethods d.signer then
    .error (.unauthorised s!"signer key {d.signer} is not an authorised verification method")
  else if doc.revokedVerificationMethods.contains d.signer then
    .error (.unauthorised s!"signer key {d.signer} has been revoked")
  else .ok ()

omit [Primitives] in
/-- Assumes: the document has a verification method. A delta of the document passes when its signer is one of
the methods and not revoked, and the document is not deactivated. -/
theorem checkAuthorisation_eq_ok_iff {d : SignedDelta} {doc : Document}
    (hne : ∃ e, e ∈ doc.verificationMethods) :
    checkAuthorisation d doc = .ok () ↔
      d.did = doc.did ∧ doc.deactivated = false ∧
        VerificationMethods.containsId doc.verificationMethods d.signer = true ∧
        doc.revokedVerificationMethods.contains d.signer = false := by
  have hentries : (GSet.entries doc.verificationMethods).isEmpty = false := by
    obtain ⟨e, he⟩ := hne
    rw [List.isEmpty_eq_false_iff]
    exact List.ne_nil_of_mem ((GSet.mem_entries _ e).mpr he)
  unfold checkAuthorisation
  rw [hentries]
  by_cases hdid : d.did = doc.did
  · rw [if_neg (not_not.mpr hdid), and_iff_right hdid]
    cases doc.deactivated <;> cases VerificationMethods.containsId doc.verificationMethods d.signer <;>
      cases doc.revokedVerificationMethods.contains d.signer <;> simp
  · simp [hdid]

end DidCrdt
