import DidCrdt.Core.Traversal

/-!
# The causal check against the causal past

The verdict on a delta is a question about the hashes reached from its parents. Whatever was inserted
into the store, and however incomplete it is, `verifyCausal_decides_past` reads every verdict off that
set. A search through the closure answers the three-valued question it is meant to answer
(`closureFind_eq_found_iff`, `closureFind_of_no_match`), so that three searches one after the other give
the verdict that the single scan gives (`searchVerdict_eq`).
-/

set_option autoImplicit false
set_option relaxedAutoImplicit false

namespace DidCrdt

/-! ### The questions of the check -/

namespace SignedDelta

/-- Whether the delta adds a verification method with the id. -/
def adds (id : String) (d : SignedDelta) : Bool :=
  match d.op with
  | .addVerificationMethod added _ _ _ => added = id
  | _ => false

/-- Whether the delta revokes the verification method. -/
def revokes (id : String) (d : SignedDelta) : Bool :=
  match d.op with
  | .revokeVerificationMethod revoked => revoked = id
  | _ => false

/-- Whether the delta deactivates the document. -/
def deactivates (d : SignedDelta) : Bool :=
  match d.op with
  | .deactivate => true
  | _ => false

variable (d : SignedDelta) (id : String)

theorem adds_iff : d.adds id = true ↔ d.AddsMethod id := by
  obtain ⟨_, _, op, _, _⟩ := d
  cases op <;> simp [adds, AddsMethod, Introduces, eq_comm]

theorem revokes_iff : d.revokes id = true ↔ d.RevokesMethod id := by
  obtain ⟨_, _, op, _, _⟩ := d
  cases op <;> simp [revokes, RevokesMethod]

theorem deactivates_iff : d.deactivates = true ↔ d.Deactivates := by
  obtain ⟨_, _, op, _, _⟩ := d
  cases op <;> simp [deactivates, Deactivates]

end SignedDelta

/-- The verdict that three searches through the closure give. A match is decisive, then what is
missing. -/
def searchVerdict (g : DeltaDag) (parents : List DeltaHash) (signer : String) : AdmissionResult :=
  if g.closureFind parents (SignedDelta.revokes signer) = .found then .invalid .revoked
  else
    match g.closureFind parents SignedDelta.deactivates with
    | .found => .invalid .deactivated
    | .incomplete missing => .unknown missing
    | .notFound =>
      if g.closureFind parents (SignedDelta.adds signer) = .found then .valid
      else .invalid .signerNotAuthorised

namespace DeltaDag

/-! ### Searches -/

section Search

variable (g : DeltaDag) (parents : List DeltaHash) (pred : SignedDelta → Bool)

/-- The hashes of the closure that are not held, in ascending order. -/
def Missing (missing : List DeltaHash) : Prop :=
  missing.Pairwise (· < ·) ∧
    ∀ h, h ∈ missing ↔ g.Closure parents h ∧ g.contains h = false

/-- The missing hashes determine their list. -/
theorem Missing.unique {g : DeltaDag} {parents missing missing' : List DeltaHash}
    (h : g.Missing parents missing) (h' : g.Missing parents missing') : missing = missing' :=
  h.1.eq_of_mem_iff h'.1 fun p ↦ (h.2 p).trans (h'.2 p).symm

/-- A search over some visits ends early at a match; otherwise it remembers what is missing. -/
theorem foldlM_findVisit (l : List DeltaHash) : ∀ missing : List DeltaHash,
    l.foldlM (g.findVisit pred) missing =
      if l.any fun h ↦ (g.get h).any pred then .error ()
      else .ok (missing ++ l.filter fun h ↦ !g.contains h) := by
  induction l with
  | nil => exact fun missing ↦ congrArg Except.ok (List.append_nil missing).symm
  | cons h l ih =>
    intro missing
    rw [List.foldlM_cons, List.any_cons, List.filter_cons, contains_eq_isSome_get]
    cases hget : g.get h with
    | none => simpa [findVisit, hget, bind, Except.bind] using ih (missing ++ [h])
    | some d =>
      cases hpred : pred d with
      | true => simp [findVisit, hget, hpred, bind, Except.bind]
      | false => simpa [findVisit, hget, hpred, bind, Except.bind] using ih missing

theorem any_visits_iff : ((g.visits (fun _ ↦ false) parents).any fun h ↦ (g.get h).any pred) = true ↔
    g.ClosureHas parents fun d ↦ pred d = true := by
  rw [List.any_eq_true, ClosureHas]
  refine exists_congr fun h ↦ and_congr (g.mem_visits_closure parents h) ?_
  cases g.get h <;> simp

theorem missing_sortDedup : g.Missing parents
    (OrderedMaps.sortDedup ((g.visits (fun _ ↦ false) parents).filter fun h ↦ !g.contains h)) := by
  refine ⟨OrderedMaps.pairwise_sortDedup _, fun h ↦ ?_⟩
  rw [OrderedMaps.mem_sortDedup, List.mem_filter, g.mem_visits_closure, Bool.not_eq_true']

/-- A search is decided by a match, and without one by what is missing. -/
theorem closureFind_eq : g.closureFind parents pred =
    if (g.visits (fun _ ↦ false) parents).any fun h ↦ (g.get h).any pred then .found
    else .ofMissing ((g.visits (fun _ ↦ false) parents).filter fun h ↦ !g.contains h) := by
  rw [closureFind, foldlM_findVisit]
  split_ifs <;> rfl

theorem closureFind_eq_found_iff : g.closureFind parents pred = .found ↔
    g.ClosureHas parents fun d ↦ pred d = true := by
  rw [closureFind_eq, ← any_visits_iff]
  split_ifs with hany
  · exact iff_of_true rfl hany
  · refine iff_of_false (fun heq ↦ ?_) hany
    unfold ClosureQuery.ofMissing at heq
    split_ifs at heq

/-- A search that matches nothing lists what is missing of the closure, if anything is. -/
theorem closureFind_of_no_match (hnone : ¬ g.ClosureHas parents fun d ↦ pred d = true) :
    (g.ClosureComplete parents ∧ g.closureFind parents pred = .notFound) ∨
      ∃ missing, missing ≠ [] ∧ g.Missing parents missing ∧
        g.closureFind parents pred = .incomplete missing := by
  have hmissing := g.missing_sortDedup parents
  rw [← any_visits_iff] at hnone
  rw [closureFind_eq, if_neg hnone, ClosureQuery.ofMissing]
  split_ifs with hempty
  · refine Or.inl ⟨fun h hh ↦ ?_, rfl⟩
    rw [List.isEmpty_iff.mp hempty, (OrderedMaps.sortDedup_eq_nil_iff _).mpr rfl] at hmissing
    by_contra hnot
    exact List.not_mem_nil ((hmissing.2 h).mpr ⟨hh, by simpa using hnot⟩)
  · refine Or.inr ⟨_, ?_, hmissing, rfl⟩
    rwa [ne_eq, OrderedMaps.sortDedup_eq_nil_iff, ← List.isEmpty_iff]

end Search

end DeltaDag

/-! ### The verdict -/

section Verdict

variable {g : DeltaDag} {d : SignedDelta}

theorem scanClosure_missing (g : DeltaDag) (parents : List DeltaHash) (signer : String) :
    g.Missing parents (scanClosure g parents signer).missing := by
  refine ⟨OrderedMaps.pairwise_sortDedup _, fun h ↦ ?_⟩
  rw [mem_scanClosure_missing, g.contains_eq_isSome_get, Option.isSome_eq_false_iff,
    Option.isNone_iff_eq_none]

theorem not_closureComplete_iff (g : DeltaDag) (parents : List DeltaHash) :
    ¬ g.ClosureComplete parents ↔ ∃ h, g.Closure parents h ∧ g.contains h = false := by
  simp [DeltaDag.ClosureComplete]

theorem verifyCausal_eq_revoked_iff (hparents : d.parents ≠ []) :
    verifyCausal d g = .invalid .revoked ↔
      g.ClosureHas d.parents fun r ↦ r.RevokesMethod d.signer := by
  rw [verifyCausal_of_ne_nil hparents, ← scanClosure_revoked]
  generalize scanClosure g d.parents d.signer = facts
  obtain ⟨added, revoked, deactivated, missing⟩ := facts
  cases added <;> cases revoked <;> cases deactivated <;> cases missing <;> simp

theorem verifyCausal_eq_deactivated_iff (hparents : d.parents ≠ []) :
    verifyCausal d g = .invalid .deactivated ↔
      ¬ g.ClosureHas d.parents (fun r ↦ r.RevokesMethod d.signer) ∧
        g.ClosureHas d.parents SignedDelta.Deactivates := by
  rw [verifyCausal_of_ne_nil hparents, ← scanClosure_revoked g d.parents d.signer,
    ← scanClosure_deactivated g d.parents d.signer]
  generalize scanClosure g d.parents d.signer = facts
  obtain ⟨added, revoked, deactivated, missing⟩ := facts
  cases added <;> cases revoked <;> cases deactivated <;> cases missing <;> simp

theorem verifyCausal_eq_signerNotAuthorised_iff (hparents : d.parents ≠ []) :
    verifyCausal d g = .invalid .signerNotAuthorised ↔
      ¬ g.ClosureHas d.parents (fun r ↦ r.RevokesMethod d.signer) ∧
      ¬ g.ClosureHas d.parents SignedDelta.Deactivates ∧ g.ClosureComplete d.parents ∧
        ¬ g.ClosureHas d.parents fun a ↦ a.AddsMethod d.signer := by
  rw [verifyCausal_of_ne_nil hparents, ← scanClosure_revoked g d.parents d.signer,
    ← scanClosure_deactivated g d.parents d.signer,
    ← scanClosure_missing_isEmpty_iff g d.parents d.signer, ← scanClosure_signerAdded]
  generalize scanClosure g d.parents d.signer = facts
  obtain ⟨added, revoked, deactivated, missing⟩ := facts
  cases added <;> cases revoked <;> cases deactivated <;> cases missing <;> simp

/-- The undecided verdict carries the missing hashes of the closure. -/
theorem verifyCausal_eq_unknown_iff_missing (hparents : d.parents ≠ []) (missing : List DeltaHash) :
    verifyCausal d g = .unknown missing ↔
      ¬ g.ClosureHas d.parents (fun r ↦ r.RevokesMethod d.signer) ∧
      ¬ g.ClosureHas d.parents SignedDelta.Deactivates ∧
        (∃ h, g.Closure d.parents h ∧ g.contains h = false) ∧ g.Missing d.parents missing := by
  rw [verifyCausal_eq_unknown_iff hparents, not_closureComplete_iff]
  have hscan := scanClosure_missing g d.parents d.signer
  constructor
  · rintro ⟨hgap, hrevoked, hdeactivated, rfl⟩
    exact ⟨hrevoked, hdeactivated, hgap, hscan⟩
  · rintro ⟨hrevoked, hdeactivated, hgap, hmissing⟩
    exact ⟨hgap, hrevoked, hdeactivated, hmissing.unique hscan⟩

/-- Three searches through the closure give the verdict of the scan. -/
theorem searchVerdict_eq (hparents : d.parents ≠ []) :
    searchVerdict g d.parents d.signer = verifyCausal d g := by
  have hrevokes : g.closureFind d.parents (SignedDelta.revokes d.signer) = .found ↔
      g.ClosureHas d.parents fun r ↦ r.RevokesMethod d.signer := by
    simp only [g.closureFind_eq_found_iff, SignedDelta.revokes_iff]
  have hadds : g.closureFind d.parents (SignedDelta.adds d.signer) = .found ↔
      g.ClosureHas d.parents fun a ↦ a.AddsMethod d.signer := by
    simp only [g.closureFind_eq_found_iff, SignedDelta.adds_iff]
  unfold searchVerdict
  by_cases hrevoked : g.ClosureHas d.parents fun r ↦ r.RevokesMethod d.signer
  · rw [if_pos (hrevokes.mpr hrevoked), (verifyCausal_eq_revoked_iff hparents).mpr hrevoked]
  rw [if_neg fun hfound ↦ hrevoked (hrevokes.mp hfound)]
  by_cases hdeactivated : g.ClosureHas d.parents SignedDelta.Deactivates
  · have hfound : g.closureFind d.parents SignedDelta.deactivates = .found := by
      simpa only [g.closureFind_eq_found_iff, SignedDelta.deactivates_iff] using hdeactivated
    rw [hfound, (verifyCausal_eq_deactivated_iff hparents).mpr ⟨hrevoked, hdeactivated⟩]
  have hnone : ¬ g.ClosureHas d.parents fun r ↦ r.deactivates = true := by
    simpa only [SignedDelta.deactivates_iff] using hdeactivated
  rcases g.closureFind_of_no_match d.parents _ hnone with ⟨hcomplete, heq⟩ | ⟨missing, hne, hmissing, heq⟩
  · rw [heq]
    by_cases hadded : g.ClosureHas d.parents fun a ↦ a.AddsMethod d.signer
    · exact (if_pos (hadds.mpr hadded)).trans ((verifyCausal_eq_valid_iff hparents).mpr
        ⟨hcomplete, hadded, hrevoked, hdeactivated⟩).symm
    · exact (if_neg fun hfound ↦ hadded (hadds.mp hfound)).trans
        ((verifyCausal_eq_signerNotAuthorised_iff hparents).mpr
          ⟨hrevoked, hdeactivated, hcomplete, hadded⟩).symm
  · obtain ⟨h, hh⟩ := List.exists_mem_of_ne_nil missing hne
    rw [heq, (verifyCausal_eq_unknown_iff_missing hparents missing).mpr
      ⟨hrevoked, hdeactivated, ⟨h, (hmissing.2 h).mp hh⟩, hmissing⟩]

end Verdict

/-- Assumes: the delta has parents. Whatever was inserted, the verdict on a delta is read off the hashes
reached from its parents: a revocation of the signer, then a deactivation, then a gap, then whether the
signer is added. Three searches through the closure give the same verdict, and the loops of the
traversals end whatever the parents are. -/
theorem verifyCausal_decides_past [Primitives] (log : List SignedDelta) (d : SignedDelta)
    (hparents : d.parents ≠ []) :
    let g := DeltaDag.rebuild log
    let revoked := g.ClosureHas d.parents fun r ↦ r.RevokesMethod d.signer
    let deactivated := g.ClosureHas d.parents SignedDelta.Deactivates
    let added := g.ClosureHas d.parents fun a ↦ a.AddsMethod d.signer
    (verifyCausal d g = .invalid .revoked ↔ revoked) ∧
    (verifyCausal d g = .invalid .deactivated ↔ ¬ revoked ∧ deactivated) ∧
    (∀ missing, verifyCausal d g = .unknown missing ↔ ¬ revoked ∧ ¬ deactivated ∧
      (∃ h, g.Closure d.parents h ∧ g.contains h = false) ∧ g.Missing d.parents missing) ∧
    (verifyCausal d g = .valid ↔
      ¬ revoked ∧ ¬ deactivated ∧ g.ClosureComplete d.parents ∧ added) ∧
    (verifyCausal d g = .invalid .signerNotAuthorised ↔
      ¬ revoked ∧ ¬ deactivated ∧ g.ClosureComplete d.parents ∧ ¬ added) ∧
    searchVerdict g d.parents d.signer = verifyCausal d g ∧
    (∀ (parents : List DeltaHash) (fuel : ℕ), g.enough parents ≤ fuel →
      (∀ signer, g.scanClosureLoop fuel parents signer = some (scanClosure g parents signer)) ∧
      (∀ pred, g.closureFindLoop fuel parents pred = some (g.closureFind parents pred)) ∧
      ∀ (α : Type) (f : SignedDelta → Option α),
        g.closureCollectLoop fuel parents f = some (g.closureCollect parents f)) ∧
    ∀ (target : DeltaHash) (stop : List DeltaHash) (fuel : ℕ), g.enough [target] ≤ fuel →
      g.extractClosureLoop fuel target stop = some (g.extractClosure target stop) := by
  intro g revoked deactivated added
  refine ⟨verifyCausal_eq_revoked_iff hparents, verifyCausal_eq_deactivated_iff hparents,
    verifyCausal_eq_unknown_iff_missing hparents, ?_, verifyCausal_eq_signerNotAuthorised_iff hparents,
    searchVerdict_eq hparents, fun parents fuel hfuel ↦ ⟨DeltaDag.scanClosureLoop_eq hfuel,
      DeltaDag.closureFindLoop_eq hfuel, fun α ↦ DeltaDag.closureCollectLoop_eq hfuel⟩,
    fun target stop fuel hfuel ↦ DeltaDag.extractClosureLoop_eq hfuel stop⟩
  rw [verifyCausal_eq_valid_iff hparents, CausallyAuthorised]
  tauto

section Readable

attribute [local instance] Primitives.readable

/-- A delta that names a missing parent twice waits for it. -/
theorem verifyCausal_decides_past_gap :
    let held := SignedDelta.readable "did:crdt:u7" "k" "u7" 3 55 .deactivate ["2.0.55"]
    let above := SignedDelta.readable "did:crdt:u7" "k" "u7" 4 55 (.revokeCredential "c")
      ["1.0.55", "1.0.55"]
    let g := DeltaDag.rebuild [held]
    searchVerdict g above.parents above.signer = .unknown [⟨"1.0.55"⟩] ∧
      ∃ h, g.Closure above.parents h ∧ g.contains h = false := by
  intro held above g
  obtain ⟨_, _, hunknown, _, _, hsearch, _⟩ :=
    verifyCausal_decides_past [held] above (List.cons_ne_nil _ _)
  have hverdict : verifyCausal above g = .unknown [⟨"1.0.55"⟩] := by decide
  exact ⟨hsearch.trans hverdict, ((hunknown _).mp hverdict).2.2.1⟩

end Readable

end DidCrdt
