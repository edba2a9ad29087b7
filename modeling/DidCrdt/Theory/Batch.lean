import DidCrdt.Sync.Gossip
import DidCrdt.Theory.Verified

/-!
# Merging a batch

A delivered batch is merged in passes, and only deltas whose predecessors are missing are tried again.
The passes end (`mergeBatch_ends`), and every delta of the batch is then pending, held or was refused
on the way (`mergeBatch_spec`). A refusal is final, so the order matters when the verdict on a payload
changes on the way: when it is admitted on one run of the batch and every copy of it is refused along
another (`Contested`). Without such payloads the result does not depend on the order, and with one it
does (`batch_orderFree_iff`).
-/

set_option autoImplicit false
set_option relaxedAutoImplicit false

namespace DidCrdt

open scoped List

section

variable [Primitives]

/-! ### Verdicts along a run -/

/-- The verified merge of the delta is undecided. -/
def Pending (doc : Document) (d : SignedDelta) : Prop :=
  ∃ missing, (doc.mergeVerifiedDelta d).2 = .error (.deltaPending missing)

/-- The verified merge of the delta is decided, and does not record it. -/
def Refused (doc : Document) (d : SignedDelta) : Prop :=
  ¬ Pending doc d ∧ ¬ (Accepts doc d ∧ verifySignature d doc = .ok ())

/-- The document after the deltas are recorded. -/
def Document.recordAll (doc : Document) (run : List SignedDelta) : Document :=
  run.foldl Document.record doc

/-- The deltas of the run are deltas of the source, and each is accepted and verifies in its turn. -/
def Verifies (source : Set SignedDelta) : Document → List SignedDelta → Prop
  | _, [] => True
  | doc, d :: run =>
    d ∈ source ∧ Accepts doc d ∧ verifySignature d doc = .ok () ∧ Verifies source (doc.record d) run

/-- The delta is refused at some document of the run. -/
def RefusedAlong (d : SignedDelta) : Document → List SignedDelta → Prop
  | doc, [] => Refused doc d
  | doc, e :: run => Refused doc d ∨ RefusedAlong d (doc.record e) run

section Runs

variable {source : Set SignedDelta} {doc last : Document} {d : SignedDelta}
  {run more : List SignedDelta}

theorem recordAll_append (doc : Document) (run more : List SignedDelta) :
    doc.recordAll (run ++ more) = (doc.recordAll run).recordAll more := by
  rw [Document.recordAll, List.foldl_append]
  rfl

theorem deltaLog_recordAll (run : List SignedDelta) :
    ∀ doc : Document, (doc.recordAll run).deltaLog = doc.deltaLog ++ run := by
  induction run with
  | nil => exact fun doc ↦ (List.append_nil _).symm
  | cons d run ih =>
    intro doc
    change ((doc.record d).recordAll run).deltaLog = _
    rw [ih, Document.deltaLog_record, List.append_assoc, List.singleton_append]

theorem mem_logHashes_recordAll (h : DeltaHash) :
    h ∈ (doc.recordAll run).logHashes ↔
      h ∈ doc.logHashes ∨ h ∈ run.map SignedDelta.contentHash := by
  rw [Document.logHashes, deltaLog_recordAll, List.map_append, List.mem_append, Document.logHashes]

/-- What is held stays held along a run. -/
theorem held_recordAll {hash : DeltaHash} (hheld : hash ∈ doc.logHashes) :
    hash ∈ (doc.recordAll run).logHashes :=
  (mem_logHashes_recordAll hash).mpr (Or.inl hheld)

/-- What is missing after a run is missing after every part of it. -/
theorem missing_before {hash : DeltaHash} (hmissing : hash ∉ (doc.recordAll (run ++ more)).logHashes) :
    hash ∉ (doc.recordAll run).logHashes := by
  rw [recordAll_append] at hmissing
  exact mt held_recordAll hmissing

theorem verifies_append (run : List SignedDelta) : ∀ doc : Document,
    Verifies source doc (run ++ more) ↔
      Verifies source doc run ∧ Verifies source (doc.recordAll run) more := by
  induction run with
  | nil => exact fun doc ↦ (iff_of_eq (true_and _)).symm
  | cons d run ih =>
    intro doc
    have hrest := ih (doc.record d)
    change _ ∧ _ ∧ _ ∧ Verifies source (doc.record d) (run ++ more) ↔
      (_ ∧ _ ∧ _ ∧ Verifies source (doc.record d) run) ∧
        Verifies source ((doc.record d).recordAll run) more
    rw [hrest]
    tauto

theorem Verifies.mono {others : Set SignedDelta} (hsub : source ⊆ others) :
    ∀ {doc : Document}, Verifies source doc run → Verifies others doc run := by
  induction run with
  | nil => exact fun _ ↦ trivial
  | cons d run ih =>
    rintro doc ⟨hd, haccepts, hsig, hrest⟩
    exact ⟨hsub hd, haccepts, hsig, ih hrest⟩

/-- What is recorded is new, and comes from the source. -/
theorem Verifies.mem_source (h : Verifies source doc run) : ∀ e ∈ run, e ∈ source := by
  induction run generalizing doc with
  | nil => exact fun e he ↦ absurd he List.not_mem_nil
  | cons d run ih =>
    obtain ⟨hd, _, _, hrest⟩ := h
    intro e he
    rcases List.mem_cons.mp he with rfl | he
    · exact hd
    · exact ih hrest e he

theorem Verifies.verifiedRun (h : Verifies source doc run) :
    VerifiedRun source doc (doc.recordAll run) := by
  induction run generalizing doc with
  | nil => exact .refl
  | cons d run ih =>
    obtain ⟨hd, haccepts, hsig, hrest⟩ := h
    exact .head ⟨d, hd, haccepts, hsig, rfl⟩ (ih hrest)

theorem refusedAlong_append_left (h : RefusedAlong d doc run) :
    RefusedAlong d doc (run ++ more) := by
  induction run generalizing doc with
  | nil =>
    cases more with
    | nil => exact h
    | cons e more => exact Or.inl h
  | cons e run ih => exact h.imp_right ih

theorem refusedAlong_append_right (h : RefusedAlong d (doc.recordAll run) more) :
    RefusedAlong d doc (run ++ more) := by
  induction run generalizing doc with
  | nil => exact h
  | cons e run ih => exact Or.inr (ih h)

end Runs

/-! ### Passes -/

section Passes

variable {source : Set SignedDelta} {doc last : Document} {d : SignedDelta}

/-- An undecided delta leaves the document as it was. -/
theorem fst_of_pending (h : Pending doc d) : (doc.mergeVerifiedDelta d).1 = doc := by
  rcases Document.mergeVerifiedDelta_fst_eq doc d with ⟨haccepts, hsig, _⟩ | ⟨_, heq⟩
  · obtain ⟨missing, hpending⟩ := h
    rw [Document.mergeVerifiedDelta_of_accepts haccepts hsig] at hpending
    exact absurd hpending (by simp)
  · exact heq

theorem step_of_pending {pass : Pass} (h : Pending pass.doc d) :
    pass.step d = { pass with still := pass.still ++ [d] } := by
  have hdoc := fst_of_pending h
  obtain ⟨missing, hpending⟩ := h
  unfold Pass.step
  rcases hresult : pass.doc.mergeVerifiedDelta d with ⟨next, outcome⟩
  rw [hresult] at hdoc hpending
  simp only at hdoc hpending
  rw [hpending, hdoc]

theorem step_of_not_pending {pass : Pass} (h : ¬ Pending pass.doc d) :
    pass.step d =
      { pass with doc := (pass.doc.mergeVerifiedDelta d).1, progressed := true } := by
  unfold Pass.step
  unfold Pending at h
  rcases hresult : pass.doc.mergeVerifiedDelta d with ⟨next, outcome⟩
  rw [hresult] at h
  cases outcome with
  | ok _ => rfl
  | error e =>
    cases e with
    | deltaPending missing => exact absurd ⟨missing, rfl⟩ h
    | _ => rfl

/-- What a pass over a batch does: it records a verified run, keeps undecided deltas of the batch, and
the others are held at its end or refused along the run. Without a decision it changes nothing. -/
structure PassSpec (source : Set SignedDelta) (pass next : Pass) (batch run : List SignedDelta) :
    Prop where
  verifies : Verifies source pass.doc run
  reaches : next.doc = pass.doc.recordAll run
  still : ∀ d ∈ next.still, d ∈ pass.still ∨ d ∈ batch
  kept : ∀ d ∈ pass.still, d ∈ next.still
  decided : ∀ d ∈ batch, d ∈ next.still ∨ d.contentHash ∈ next.doc.logHashes ∨
    RefusedAlong d pass.doc run
  length : next.still.length ≤ pass.still.length + batch.length
  sticky : pass.progressed = true → next.progressed = true
  shrinks : next.progressed = true → pass.progressed = true ∨
    next.still.length < pass.still.length + batch.length
  idle : next.progressed = false → next.doc = pass.doc ∧ ∀ d ∈ batch, Pending pass.doc d

/-- One decided delta before the rest of a pass. -/
theorem PassSpec.cons_decided {pass next : Pass} {batch run : List SignedDelta}
    (hd : d ∈ source) (hdecided : ¬ Pending pass.doc d)
    (h : PassSpec source
      { pass with doc := (pass.doc.mergeVerifiedDelta d).1, progressed := true } next batch run) :
    ∃ run, PassSpec source pass next (d :: batch) run := by
  have hlength := h.length
  have hprogressed := h.sticky rfl
  have hstill := fun e he ↦ (h.still e he).imp_right (List.mem_cons_of_mem d)
  have hshrinks : next.still.length < pass.still.length + (d :: batch).length := by
    simp only [List.length_cons] at hlength ⊢
    omega
  rcases Document.mergeVerifiedDelta_fst_eq pass.doc d with ⟨haccepts, hsig, heq⟩ | ⟨hrefuses, heq⟩
  · rw [heq] at h
    refine ⟨d :: run, ⟨hd, haccepts, hsig, h.verifies⟩, h.reaches, hstill, h.kept, fun e he ↦ ?_,
      hshrinks.le, fun _ ↦ hprogressed, fun _ ↦ Or.inr hshrinks, fun hidle ↦ ?_⟩
    · rcases List.mem_cons.mp he with rfl | he
      · refine Or.inr (Or.inl ?_)
        rw [h.reaches, mem_logHashes_recordAll, Document.logHashes, Document.deltaLog_record]
        exact Or.inl (by simp)
      · exact (h.decided e he).imp_right (Or.imp_right Or.inr)
    · exact absurd hprogressed (by simp [hidle])
  · rw [heq] at h
    refine ⟨run, h.verifies, h.reaches, hstill, h.kept, fun e he ↦ ?_, hshrinks.le,
      fun _ ↦ hprogressed, fun _ ↦ Or.inr hshrinks, fun hidle ↦ ?_⟩
    · rcases List.mem_cons.mp he with rfl | he
      · refine Or.inr (Or.inr ?_)
        have hhere : RefusedAlong e pass.doc [] := ⟨hdecided, hrefuses⟩
        simpa using refusedAlong_append_left hhere
      · exact h.decided e he
    · exact absurd hprogressed (by simp [hidle])

/-- One undecided delta before the rest of a pass. -/
theorem PassSpec.cons_pending {pass next : Pass} {batch run : List SignedDelta}
    (hpending : Pending pass.doc d)
    (h : PassSpec source { pass with still := pass.still ++ [d] } next batch run) :
    PassSpec source pass next (d :: batch) run where
  verifies := h.verifies
  reaches := h.reaches
  still := by
    intro e he
    rcases h.still e he with he | he
    · rcases List.mem_append.mp he with he | he
      · exact Or.inl he
      · exact Or.inr (List.mem_singleton.mp he ▸ List.mem_cons_self)
    · exact Or.inr (List.mem_cons_of_mem d he)
  kept := fun e he ↦ h.kept e (List.mem_append_left _ he)
  decided := by
    intro e he
    rcases List.mem_cons.mp he with rfl | he
    · exact Or.inl (h.kept e (List.mem_append_right _ (List.mem_singleton_self e)))
    · exact h.decided e he
  length := by
    have hlength := h.length
    simp only [List.length_append, List.length_cons, List.length_nil] at hlength ⊢
    omega
  sticky := h.sticky
  shrinks := by
    intro hprogressed
    refine (h.shrinks hprogressed).imp_right fun hlt ↦ ?_
    simp only [List.length_append, List.length_cons, List.length_nil] at hlt ⊢
    omega
  idle := by
    intro hidle
    refine ⟨(h.idle hidle).1, fun e he ↦ ?_⟩
    rcases List.mem_cons.mp he with rfl | he
    · exact hpending
    · exact (h.idle hidle).2 e he

theorem passSpec_foldl (batch : List SignedDelta) : ∀ pass : Pass, (∀ d ∈ batch, d ∈ source) →
    ∃ run, PassSpec source pass (batch.foldl Pass.step pass) batch run := by
  induction batch with
  | nil =>
    intro pass _
    exact ⟨[], trivial, rfl, fun d hd ↦ Or.inl hd, fun d hd ↦ hd, by simp, le_rfl, id, Or.inl,
      fun _ ↦ ⟨rfl, by simp⟩⟩
  | cons d batch ih =>
    intro pass hsource
    have hrest := fun e he ↦ hsource e (List.mem_cons_of_mem d he)
    rw [List.foldl_cons]
    by_cases hpending : Pending pass.doc d
    · rw [step_of_pending hpending]
      obtain ⟨run, h⟩ := ih _ hrest
      exact ⟨run, h.cons_pending hpending⟩
    · rw [step_of_not_pending hpending]
      obtain ⟨run, h⟩ := ih _ hrest
      exact h.cons_decided (hsource d List.mem_cons_self) hpending

/-- What the passes over a batch leave: a verified run was recorded, and every delta of the batch is
pending, held or was refused along the run. -/
structure BatchSpec (source : Set SignedDelta) (doc last : Document) (batch run : List SignedDelta) :
    Prop where
  verifies : Verifies source doc run
  reaches : last = doc.recordAll run
  settled : ∀ d ∈ batch, Pending last d ∨ d.contentHash ∈ last.logHashes ∨ RefusedAlong d doc run

/-- A pass with a decision, and the passes after it. -/
theorem BatchSpec.of_pass {pass : Pass} {batch run more : List SignedDelta}
    (hpass : PassSpec source ⟨doc, false, []⟩ pass batch run)
    (h : BatchSpec source pass.doc last pass.still more) :
    BatchSpec source doc last batch (run ++ more) where
  verifies := (verifies_append run doc).mpr ⟨hpass.verifies, hpass.reaches ▸ h.verifies⟩
  reaches := by rw [recordAll_append, h.reaches, hpass.reaches]
  settled := by
    intro d hd
    have hlast := h.reaches
    rcases hpass.decided d hd with hstill | hheld | hrefused
    · refine (h.settled d hstill).imp_right (Or.imp_right fun hrefused ↦ ?_)
      rw [hpass.reaches] at hrefused
      exact refusedAlong_append_right hrefused
    · rw [hlast]
      exact Or.inr (Or.inl (held_recordAll hheld))
    · exact Or.inr (Or.inr (refusedAlong_append_left hrefused))

/-- A pass with which the passes end. -/
theorem BatchSpec.of_lastPass {pass : Pass} {batch run : List SignedDelta}
    (hpass : PassSpec source ⟨doc, false, []⟩ pass batch run)
    (hstop : (pass.still.isEmpty || !pass.progressed) = true) :
    BatchSpec source doc pass.doc batch run where
  verifies := hpass.verifies
  reaches := hpass.reaches
  settled := by
    intro d hd
    rcases hpass.decided d hd with hstill | hsettled
    · have hidle : pass.progressed = false := by
        cases hempty : pass.still with
        | nil => exact absurd hstill (hempty ▸ List.not_mem_nil)
        | cons e still => simpa [hempty] using hstop
      obtain ⟨hdoc, hpending⟩ := hpass.idle hidle
      exact Or.inl (hdoc ▸ hpending d hd)
    · exact Or.inr hsettled

/-- Assumes: the bound exceeds the number of deltas. The passes end within it; the induction is on the
bound, and every pass but the last leaves fewer deltas. -/
theorem mergeLoop_spec (fuel : ℕ) : ∀ (doc : Document) (pending : List SignedDelta),
    pending.length < fuel → (∀ d ∈ pending, d ∈ source) →
    LoopsTo doc pending (mergeLoop fuel doc pending) ∧
      ∃ run, BatchSpec source doc (mergeLoop fuel doc pending) pending run := by
  induction fuel with
  | zero => exact fun doc pending hlength ↦ absurd hlength (Nat.not_lt_zero _)
  | succ fuel ih =>
    intro doc pending hlength hsource
    obtain ⟨run, hpass⟩ := passSpec_foldl pending ⟨doc, false, []⟩ hsource
    rw [mergeLoop]
    cases hstop : (pending.foldl Pass.step ⟨doc, false, []⟩).still.isEmpty ||
        !(pending.foldl Pass.step ⟨doc, false, []⟩).progressed with
    | true =>
      simp only [↓reduceIte]
      exact ⟨.stop rfl hstop, run, .of_lastPass hpass hstop⟩
    | false =>
      simp only [Bool.false_eq_true, ↓reduceIte]
      have hprogressed : (pending.foldl Pass.step ⟨doc, false, []⟩).progressed = true := by
        simpa using (Bool.or_eq_false_iff.mp hstop).2
      have hshrinks := (hpass.shrinks hprogressed).resolve_left (by simp)
      simp only [List.length_nil, Nat.zero_add] at hshrinks
      have hstill : ∀ d ∈ (pending.foldl Pass.step ⟨doc, false, []⟩).still, d ∈ source :=
        fun d hd ↦ hsource d ((hpass.still d hd).resolve_left List.not_mem_nil)
      obtain ⟨hends, more, hrest⟩ := ih _ _ (by omega) hstill
      exact ⟨.again rfl hstop hends, run ++ more, .of_pass hpass hrest⟩

end Passes

/-- The passes over a batch end, and `mergeBatch` gives the document they end with. -/
theorem mergeBatch_ends (doc : Document) (batch : List SignedDelta) :
    LoopsTo doc batch (doc.mergeBatch batch) :=
  (mergeLoop_spec _ doc batch (Nat.lt_succ_self _) fun _ hd ↦ hd).1

theorem mergeBatch_spec (doc : Document) (batch : List SignedDelta) :
    ∃ run, BatchSpec (members batch) doc (doc.mergeBatch batch) batch run :=
  (mergeLoop_spec _ doc batch (Nat.lt_succ_self _) fun _ hd ↦ hd).2

/-! ### Undecided deltas -/

section Undecided

variable {doc : Document} {d : SignedDelta} {missing : List DeltaHash}

theorem staticGates_ne_pending : doc.staticGates d ≠ .error (.deltaPending missing) := by
  intro h
  rcases staticGates_error h with ⟨_, hrejected⟩ | ⟨_, _, hlarge⟩
  · exact Error.noConfusion hrejected
  · exact Error.noConfusion hlarge

/-- Beyond the causal verdict, a merge leaves nothing undecided. -/
theorem merge_ne_pending (hverdict : ∀ missing, verifyCausal d doc.dag ≠ .unknown missing) :
    (doc.merge d).2 ≠ .error (.deltaPending missing) := by
  have hcausal : doc.causalGate d ≠ .error (.deltaPending missing) := by
    unfold Document.causalGate
    grind
  have hfloor : doc.stateImportFloor d ≠ .error (.deltaPending missing) := by
    unfold Document.stateImportFloor
    grind
  have hstatic : doc.staticGates d ≠ .error (.deltaPending missing) := staticGates_ne_pending
  unfold Document.merge
  grind

/-- A delta is pending when it is not held and the causal verdict on it is unknown. -/
theorem pending_iff : Pending doc d ↔ doc.dag.contains d.contentHash = false ∧
    ∃ missing, verifyCausal d doc.dag = .unknown missing := by
  unfold Pending Document.mergeVerifiedDelta
  by_cases hheld : doc.dag.contains d.contentHash = true
  · simp [hheld]
  rw [if_neg hheld]
  cases hverdict : verifyCausal d doc.dag with
  | unknown missing => simp [hheld]
  | _ =>
    have hmerge : ∀ missing, (doc.merge d).2 ≠ .error (.deltaPending missing) :=
      fun _ ↦ merge_ne_pending (by simp [hverdict])
    cases hsig : verifySignature d doc with
    | error e =>
      have hne := fun missing ↦ hsig ▸ verifySignature_ne_pending d doc missing
      simpa using hne
    | ok _ => simpa using hmerge

end Undecided

/-! ### Coherent documents -/

namespace Coherent

variable {deltas : Set SignedDelta} {root : SignedDelta} {doc : Document} {d : SignedDelta}
  {run : List SignedDelta}

theorem recordAll (h : Coherent deltas root doc) (hfree : CollisionFree deltas)
    (hrun : Verifies deltas doc run) : Coherent deltas root (doc.recordAll run) :=
  h.verifiedRun hfree hrun.verifiedRun

/-- A pending delta has a parent that is not held. -/
theorem exists_missing_of_pending (h : Coherent deltas root doc) (hpending : Pending doc d) :
    ∃ p ∈ d.parents, p ∉ doc.logHashes := by
  obtain ⟨_, missing, hverdict⟩ := pending_iff.mp hpending
  rw [h.dag] at hverdict
  exact (exists_missing_of_unknown h.history hverdict).2

/-- An admissible delta that is not held and not pending is accepted. -/
theorem accepts_of_not_pending (h : Coherent deltas root doc) (hfree : CollisionFree deltas)
    (hadmissible : Admissible deltas root.did d) (hnew : d.contentHash ∉ doc.logHashes)
    (hdecided : ¬ Pending doc d) : Accepts doc d := by
  refine (h.accepts_iff hfree).mpr ⟨hnew, hadmissible, ?_⟩
  by_contra hmissing
  have hclear : ∀ P : SignedDelta → Prop, ¬ PastHas deltas d.parents P →
      ¬ doc.dag.ClosureHas d.parents P := by
    intro P hP hclosure
    rw [h.dag, closureHas_rebuild_iff h.history] at hclosure
    obtain ⟨a, ha, hpast, hPa⟩ := hclosure
    exact hP ⟨a, h.sub ha, hpast.mono h.sub, hPa⟩
  refine hdecided (pending_iff.mpr ⟨(h.contains_eq_false_iff _).mpr hnew, _,
    (verifyCausal_eq_unknown_iff hadmissible.grounded _).mpr ⟨?_, ?_, ?_, rfl⟩⟩)
  · rwa [h.dag, closureComplete_rebuild_iff h.history]
  · exact hclear _ hadmissible.authorised.notRevoked
  · exact hclear _ hadmissible.authorised.notDeactivated

/-- The recorded deltas have distinct content hashes, new to the document. -/
theorem nodup_of_verifies (h : Coherent deltas root doc) (hfree : CollisionFree deltas)
    (hrun : Verifies deltas doc run) : (run.map SignedDelta.contentHash).Nodup := by
  have hnodup := (h.recordAll hfree hrun).history.nodup
  rw [deltaLog_recordAll, List.map_append] at hnodup
  exact hnodup.of_append_right

end Coherent

/-! ### Contested payloads -/

/-- The payload of the delta is admitted on one run of the batch, and every copy of it in the batch is
refused along another. -/
structure Contested (batch : List SignedDelta) (doc : Document) (d : SignedDelta) : Prop where
  admitted : ∃ run, Verifies (members batch) doc run ∧ Accepts (doc.recordAll run) d ∧
    verifySignature d (doc.recordAll run) = .ok ()
  refused : ∃ run, Verifies (members batch) doc run ∧
    d.contentHash ∉ (doc.recordAll run).logHashes ∧
    ∀ e ∈ batch, e.contentHash = d.contentHash → RefusedAlong e doc run

section Uncontested

variable {deltas : Set SignedDelta} {root : SignedDelta} {doc last : Document}
  {batch run : List SignedDelta}

/-- Assumes: no payload of the batch is contested. What the passes over the batch leave holds whatever
any run of the batch records. The induction is on that run. -/
theorem BatchSpec.holds_all (h : Coherent deltas root doc) (hfree : CollisionFree deltas)
    (hbatch : members batch ⊆ deltas) (hclear : ∀ d ∈ batch, ¬ Contested batch doc d)
    (hspec : BatchSpec (members batch) doc last batch run) (other : List SignedDelta)
    (hother : Verifies (members batch) doc other) :
    ∀ hash ∈ (doc.recordAll other).logHashes, hash ∈ last.logHashes := by
  have hlast : Coherent deltas root last :=
    hspec.reaches ▸ h.recordAll hfree (hspec.verifies.mono hbatch)
  induction other using List.reverseRecOn with
  | nil =>
    intro hash hhash
    rw [hspec.reaches]
    exact held_recordAll hhash
  | append_singleton other d ih =>
    obtain ⟨hbefore, hd, haccepts, hsig, _⟩ := (verifies_append other doc).mp hother
    have hheld := ih hbefore
    intro hash hhash
    rw [recordAll_append, mem_logHashes_recordAll, List.map_singleton, List.mem_singleton] at hhash
    rcases hhash with hhash | rfl
    · exact hheld hash hhash
    by_contra hnew
    have hparents := (((h.recordAll hfree (hbefore.mono hbatch)).accepts_iff hfree).mp haccepts).2.2
    refine hclear d hd ⟨⟨other, hbefore, haccepts, hsig⟩, run, hspec.verifies, ?_, fun e he heq ↦ ?_⟩
    · rwa [← hspec.reaches]
    rcases hspec.settled e he with hpending | hin | hrefused
    · obtain ⟨p, hp, hmissing⟩ := hlast.exists_missing_of_pending hpending
      rw [hfree.parents_eq (hbatch he) (hbatch hd) heq] at hp
      exact absurd (hheld p (hparents p hp)) hmissing
    · exact absurd (heq ▸ hin) hnew
    · exact hrefused

/-- Assumes: no payload of the batch is contested. Merging the batch again changes nothing. -/
theorem mergeBatch_again (h : Coherent deltas root doc) (hfree : CollisionFree deltas)
    (hbatch : members batch ⊆ deltas) (hclear : ∀ d ∈ batch, ¬ Contested batch doc d) :
    (doc.mergeBatch batch).mergeBatch batch = doc.mergeBatch batch := by
  obtain ⟨run, hspec⟩ := mergeBatch_spec doc batch
  obtain ⟨more, hmore⟩ := mergeBatch_spec (doc.mergeBatch batch) batch
  have hreaches := hspec.reaches
  have hagain := hmore.reaches
  have hverifies := hmore.verifies
  rw [hreaches] at hverifies
  have hrun : Verifies (members batch) doc (run ++ more) :=
    (verifies_append run doc).mpr ⟨hspec.verifies, hverifies⟩
  have hin := hspec.holds_all h hfree hbatch hclear _ hrun
  have hnodup := (h.recordAll hfree (hrun.mono hbatch)).history.nodup
  rw [deltaLog_recordAll, ← List.append_assoc, ← deltaLog_recordAll run doc, ← hreaches,
    List.map_append] at hnodup
  cases more with
  | nil => exact hagain
  | cons d more =>
    have hd := hin d.contentHash ((mem_logHashes_recordAll _).mpr (Or.inr (by simp)))
    exact absurd (List.disjoint_of_nodup_append hnodup hd (by simp)) not_false

end Uncontested

/-! ### Orders of submission -/

/-- The document after every delta of a list is submitted once. -/
def Document.submitAll (doc : Document) (order : List SignedDelta) : Document :=
  order.foldl (fun doc d ↦ (doc.mergeVerifiedDelta d).1) doc

/-- Every delta of the list is decided in its turn. -/
def Decides : Document → List SignedDelta → Prop
  | _, [] => True
  | doc, d :: order => ¬ Pending doc d ∧ Decides (doc.mergeVerifiedDelta d).1 order

section Orders

variable {source : Set SignedDelta} {doc : Document} {d : SignedDelta}
  {order rest run batch : List SignedDelta}

theorem decides_append (order : List SignedDelta) : ∀ doc : Document,
    Decides doc order → Decides (doc.submitAll order) rest → Decides doc (order ++ rest) := by
  induction order with
  | nil => exact fun doc _ hrest ↦ hrest
  | cons d order ih => exact fun doc hdecides hrest ↦ ⟨hdecides.1, ih _ hdecides.2 hrest⟩

theorem submitAll_append (doc : Document) (order rest : List SignedDelta) :
    doc.submitAll (order ++ rest) = (doc.submitAll order).submitAll rest := by
  rw [Document.submitAll, List.foldl_append]
  rfl

/-- Refused deltas are decided, and leave the document as it was. -/
theorem decides_refused (hrefused : ∀ e ∈ order, Refused doc e) :
    Decides doc order ∧ doc.submitAll order = doc := by
  induction order with
  | nil => exact ⟨trivial, rfl⟩
  | cons e order ih =>
    have he := hrefused e List.mem_cons_self
    have hsame : (doc.mergeVerifiedDelta e).1 = doc := by
      rcases Document.mergeVerifiedDelta_fst_eq doc e with ⟨haccepts, hsig, _⟩ | ⟨_, heq⟩
      · exact absurd ⟨haccepts, hsig⟩ he.2
      · exact heq
    have hrest := ih fun e he ↦ hrefused e (List.mem_cons_of_mem _ he)
    unfold Decides Document.submitAll
    rw [List.foldl_cons, hsame]
    exact ⟨⟨he.1, hrest.1⟩, hrest.2⟩

/-- Deltas that are refused along a run can be submitted in between, each where it is refused. The
induction is on the run. -/
theorem exists_order (run : List SignedDelta) : ∀ (doc : Document) (copies : List SignedDelta),
    Verifies source doc run → (∀ e ∈ copies, RefusedAlong e doc run) →
    ∃ order : List SignedDelta, order.Perm (run ++ copies) ∧ Decides doc order ∧
      doc.submitAll order = doc.recordAll run := by
  classical
  induction run with
  | nil =>
    intro doc copies _ hrefused
    obtain ⟨hdecides, hsame⟩ := decides_refused hrefused
    exact ⟨copies, .refl _, hdecides, hsame⟩
  | cons d run ih =>
    rintro doc copies ⟨_, haccepts, hsig, hrest⟩ hrefused
    have hrecord := Document.mergeVerifiedDelta_of_accepts haccepts hsig
    -- the copies refused at this document come before the delta, the others are left for later
    obtain ⟨order, hperm, hdecides, hreaches⟩ := ih (doc.record d)
      (copies.filter fun e ↦ ¬ Refused doc e) hrest fun e he ↦ by
        obtain ⟨he, hnot⟩ := List.mem_filter.mp he
        exact (hrefused e he).resolve_left (by simpa using hnot)
    have hhere : ∀ e ∈ copies.filter fun e ↦ Refused doc e, Refused doc e :=
      fun e he ↦ by simpa using (List.mem_filter.mp he).2
    obtain ⟨hhere, hsame⟩ := decides_refused hhere
    refine ⟨(copies.filter fun e ↦ Refused doc e) ++ d :: order, ?_, ?_, ?_⟩
    · have hsplit : ((copies.filter fun e ↦ Refused doc e) ++
          copies.filter fun e ↦ ¬ Refused doc e).Perm copies := by
        simpa only [decide_not] using List.filter_append_perm (fun e ↦ decide (Refused doc e)) copies
      calc (copies.filter fun e ↦ Refused doc e) ++ d :: order
        _ ~ d :: ((copies.filter fun e ↦ Refused doc e) ++ order) := List.perm_middle
        _ ~ d :: ((copies.filter fun e ↦ Refused doc e) ++
            (run ++ copies.filter fun e ↦ ¬ Refused doc e)) := (hperm.append_left _).cons d
        _ ~ d :: (run ++ ((copies.filter fun e ↦ Refused doc e) ++
            copies.filter fun e ↦ ¬ Refused doc e)) := (List.perm_append_comm_assoc _ _ _).cons d
        _ ~ d :: run ++ copies := (hsplit.append_left run).cons d
    · refine decides_append _ doc hhere ?_
      rw [hsame]
      refine ⟨fun ⟨missing, hpending⟩ ↦ ?_, ?_⟩
      · rw [hrecord] at hpending
        exact absurd hpending (by simp)
      · rwa [hrecord]
    · rw [submitAll_append, hsame]
      change ((doc.mergeVerifiedDelta d).1).submitAll order = (doc.record d).recordAll run
      rw [hrecord]
      exact hreaches

/-- A pass over decided deltas. -/
theorem foldl_step_of_decides (order : List SignedDelta) : ∀ pass : Pass, Decides pass.doc order →
    order.foldl Pass.step pass =
      ⟨pass.doc.submitAll order, pass.progressed || !order.isEmpty, pass.still⟩ := by
  induction order with
  | nil => exact fun pass _ ↦ by simp [Document.submitAll]
  | cons d order ih =>
    rintro pass ⟨hdecided, hrest⟩
    rw [List.foldl_cons, step_of_not_pending hdecided, ih _ hrest]
    simp [Document.submitAll]

theorem mergeLoop_verifies (fuel : ℕ) : ∀ (doc : Document) (pending : List SignedDelta),
    (∀ d ∈ pending, d ∈ source) →
    ∃ run, Verifies source doc run ∧ mergeLoop fuel doc pending = doc.recordAll run := by
  induction fuel with
  | zero => exact fun doc _ _ ↦ ⟨[], trivial, rfl⟩
  | succ fuel ih =>
    intro doc pending hsource
    obtain ⟨run, hpass⟩ := passSpec_foldl pending ⟨doc, false, []⟩ hsource
    rw [mergeLoop]
    split_ifs with hstop
    · exact ⟨run, hpass.verifies, hpass.reaches⟩
    · obtain ⟨more, hmore, heq⟩ := ih (pending.foldl Pass.step ⟨doc, false, []⟩).doc _ fun d hd ↦
        hsource d ((hpass.still d hd).resolve_left List.not_mem_nil)
      refine ⟨run ++ more, (verifies_append run doc).mpr ⟨hpass.verifies, ?_⟩, ?_⟩
      · exact hpass.reaches ▸ hmore
      · rw [heq, hpass.reaches, recordAll_append]

/-- Assumes: the first deltas of a batch are decided in order. What the batch leaves continues what
they leave, by deltas of the rest. -/
theorem mergeBatch_append (rest : List SignedDelta) (hdecides : Decides doc order) :
    ∃ run, Verifies (members rest) (doc.submitAll order) run ∧
      doc.mergeBatch (order ++ rest) = (doc.submitAll order).recordAll run := by
  have hfirst := foldl_step_of_decides order ⟨doc, false, []⟩ hdecides
  obtain ⟨run, hpass⟩ := passSpec_foldl rest ⟨doc.submitAll order, !order.isEmpty, []⟩
    fun d (hd : d ∈ members rest) ↦ hd
  unfold Document.mergeBatch
  rw [mergeLoop, List.foldl_append, hfirst]
  simp only [Bool.false_or]
  split_ifs with hstop
  · exact ⟨run, hpass.verifies, hpass.reaches⟩
  · obtain ⟨more, hmore, heq⟩ := mergeLoop_verifies (order ++ rest).length
      (rest.foldl Pass.step ⟨doc.submitAll order, !order.isEmpty, []⟩).doc _
      fun d hd ↦ (hpass.still d hd).resolve_left List.not_mem_nil
    refine ⟨run ++ more, (verifies_append run _).mpr ⟨hpass.verifies, ?_⟩, ?_⟩
    · exact hpass.reaches ▸ hmore
    · rw [heq, hpass.reaches, recordAll_append]

/-- A run of the batch, without a delta twice, is the start of an order of the batch. -/
theorem exists_rest (hnodup : (run.map SignedDelta.contentHash).Nodup) (hrun : ∀ e ∈ run, e ∈ batch) :
    ∃ rest, run ++ rest ~ batch := by
  obtain ⟨start, hstart, hsub⟩ := List.subperm_of_subset (List.Nodup.of_map _ hnodup) hrun
  obtain ⟨rest, hrest⟩ := hsub.exists_perm_append
  exact ⟨rest, (hstart.symm.append_right rest).trans hrest.symm⟩

end Orders

section Contested

variable {deltas : Set SignedDelta} {root : SignedDelta} {doc : Document} {d : SignedDelta}
  {batch : List SignedDelta}

theorem Contested.perm {others : List SignedDelta} (h : Contested batch doc d)
    (hperm : batch ~ others) : Contested others doc d := by
  have hmembers : members batch ⊆ members others := fun e he ↦ hperm.mem_iff.mp he
  obtain ⟨⟨run, hrun, hadmitted⟩, more, hmore, hnew, hrefused⟩ := h
  exact ⟨⟨run, hrun.mono hmembers, hadmitted⟩, more, hmore.mono hmembers, hnew,
    fun e he ↦ hrefused e (hperm.mem_iff.mpr he)⟩

/-- A contested payload is held after one order of the batch. -/
theorem Contested.exists_holding (hcontested : Contested batch doc d)
    (h : Coherent deltas root doc) (hfree : CollisionFree deltas) (hbatch : members batch ⊆ deltas)
    (hd : d ∈ batch) : ∃ batch', batch' ~ batch ∧ d.contentHash ∈ (doc.mergeBatch batch').logHashes := by
  obtain ⟨run, hrun, haccepts, hsig⟩ := hcontested.admitted
  have hall : Verifies (members batch) doc (run ++ [d]) :=
    (verifies_append run doc).mpr ⟨hrun, hd, haccepts, hsig, trivial⟩
  obtain ⟨order, hperm, hdecides, hreaches⟩ := exists_order (run ++ [d]) doc [] hall (by simp)
  obtain ⟨rest, hrest⟩ := exists_rest (h.nodup_of_verifies hfree (hall.mono hbatch)) hall.mem_source
  obtain ⟨more, _, hmerged⟩ := mergeBatch_append rest hdecides
  rw [List.append_nil] at hperm
  refine ⟨order ++ rest, (hperm.append_right rest).trans hrest, ?_⟩
  rw [hmerged, hreaches, mem_logHashes_recordAll, mem_logHashes_recordAll]
  exact Or.inl (Or.inr (by simp))

/-- A contested payload is not held after another. -/
theorem Contested.exists_missing (hcontested : Contested batch doc d)
    (h : Coherent deltas root doc) (hfree : CollisionFree deltas) (hbatch : members batch ⊆ deltas) :
    ∃ batch', batch' ~ batch ∧ d.contentHash ∉ (doc.mergeBatch batch').logHashes := by
  obtain ⟨run, hrun, hnew, hrefused⟩ := hcontested.refused
  -- the copies are submitted where they are refused, and the rest of the batch has other payloads
  obtain ⟨order, hperm, hdecides, hreaches⟩ := exists_order run doc
    (batch.filter fun e ↦ e.contentHash = d.contentHash) hrun fun e he ↦ by
      obtain ⟨he, heq⟩ := List.mem_filter.mp he
      exact hrefused e he (by simpa using heq)
  have hothers : ∀ e ∈ run, e ∈ batch.filter fun e ↦ e.contentHash ≠ d.contentHash := by
    intro e he
    refine List.mem_filter.mpr ⟨hrun.mem_source e he, ?_⟩
    have hheld : e.contentHash ∈ (doc.recordAll run).logHashes :=
      (mem_logHashes_recordAll _).mpr (Or.inr (List.mem_map_of_mem he))
    simpa using fun heq : e.contentHash = d.contentHash ↦ hnew (heq ▸ hheld)
  obtain ⟨rest, hrest⟩ := exists_rest (h.nodup_of_verifies hfree (hrun.mono hbatch)) hothers
  obtain ⟨more, hmore, hmerged⟩ := mergeBatch_append rest hdecides
  refine ⟨order ++ rest, ?_, ?_⟩
  · have hsplit := List.filter_append_perm (fun e ↦ decide (e.contentHash = d.contentHash)) batch
    calc order ++ rest
      _ ~ run ++ (batch.filter fun e ↦ e.contentHash = d.contentHash) ++ rest :=
          hperm.append_right rest
      _ ~ (batch.filter fun e ↦ e.contentHash = d.contentHash) ++ run ++ rest :=
          List.perm_append_comm.append_right rest
      _ ~ (batch.filter fun e ↦ e.contentHash = d.contentHash) ++ (run ++ rest) := by
          rw [List.append_assoc]
      _ ~ (batch.filter fun e ↦ e.contentHash = d.contentHash) ++
          batch.filter fun e ↦ e.contentHash ≠ d.contentHash := hrest.append_left _
      _ ~ batch := by simpa only [ne_eq, decide_not] using hsplit
  · rw [hmerged, hreaches, mem_logHashes_recordAll]
    rintro (hheld | hrecorded)
    · exact hnew hheld
    · obtain ⟨e, he, heq⟩ := List.mem_map.mp hrecorded
      have hin := hrest.mem_iff.mp (List.mem_append_right run (hmore.mem_source e he))
      exact absurd heq (by simpa using (List.mem_filter.mp hin).2)

end Contested

/-! ### Delivered batches -/

/-- The content hashes of the deltas held for a document. -/
def storedHashes (docs : Docs) (did : Did) : Set DeltaHash :=
  {hash | ∃ doc, docs[did]? = some doc ∧ hash ∈ doc.logHashes}

/-- Every order of the batch leaves the same deltas, and a second delivery changes nothing. -/
structure OrderFree (docs : Docs) (did : Did) (batch : List SignedDelta) (policy : BootstrapPolicy) :
    Prop where
  same : ∀ batch', batch' ~ batch →
    storedHashes (mergeInbound docs (.deltas did batch') policy).1 did =
      storedHashes (mergeInbound docs (.deltas did batch) policy).1 did
  again : ∀ batch', batch' ~ batch →
    (mergeInbound (mergeInbound docs (.deltas did batch') policy).1 (.deltas did batch') policy).1 =
      (mergeInbound docs (.deltas did batch') policy).1

/-- The payload has the creation delta of the key. -/
def HasCreation (deltas : List SignedDelta) (publicKeyMultibase : String) : Prop :=
  ∃ d ∈ deltas, d.parents = [] ∧ (∃ id, d.Introduces id publicKeyMultibase) ∧
    d.contentHash = (Document.genesis publicKeyMultibase).contentHash

section Delivered

variable {docs : Docs} {did : Did} {doc : Document}

/-- A document that is started was created from a key of its identifier, whose creation delta is in
the payload, and merged with the rest of the payload. -/
theorem genesisBootstrap_ok {docs' : Docs} {deltas : List SignedDelta}
    (hok : genesisBootstrap docs did deltas = .ok docs') :
    ∃ publicKeyMultibase, deriveDid publicKeyMultibase = did ∧
      HasCreation deltas publicKeyMultibase ∧
      docs' = docs.insert did ((Document.new publicKeyMultibase).1.mergeBatch
        (deltas.filter fun d ↦ !d.parents.isEmpty)) := by
  unfold genesisBootstrap at hok
  cases hroots : deltas.filter fun d ↦ d.parents.isEmpty with
  | nil => simp [hroots] at hok
  | cons genesis others =>
    cases others with
    | cons _ _ => simp [hroots] at hok
    | nil =>
      obtain ⟨hmem, hparents⟩ := List.mem_filter.mp (hroots ▸ List.mem_singleton_self genesis)
      cases hop : genesis.op with
      | addVerificationMethod id publicKeyMultibase suite relationships =>
        simp only [hroots, hop] at hok
        split_ifs at hok with hdid hhash
        exact ⟨publicKeyMultibase, not_not.mp hdid, ⟨genesis, hmem, List.isEmpty_iff.mp hparents,
          ⟨id, suite, relationships, hop⟩, not_not.mp hhash⟩, (Except.ok.inj hok).symm⟩
      | _ => simp [hroots, hop] at hok

theorem mergeInbound_of_held (hget : docs[did]? = some doc) (batch : List SignedDelta)
    (policy : BootstrapPolicy) : mergeInbound docs (.deltas did batch) policy =
      (docs.insert did (doc.mergeBatch batch), .merged) := by
  simp only [mergeInbound, hget]

/-- What a message leaves: the store as it was, a stored document after a batch, or a document that was
not stored, created from a key and merged with a batch. -/
theorem mergeInbound_cases (docs : Docs) (msg : SyncMessage) (policy : BootstrapPolicy) :
    ((mergeInbound docs msg policy).1 = docs ∧ (mergeInbound docs msg policy).2 ≠ .merged ∧
        ∀ did, (mergeInbound docs msg policy).2 ≠ .bootstrapped did) ∨
      ∃ did deltas, msg = .deltas did deltas ∧
        ((∃ doc, docs[did]? = some doc ∧
            mergeInbound docs msg policy = (docs.insert did (doc.mergeBatch deltas), .merged)) ∨
          docs[did]? = none ∧ policy.wants did = true ∧
            ∃ publicKeyMultibase, deriveDid publicKeyMultibase = did ∧
            HasCreation deltas publicKeyMultibase ∧ mergeInbound docs msg policy = (docs.insert did
              ((Document.new publicKeyMultibase).1.mergeBatch
                (deltas.filter fun d ↦ !d.parents.isEmpty)), .bootstrapped did)) := by
  cases msg with
  | announce did hash clock => simp [mergeInbound]
  | request did frontier => simp [mergeInbound]
  | deltas did deltas =>
    cases hget : docs[did]? with
    | some doc =>
      exact Or.inr ⟨did, deltas, rfl, Or.inl ⟨doc, hget, mergeInbound_of_held hget deltas policy⟩⟩
    | none =>
      simp only [mergeInbound, hget]
      split_ifs with hwants
      · simp
      cases hstart : genesisBootstrap docs did deltas with
      | error e => simp
      | ok docs' =>
        obtain ⟨publicKeyMultibase, hdid, hcreation, rfl⟩ := genesisBootstrap_ok hstart
        exact Or.inr ⟨did, deltas, rfl, Or.inr
          ⟨hget, by simpa using hwants, publicKeyMultibase, hdid, hcreation, rfl⟩⟩

theorem storedHashes_insert (hash : DeltaHash) :
    hash ∈ storedHashes (docs.insert did doc) did ↔ hash ∈ doc.logHashes := by
  unfold storedHashes
  change (∃ held, (docs.insert did doc)[did]? = some held ∧ hash ∈ held.logHashes) ↔ _
  rw [Std.ExtTreeMap.getElem?_insert_self]
  constructor
  · rintro ⟨held, heq, hmem⟩
    rwa [Option.some.inj heq]
  · exact fun hmem ↦ ⟨doc, rfl, hmem⟩

end Delivered

/-- Assumes: the collection holds the creation delta and does not collide. The passes over a batch
always end. Every order of the batch leaves the same deltas, and a second delivery changes nothing,
exactly when no payload of the batch is contested. -/
theorem batch_orderFree_iff (publicKeyMultibase : String) (deltas : Set SignedDelta)
    (hfree : CollisionFree deltas) (hgenesis : Document.genesis publicKeyMultibase ∈ deltas)
    (doc : Document) (hdoc : IngestedWhile (fun _ _ ↦ True) deltas publicKeyMultibase doc)
    (docs : Docs) (did : Did) (hget : docs[did]? = some doc) (policy : BootstrapPolicy)
    (batch : List SignedDelta) (hbatch : ∀ d ∈ batch, d ∈ deltas) :
    (∀ batch', batch' ~ batch → LoopsTo doc batch' (doc.mergeBatch batch')) ∧
      (OrderFree docs did batch policy ↔ ∀ d ∈ batch, ¬ Contested batch doc d) := by
  have h := hdoc.coherent hfree hgenesis
  have hsub : members batch ⊆ deltas := hbatch
  have hheld : ∀ (batch' : List SignedDelta) (hash : DeltaHash),
      hash ∈ storedHashes (mergeInbound docs (.deltas did batch') policy).1 did ↔
        hash ∈ (doc.mergeBatch batch').logHashes := by
    intro batch' hash
    rw [mergeInbound_of_held hget]
    exact storedHashes_insert hash
  refine ⟨fun batch' _ ↦ mergeBatch_ends doc batch', fun hfreeOrder d hd hcontested ↦ ?_,
    fun hclear ↦ ⟨fun batch' hperm ↦ ?_, fun batch' hperm ↦ ?_⟩⟩
  · obtain ⟨first, hfirst, hin⟩ := hcontested.exists_holding h hfree hsub hd
    obtain ⟨second, hsecond, hout⟩ := hcontested.exists_missing h hfree hsub
    have hsame := (hfreeOrder.same first hfirst).trans (hfreeOrder.same second hsecond).symm
    exact hout ((hheld second _).mp (hsame ▸ (hheld first _).mpr hin))
  · obtain ⟨run, hspec⟩ := mergeBatch_spec doc batch
    obtain ⟨run', hspec'⟩ := mergeBatch_spec doc batch'
    have hmembers : members batch' = members batch := Set.ext fun e ↦ hperm.mem_iff
    have hclear' : ∀ d ∈ batch', ¬ Contested batch' doc d :=
      fun d hd hcontested ↦ hclear d (hperm.mem_iff.mp hd) (hcontested.perm hperm)
    ext hash
    rw [hheld, hheld, hspec.reaches, hspec'.reaches]
    constructor
    · intro hhash
      rw [← hspec.reaches]
      exact hspec.holds_all h hfree hsub hclear run' (hmembers ▸ hspec'.verifies) hash hhash
    · intro hhash
      rw [← hspec'.reaches]
      exact hspec'.holds_all h hfree (hmembers ▸ hsub) hclear' run (hmembers ▸ hspec.verifies) hash
        hhash
  · have hsub' : members batch' ⊆ deltas := fun e he ↦ hbatch e (hperm.mem_iff.mp he)
    have hagain := mergeBatch_again h hfree hsub' fun d hd hcontested ↦
      hclear d (hperm.mem_iff.mp hd) (hcontested.perm hperm)
    rw [mergeInbound_of_held hget]
    rw [mergeInbound_of_held Std.ExtTreeMap.getElem?_insert_self, hagain]
    apply Std.ExtTreeMap.ext_getElem?
    intro k
    rw [OrderedMaps.getElem?_insert, OrderedMaps.getElem?_insert]
    split_ifs <;> rfl

end

end DidCrdt
