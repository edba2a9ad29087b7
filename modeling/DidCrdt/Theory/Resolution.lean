import DidCrdt.Service.Resolution
import DidCrdt.Theory.Coherence
import DidCrdt.Theory.Representation

/-!
# Answers to resolutions

Whatever has reached the documents of a store, an answer has no object with two members of one name
(`resolveDid_distinct`).
-/

set_option autoImplicit false
set_option relaxedAutoImplicit false

namespace DidCrdt

section

variable [Primitives]

/-! ### The deltas of a closure -/

theorem DeltaDag.get_of_mem_collectHeads {g : DeltaDag} {stop heads : List DeltaHash} :
    ∀ {out result : List SignedDelta}, g.collectHeads stop heads out = .ok result →
      ∀ d ∈ result, d ∈ out ∨ ∃ hash, g.get hash = some d := by
  induction heads with
  | nil =>
    intro out result h d hd
    rw [← Except.ok.inj h] at hd
    exact Or.inl hd
  | cons head heads ih =>
    intro out result h d hd
    rw [collectHeads] at h
    cases hextract : g.extractClosure head stop with
    | error e => simp [hextract] at h
    | ok bundle =>
      rw [hextract] at h
      refine (ih h d hd).elim (fun hd ↦ ?_) Or.inr
      refine (mem_appendNew_sub _ _ d hd).imp_right fun hd ↦ ?_
      rw [extractClosure] at hextract
      cases hmissing : (g.visits (fun h ↦ stop.contains h) [head]).find? fun h ↦ !g.contains h with
      | some missing =>
        simp only [hmissing] at hextract
        exact absurd hextract (by simp)
      | none =>
        simp only [hmissing] at hextract
        obtain rfl := Except.ok.inj hextract
        obtain ⟨hash, -, hget⟩ := List.mem_filterMap.mp hd
        exact ⟨hash, hget⟩

/-- The deltas of a closure are held. -/
theorem Document.get_of_mem_closureBundle {doc : Document} {bundle : ClosureBundle}
    (h : doc.closureBundle = .ok bundle) {d : SignedDelta} (hd : d ∈ bundle.deltas) :
    ∃ hash, doc.dag.get hash = some d := by
  unfold Document.closureBundle at h
  cases hlast : (doc.dag.frontier.insertionSort (· ≤ ·)).getLast? with
  | none => simp [hlast] at h
  | some target =>
    cases hcollect : doc.dag.collectHeads [] (doc.dag.frontier.insertionSort (· ≤ ·)) [] with
    | error e => simp [hlast, hcollect, Except.map] at h
    | ok deltas =>
      simp only [hlast, hcollect] at h
      obtain rfl := Except.ok.inj h
      exact (DeltaDag.get_of_mem_collectHeads hcollect d hd).resolve_left List.not_mem_nil

/-! ### Names and texts -/

/-- The property holds of the document data of the state, and of that of the deltas held. -/
structure Document.DataAll (P : Json → Prop) (doc : Document) : Prop where
  state : ∀ entry ∈ doc.dataEntries, P entry.2
  deltas : ∀ hash d, doc.dag.get hash = some d → ∀ key value, d.op = .setDocumentData key value → P value

variable [StateDigests]

/-- A result is the projection of the state of a document. -/
theorem Document.mem_resolve {doc : Document} {asked : Bool} {result : ResolutionResult}
    (h : doc.resolution asked = .ok result) {projection : DidDocument}
    (hprojection : projection ∈ result.didDocument) : projection = doc.toCrdtState.didDocument := by
  rw [(Document.resolution_eq_ok h).1, Document.resolve] at hprojection
  split_ifs at hprojection
  · exact absurd hprojection (by simp)
  · exact (Option.some.inj hprojection).symm

variable {docs : Docs} {didStr : String} {includeClosure : Option String} {result : ResolutionResult}

/-- Whatever keys the document data has, no object of an answer has two members of one name. -/
theorem resolveDid_distinct (h : (resolveDid docs didStr includeClosure).result = some result)
    (hvalues : ∀ (did : Did) (doc : Document), docs[did]? = some doc → doc.DataAll Json.IsValue) :
    result.toJson.distinct = true := by
  obtain ⟨did, doc, -, hget, hresult⟩ := result_resolveDid h
  have hdata := hvalues did doc hget
  refine ResolutionResult.distinct_toJson (fun projection hprojection ↦ ?_) (fun projection hprojection ↦ ?_)
    fun bundle hbundle d hd ↦ ?_
  · rw [Document.mem_resolve hresult hprojection]
    exact doc.projected_didDocument
  · rw [Document.mem_resolve hresult hprojection]
    exact doc.extraData_didDocument hdata.state
  · obtain ⟨hash, hheld⟩ :=
      Document.get_of_mem_closureBundle ((Document.resolution_eq_ok hresult).2 bundle hbundle) hd
    exact hdata.deltas hash d hheld

end

section Readable

attribute [local instance] Primitives.readable StateDigests.readable

/-- The key of a document with a well-formed identifier. -/
def hexKey : String := String.ofList (List.replicate 64 '0')

theorem wellFormed_hexKey : (deriveDid hexKey).WellFormed :=
  ⟨List.replicate 64 '0', by decide, List.length_replicate,
    fun c hc ↦ by rw [List.eq_of_mem_replicate hc]; decide⟩

/-- A document into whose data a reserved key was merged. -/
def shadowed : Document :=
  { (Document.new hexKey).1 with documentData := DocumentData.set ∅ "id" (.string "other") ⟨1, 0, 0⟩ }

theorem eq_shadowed {did : Did} {doc : Document}
    (h : ((∅ : Docs).insert (deriveDid hexKey) shadowed)[did]? = some doc) : doc = shadowed := by
  rw [OrderedMaps.getElem?_insert] at h
  split_ifs at h
  · exact (Option.some.inj h).symm
  · exact absurd h (by simp)

theorem resolveDid_shadowed :
    (resolveDid ((∅ : Docs).insert (deriveDid hexKey) shadowed) (deriveDid hexKey).toString none).result =
      some shadowed.resolve := by
  have hget : ((∅ : Docs).insert (deriveDid hexKey) shadowed)[deriveDid hexKey]? = some shadowed :=
    (OrderedMaps.getElem?_insert ..).trans (if_pos rfl)
  have hresult : shadowed.resolution (flag none) = .ok shadowed.resolve := by
    rw [Document.resolution, if_neg (by decide)]
  unfold resolveDid
  simp only [Did.fromStr_toString wellFormed_hexKey, hget, hresult]
  split_ifs <;> rfl

theorem dataAll_shadowed : shadowed.DataAll Json.IsValue where
  state := by
    have hdata : shadowed.dataEntries = [("id", .string "other")] := rfl
    rw [hdata, List.forall_mem_singleton]
    rfl
  deltas := by
    intro hash d hget key value hop
    have hlog : shadowed.dag = .rebuild [Document.genesis hexKey] := rfl
    rw [hlog, DeltaDag.get_rebuild] at hget
    rw [List.mem_singleton.mp (List.mem_of_find?_eq_some hget)] at hop
    exact absurd hop (by simp [Document.genesis, Document.genesisOp, SignedDelta.unsigned])

theorem resolveDid_distinct_shadowed : shadowed.resolve.toJson.distinct = true :=
  resolveDid_distinct resolveDid_shadowed fun did doc hget ↦ by
    rw [eq_shadowed hget]
    exact dataAll_shadowed

end Readable

end DidCrdt
