import DidCrdt.Theory.Batch
import DidCrdt.Theory.BundleOrder

/-!
# Replaying a bundle

A bundle that passes the structural checks (`Structured`) is replayed in the order found for it. The
replay succeeds when the deltas of the index that were not held are accepted and verified one after the
other, and then it records them (`replay_eq_ok_iff`); otherwise the document stays as it was. Parents
come first in the order, so that a replay never finds a delta pending (`mergeVerifiedBundle_ne_pending`).
-/

set_option autoImplicit false
set_option relaxedAutoImplicit false

namespace DidCrdt

open Std (ExtTreeMap)
open TopologicalOrder (ParentsFirst)

variable [Primitives]

/-! ### The index -/

section Index

variable {bundled : List SignedDelta} {hash : DeltaHash} {d : SignedDelta}

/-- The index holds the last delta of every hash. -/
theorem getElem?_indexBundle (bundled : List SignedDelta) (hash : DeltaHash) :
    (Document.indexBundle bundled)[hash]? =
      bundled.reverse.find? fun d ↦ d.contentHash = hash := by
  induction bundled using List.reverseRecOn with
  | nil => simp [Document.indexBundle]
  | append_singleton bundled d ih =>
    have hlast : Document.indexBundle (bundled ++ [d]) =
        (Document.indexBundle bundled).insert d.contentHash d := by
      simp [Document.indexBundle]
    rw [hlast, OrderedMaps.getElem?_insert, ih, List.reverse_concat, List.find?_cons]
    by_cases hkey : d.contentHash = hash
    · simp [hkey]
    · simp [hkey]

theorem contains_indexBundle (bundled : List SignedDelta) (hash : DeltaHash) :
    (Document.indexBundle bundled).contains hash = true ↔
      hash ∈ bundled.map SignedDelta.contentHash := by
  rw [ExtTreeMap.contains_eq_isSome_getElem?, getElem?_indexBundle, List.find?_isSome, List.mem_map]
  simp

/-- The key of an indexed delta is its hash. -/
theorem contentHash_of_indexBundle (hget : (Document.indexBundle bundled)[hash]? = some d) :
    d.contentHash = hash :=
  (Document.mem_of_indexBundle hget).2

/-- Assumes: no two deltas of the list have the same hash. -/
theorem getElem?_indexBundle_iff (hnodup : (bundled.map SignedDelta.contentHash).Nodup) :
    (Document.indexBundle bundled)[hash]? = some d ↔ d ∈ bundled ∧ d.contentHash = hash := by
  refine ⟨Document.mem_of_indexBundle, fun ⟨hd, hkey⟩ ↦ ?_⟩
  have hin := (contains_indexBundle bundled hash).mpr (hkey ▸ List.mem_map_of_mem hd)
  obtain ⟨e, hget⟩ := (OrderedMaps.contains_iff _ hash).mp hin
  obtain ⟨he, hkey'⟩ := Document.mem_of_indexBundle hget
  rwa [List.inj_on_of_nodup_map hnodup hd he (hkey.trans hkey'.symm)]

end Index

/-! ### The replay -/

/-- The deltas of the index that a replay submits: those of the order that are not held. -/
def Document.submitted (doc : Document) (byHash : BundleIndex) (order : List DeltaHash) :
    List SignedDelta :=
  (order.filter fun h ↦ !doc.dag.contains h).filterMap fun h ↦ byHash[h]?

section Replay

variable {source : Set SignedDelta} {byHash : BundleIndex} {doc result : Document}
  {order : List DeltaHash}

/-- A key of the index in the order is held, or submitted. -/
theorem held_or_submitted (hindex : ∀ (k : DeltaHash) (e : SignedDelta), byHash[k]? = some e →
      e.contentHash = k) {h : DeltaHash} (hh : h ∈ order) (hkey : byHash.contains h = true) :
    doc.dag.contains h = true ∨
      h ∈ (doc.submitted byHash order).map SignedDelta.contentHash := by
  cases hheld : doc.dag.contains h with
  | true => exact Or.inl rfl
  | false =>
    obtain ⟨d, hget⟩ := (OrderedMaps.contains_iff byHash h).mp hkey
    refine Or.inr (List.mem_map.mpr ⟨d, List.mem_filterMap.mpr ⟨h, ?_, hget⟩, hindex h d hget⟩)
    exact List.mem_filter.mpr ⟨hh, by rw [hheld]; rfl⟩

/-- A replay whose first delta is not held. -/
theorem replay_cons_eq_ok_iff {hash : DeltaHash} {d : SignedDelta}
    (hnew : doc.dag.contains hash = false) (hget : byHash[hash]? = some d)
    (hkey : d.contentHash = hash) :
    Document.replay byHash doc (hash :: order) = .ok result ↔
      Accepts doc d ∧ verifySignature d doc = .ok () ∧
        Document.replay byHash (doc.record d) order = .ok result := by
  rw [Document.replay, if_neg (by simp [hnew])]
  simp only [hget]
  cases hsig : verifySignature d doc with
  | error e => simp
  | ok _ =>
    by_cases haccepts : Accepts doc d
    · simp [Document.merge_of_accepts haccepts, haccepts]
    · obtain ⟨_, hheld⟩ := Document.merge_of_not_accepts haccepts
      rcases hmerge : doc.merge d with ⟨next, outcome⟩
      rw [hmerge] at hheld
      cases outcome with
      | error e => simp [haccepts]
      | ok _ =>
        rw [hkey, hnew] at hheld
        exact absurd (hheld rfl) (by simp)

/-- The deltas that a replay submits do not change when others are recorded. -/
theorem submitted_record {d : SignedDelta} (hnot : d.contentHash ∉ order) :
    (doc.record d).submitted byHash order = doc.submitted byHash order := by
  have hsame : ∀ h ∈ order, (doc.record d).dag.contains h = doc.dag.contains h := by
    intro h hh
    rw [Document.dag_record, Bool.eq_iff_iff, DeltaDag.contains_insert]
    exact or_iff_left fun heq ↦ hnot (heq ▸ hh)
  unfold Document.submitted
  rw [List.filter_congr fun h hh ↦ by rw [hsame h hh]]

/-- Assumes: the order lists keys of the index, none twice. A replay succeeds when the deltas submitted
are accepted and verify one after the other, and it records them. -/
theorem replay_eq_ok_iff (hindex : ∀ (k : DeltaHash) (e : SignedDelta), byHash[k]? = some e →
      e ∈ source ∧ e.contentHash = k) (order : List DeltaHash) : ∀ (doc : Document),
    order.Nodup → (∀ h ∈ order, byHash.contains h = true) →
    (Document.replay byHash doc order = .ok result ↔
      Verifies source doc (doc.submitted byHash order) ∧
        result = doc.recordAll (doc.submitted byHash order)) := by
  induction order with
  | nil =>
    intro doc _ _
    rw [Document.replay, Except.ok.injEq]
    exact ⟨fun heq ↦ ⟨trivial, heq.symm⟩, fun h ↦ h.2.symm⟩
  | cons hash order ih =>
    intro doc hnodup hkeys
    obtain ⟨hnot, hnodup⟩ := List.nodup_cons.mp hnodup
    have hrest := fun h hh ↦ hkeys h (List.mem_cons_of_mem hash hh)
    cases hheld : doc.dag.contains hash with
    | true =>
      have hskip : doc.submitted byHash (hash :: order) = doc.submitted byHash order := by
        simp [Document.submitted, hheld]
      rw [Document.replay, if_pos hheld, ih doc hnodup hrest, hskip]
    | false =>
      obtain ⟨d, hget⟩ := (OrderedMaps.contains_iff byHash hash).mp (hkeys hash List.mem_cons_self)
      obtain ⟨hsource, hkey⟩ := hindex hash d hget
      have hcons : doc.submitted byHash (hash :: order) = d :: doc.submitted byHash order := by
        simp [Document.submitted, hheld, hget]
      rw [replay_cons_eq_ok_iff hheld hget hkey, ih (doc.record d) hnodup hrest, hcons,
        submitted_record (hkey.symm ▸ hnot)]
      change _ ↔ (d ∈ source ∧ Accepts doc d ∧ verifySignature d doc = .ok () ∧
        Verifies source (doc.record d) _) ∧ result = (doc.record d).recordAll _
      tauto

/-- Assumes: the order lists keys of the index, none twice, parents first, and every parent is in the
index or held. What every accepted step keeps is kept by the deltas submitted, and they verify. -/
theorem verifies_submitted {P : Document → Prop}
    (hstep : ∀ (working : Document) (h : DeltaHash) (d : SignedDelta), P working →
      byHash[h]? = some d → working.dag.contains h = false →
      (∀ p ∈ d.parents, working.dag.contains p = true) →
      d ∈ source ∧ Accepts working d ∧ verifySignature d working = .ok () ∧ P (working.record d))
    (hindex : ∀ (k : DeltaHash) (e : SignedDelta), byHash[k]? = some e → e.contentHash = k)
    (order : List DeltaHash) : ∀ (working : Document) (done : List DeltaHash), P working →
    order.Nodup → (∀ h ∈ order, byHash.contains h = true) → ParentsFirst byHash.Names done order →
    (∀ h ∈ done, working.dag.contains h = true) →
    (∀ (h : DeltaHash) (d : SignedDelta), byHash[h]? = some d → ∀ p ∈ d.parents,
      byHash.contains p = true ∨ working.dag.contains p = true) →
    Verifies source working (working.submitted byHash order) ∧
      P (working.recordAll (working.submitted byHash order)) := by
  induction order with
  | nil => exact fun working done hP _ _ _ _ _ ↦ ⟨trivial, hP⟩
  | cons hash order ih =>
    intro working done hP hnodup hkeys hordered hdone hgrounded
    obtain ⟨hnot, hnodup⟩ := List.nodup_cons.mp hnodup
    have hrest := fun h hh ↦ hkeys h (List.mem_cons_of_mem hash hh)
    obtain ⟨hparents, hordered⟩ := hordered
    cases hheld : working.dag.contains hash with
    | true =>
      have hskip : working.submitted byHash (hash :: order) = working.submitted byHash order := by
        simp [Document.submitted, hheld]
      rw [hskip]
      refine ih working (done ++ [hash]) hP hnodup hrest hordered (fun h hh ↦ ?_) hgrounded
      rcases List.mem_append.mp hh with hh | hh
      · exact hdone h hh
      · rwa [List.mem_singleton.mp hh]
    | false =>
      obtain ⟨d, hget⟩ := (OrderedMaps.contains_iff byHash hash).mp (hkeys hash List.mem_cons_self)
      have hkey := hindex hash d hget
      have hcons : working.submitted byHash (hash :: order) =
          d :: working.submitted byHash order := by
        simp [Document.submitted, hheld, hget]
      obtain ⟨hsource, haccepts, hsig, hnext⟩ := hstep working hash d hP hget hheld fun p hp ↦ by
        rcases hgrounded hash d hget p hp with hin | hin
        · exact hdone p (hparents p ⟨d, hget, hp, hin⟩)
        · exact hin
      have hgrows : ∀ h, working.dag.contains h = true → (working.record d).dag.contains h = true :=
        fun h hh ↦ (DeltaDag.contains_insert _ _ h).mpr (Or.inl hh)
      obtain ⟨hverifies, hlast⟩ := ih (working.record d) (done ++ [hash]) hnext hnodup hrest hordered
        (fun h hh ↦ by
          rcases List.mem_append.mp hh with hh | hh
          · exact hgrows h (hdone h hh)
          · exact (DeltaDag.contains_insert _ _ h).mpr
              (Or.inr (hkey.trans (List.mem_singleton.mp hh).symm)))
        fun h e he p hp ↦ (hgrounded h e he p hp).imp_right (hgrows p)
      rw [submitted_record (hkey.symm ▸ hnot)] at hverifies hlast
      rw [hcons]
      exact ⟨⟨hsource, haccepts, hsig, hverifies⟩, hlast⟩

/-- Assumes: the order lists keys of the index, parents first, and every parent is in the index or held.
No delta of a replay is pending. -/
theorem replay_ne_pending {deltas : Set SignedDelta} {root : SignedDelta} {missing : List DeltaHash}
    (hfree : CollisionFree deltas) (hindex : ∀ (k : DeltaHash) (e : SignedDelta),
      byHash[k]? = some e → e ∈ deltas ∧ e.contentHash = k)
    (order : List DeltaHash) : ∀ (working : Document) (done : List DeltaHash),
    Coherent deltas root working → ParentsFirst byHash.Names done order →
    (∀ h ∈ order, byHash.contains h = true) → (∀ h ∈ done, working.dag.contains h = true) →
    (∀ (h : DeltaHash) (d : SignedDelta), byHash[h]? = some d → ∀ p ∈ d.parents,
      byHash.contains p = true ∨ working.dag.contains p = true) →
    Document.replay byHash working order ≠ .error (.deltaPending missing) := by
  induction order with
  | nil => exact fun working done _ _ _ _ _ ↦ by simp [Document.replay]
  | cons hash order ih =>
    intro working done hcoherent hordered hkeys hdone hgrounded
    obtain ⟨hparents, hordered⟩ := hordered
    have hrest := fun h hh ↦ hkeys h (List.mem_cons_of_mem hash hh)
    cases hheld : working.dag.contains hash with
    | true =>
      rw [Document.replay, if_pos hheld]
      refine ih working (done ++ [hash]) hcoherent hordered hrest (fun h hh ↦ ?_) hgrounded
      rcases List.mem_append.mp hh with hh | hh
      · exact hdone h hh
      · rwa [List.mem_singleton.mp hh]
    | false =>
      obtain ⟨d, hget⟩ := (OrderedMaps.contains_iff byHash hash).mp (hkeys hash List.mem_cons_self)
      obtain ⟨hd, hkey⟩ := hindex hash d hget
      have hpast : ∀ p ∈ d.parents, working.dag.contains p = true := by
        intro p hp
        rcases hgrounded hash d hget p hp with hin | hin
        · exact hdone p (hparents p ⟨d, hget, hp, hin⟩)
        · exact hin
      rw [Document.replay, if_neg (by simp [hheld])]
      simp only [hget]
      cases hsig : verifySignature d working with
      | error e =>
        have hne := hsig ▸ verifySignature_ne_pending d working missing
        simpa using hne
      | ok _ =>
        rcases Document.merge_fst_eq working d with ⟨haccepts, _⟩ | ⟨hrefuses, _⟩
        · simp only [Document.merge_of_accepts haccepts]
          have hgrows : ∀ h, working.dag.contains h = true →
              (working.record d).dag.contains h = true :=
            fun h hh ↦ (DeltaDag.contains_insert _ _ h).mpr (Or.inl hh)
          refine ih (working.record d) (done ++ [hash])
            (hcoherent.verifiedStep hfree ⟨d, hd, haccepts, hsig, rfl⟩) hordered hrest
            (fun h hh ↦ ?_) fun h e he p hp ↦ (hgrounded h e he p hp).imp_right (hgrows p)
          rcases List.mem_append.mp hh with hh | hh
          · exact hgrows h (hdone h hh)
          · exact (DeltaDag.contains_insert _ _ h).mpr
              (Or.inr (hkey.trans (List.mem_singleton.mp hh).symm))
        · have hpending : (working.merge d).2 ≠ .error (.deltaPending missing) :=
            merge_ne_pending fun missing ↦ hcoherent.verifyCausal_ne_unknown hpast missing
          have hok := (Document.merge_of_not_accepts hrefuses).2
          rcases hmerge : working.merge d with ⟨next, outcome⟩
          rw [hmerge] at hpending hok
          cases outcome with
          | error e => simpa using hpending
          | ok _ =>
            rw [hkey, hheld] at hok
            exact absurd (hok rfl) (by simp)

end Replay

/-! ### Bundles -/

/-- The structural checks of a bundle: it holds its target, and every parent is in it or held. -/
structure Structured (doc : Document) (bundle : ClosureBundle) : Prop where
  target : bundle.target ∈ bundle.deltas.map SignedDelta.contentHash
  grounded : ∀ d ∈ bundle.deltas, ∀ p ∈ d.parents,
    p ∈ bundle.deltas.map SignedDelta.contentHash ∨ doc.dag.contains p = true

section Bundles

variable {doc : Document} {bundle : ClosureBundle} {order : List DeltaHash}

theorem find?_dangling_eq_none (hstructured : Structured doc bundle) :
    (bundle.deltas.flatMap SignedDelta.parents).find? (fun p ↦
      !(Document.indexBundle bundle.deltas).contains p && !doc.dag.contains p) = none := by
  rw [List.find?_eq_none]
  intro p hp hdangling
  obtain ⟨d, hd, hp⟩ := List.mem_flatMap.mp hp
  rw [Bool.and_eq_true, Bool.not_eq_true', Bool.not_eq_true'] at hdangling
  rcases hstructured.grounded d hd p hp with hin | hheld
  · rw [(contains_indexBundle _ p).mpr hin] at hdangling
    exact absurd hdangling.1 (by simp)
  · rw [hheld] at hdangling
    exact absurd hdangling.2 (by simp)

/-- A bundle that passes the structural checks is replayed in the order found for it. -/
theorem mergeVerifiedBundle_of_structured (hstructured : Structured doc bundle)
    (horder : topoOrderBundle (Document.indexBundle bundle.deltas) = .ok order) :
    doc.mergeVerifiedBundle bundle =
      match Document.replay (Document.indexBundle bundle.deltas) doc order with
      | .error e => (doc, .error e)
      | .ok working => (working, .ok (working.deltaLog.length - doc.deltaLog.length)) := by
  have htarget := (contains_indexBundle _ _).mpr hstructured.target
  unfold Document.mergeVerifiedBundle
  dsimp only
  rw [htarget, find?_dangling_eq_none hstructured, horder]
  rfl

omit [Primitives] in
theorem topoOrderBundle_eq_error {byHash : BundleIndex} {e : Error}
    (herror : topoOrderBundle byHash = .error e) :
    e = .deltaRejected "bundle has a parent cycle: tampered" := by
  obtain ⟨found, _, _, _, _, hresult⟩ := TopoOrder.kahn_bundle byHash
  rw [hresult] at herror
  split_ifs at herror
  exact (Except.error.inj herror).symm

/-- Any other bundle is rejected. -/
theorem mergeVerifiedBundle_of_not_structured (hnot : ¬ (Structured doc bundle ∧
      ∃ order, topoOrderBundle (Document.indexBundle bundle.deltas) = .ok order)) :
    ∃ text, doc.mergeVerifiedBundle bundle = (doc, .error (.deltaRejected text)) := by
  unfold Document.mergeVerifiedBundle
  cases htarget : (Document.indexBundle bundle.deltas).contains bundle.target with
  | false =>
    simp only [htarget, Bool.not_false, ↓reduceIte]
    exact ⟨_, rfl⟩
  | true =>
    simp only [htarget, Bool.not_true, Bool.false_eq_true, ↓reduceIte]
    cases hdangling : (bundle.deltas.flatMap SignedDelta.parents).find? fun p ↦
        !(Document.indexBundle bundle.deltas).contains p && !doc.dag.contains p with
    | some p => exact ⟨_, rfl⟩
    | none =>
      have hstructured : Structured doc bundle := by
        refine ⟨(contains_indexBundle _ _).mp htarget, fun d hd p hp ↦ ?_⟩
        have hresolved := List.find?_eq_none.mp hdangling p (List.mem_flatMap.mpr ⟨d, hd, hp⟩)
        rw [← contains_indexBundle]
        cases hin : (Document.indexBundle bundle.deltas).contains p <;>
          cases hheld : doc.dag.contains p <;> simp_all
      cases horder : topoOrderBundle (Document.indexBundle bundle.deltas) with
      | ok order => exact absurd ⟨hstructured, order, horder⟩ hnot
      | error e =>
        rw [topoOrderBundle_eq_error horder]
        exact ⟨_, rfl⟩

/-- What a bundle that passes the structural checks leads to: its new deltas are recorded when they are
accepted and verify one after the other, and otherwise the document stays as it was. -/
theorem mergeVerifiedBundle_spec (hstructured : Structured doc bundle)
    (horder : topoOrderBundle (Document.indexBundle bundle.deltas) = .ok order) :
    let run := doc.submitted (Document.indexBundle bundle.deltas) order
    (Verifies (members bundle.deltas) doc run →
      doc.mergeVerifiedBundle bundle = (doc.recordAll run, .ok run.length)) ∧
    (¬ Verifies (members bundle.deltas) doc run →
      ∃ e, Document.replay (Document.indexBundle bundle.deltas) doc order = .error e ∧
        doc.mergeVerifiedBundle bundle = (doc, .error e)) := by
  intro run
  obtain ⟨hperm, _⟩ := topoOrderBundle_spec horder
  have hreplay : ∀ result, Document.replay (Document.indexBundle bundle.deltas) doc order = .ok result ↔
      Verifies (members bundle.deltas) doc run ∧ result = doc.recordAll run := fun result ↦
    replay_eq_ok_iff (fun k e ↦ Document.mem_of_indexBundle) order doc
      (hperm.nodup_iff.mpr ExtTreeMap.nodup_keys) fun h hh ↦ (OrderedMaps.contains_iff _ h).mpr
        ((OrderedMaps.mem_keys_iff _ h).mp (hperm.mem_iff.mp hh))
  rw [mergeVerifiedBundle_of_structured hstructured horder]
  refine ⟨fun hverifies ↦ ?_, fun hrefused ↦ ?_⟩
  · rw [(hreplay _).mpr ⟨hverifies, rfl⟩]
    simp only [deltaLog_recordAll, List.length_append, Nat.add_sub_cancel_left]
  · cases hresult : Document.replay (Document.indexBundle bundle.deltas) doc order with
    | error e => exact ⟨e, rfl, rfl⟩
    | ok result => exact absurd ((hreplay result).mp hresult).1 hrefused

/-- No bundle leaves a delta pending. -/
theorem mergeVerifiedBundle_ne_pending {deltas : Set SignedDelta} {root : SignedDelta}
    (h : Coherent deltas root doc) (hfree : CollisionFree deltas)
    (hbundle : members bundle.deltas ⊆ deltas) (missing : List DeltaHash) :
    (doc.mergeVerifiedBundle bundle).2 ≠ .error (.deltaPending missing) := by
  by_cases hvalid : Structured doc bundle ∧
      ∃ order, topoOrderBundle (Document.indexBundle bundle.deltas) = .ok order
  · obtain ⟨hstructured, order, horder⟩ := hvalid
    obtain ⟨hperm, hordered⟩ := topoOrderBundle_spec horder
    obtain ⟨hsucceeds, hfails⟩ := mergeVerifiedBundle_spec hstructured horder
    by_cases hverifies : Verifies (members bundle.deltas) doc
        (doc.submitted (Document.indexBundle bundle.deltas) order)
    · rw [hsucceeds hverifies]
      simp
    obtain ⟨e, hreplay, hresult⟩ := hfails hverifies
    have hindex : ∀ (k : DeltaHash) (e : SignedDelta),
        (Document.indexBundle bundle.deltas)[k]? = some e → e ∈ deltas ∧ e.contentHash = k :=
      fun k e hget ↦ (Document.mem_of_indexBundle hget).imp_left (hbundle ·)
    have hne : Document.replay (Document.indexBundle bundle.deltas) doc order ≠
        .error (.deltaPending missing) := replay_ne_pending hfree hindex order doc [] h hordered
      (fun k hk ↦ (OrderedMaps.contains_iff _ k).mpr
        ((OrderedMaps.mem_keys_iff _ k).mp (hperm.mem_iff.mp hk)))
      (fun k hk ↦ absurd hk List.not_mem_nil) fun k d hget p hp ↦ by
        rw [contains_indexBundle]
        exact hstructured.grounded d (Document.mem_of_indexBundle hget).1 p hp
    rw [hreplay] at hne
    rw [hresult]
    simpa using hne
  · obtain ⟨text, hresult⟩ := mergeVerifiedBundle_of_not_structured hvalid
    rw [hresult]
    simp

end Bundles

end DidCrdt
