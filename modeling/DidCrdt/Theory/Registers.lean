import DidCrdt.Core.Resolve
import DidCrdt.Theory.Convergence

/-!
# Last-writer-wins fields

The document data and the alias set overwrite when a timestamp is strictly greater, and compare
nothing else. So two writes to one key with one timestamp are decided by the order in which they
arrive, and writes at the all-zero timestamp, which is that of the placeholder, are not stored.

`DocumentData.converges_iff` and `AlsoKnownAs.converges_iff` say that these are the only exceptions:
the fields converge and read back their latest write exactly when the writes are `Unambiguous`.
-/

set_option autoImplicit false
set_option relaxedAutoImplicit false

namespace DidCrdt

open LastWriter (LWWReg Latest)

/-! ### Document data -/

namespace DocumentData

/-- A write to a key. -/
structure Write where
  key : String
  value : Json
  timestamp : HlcTimestamp

/-- The map after some writes, in order. -/
def setAll (m : DocumentData) (writes : List Write) : DocumentData :=
  writes.foldl (fun m w ↦ m.set w.key w.value w.timestamp) m

/-- The writes of a list, as a relation. -/
def Wrote (writes : List Write) (k : String) (v : Json) (t : HlcTimestamp) : Prop :=
  ⟨k, v, t⟩ ∈ writes

/-- The order of the writes does not matter, states built from them merge as in a semilattice, and a
written key reads back the value of a latest write. -/
structure Converges (writes : List Write) : Prop where
  order : ∀ l, l.Perm writes → setAll ∅ l = setAll ∅ writes
  comm : ∀ a b, a ⊆ writes → b ⊆ writes →
    (setAll ∅ a).merge (setAll ∅ b) = (setAll ∅ b).merge (setAll ∅ a)
  assoc : ∀ a b c, a ⊆ writes → b ⊆ writes → c ⊆ writes →
    ((setAll ∅ a).merge (setAll ∅ b)).merge (setAll ∅ c) =
      (setAll ∅ a).merge ((setAll ∅ b).merge (setAll ∅ c))
  idem : ∀ a, a ⊆ writes → (setAll ∅ a).merge (setAll ∅ a) = setAll ∅ a
  reads : ∀ w ∈ writes, ∃ latest ∈ writes, latest.key = w.key ∧
    (∀ w' ∈ writes, w'.key = w.key → w'.timestamp ≤ latest.timestamp) ∧
    (setAll ∅ writes).get w.key = some latest.value

/-- Two writes to a key with one timestamp other than zero write one value, and a key that is written
at timestamp zero only is written the placeholder. -/
structure Unambiguous (writes : List Write) : Prop where
  ties : ∀ w ∈ writes, ∀ w' ∈ writes, w.key = w'.key → w.timestamp = w'.timestamp →
    w.timestamp ≠ .default → w.value = w'.value
  zero : ∀ w ∈ writes, (∀ w' ∈ writes, w'.key = w.key → w'.timestamp = .default) →
    ∃ w' ∈ writes, w'.key = w.key ∧ w'.value = .null

theorem setAll_concat (m : DocumentData) (l : List Write) (w : Write) :
    setAll m (l ++ [w]) = (setAll m l).set w.key w.value w.timestamp := by
  rw [setAll, setAll, List.foldl_append, List.foldl_cons, List.foldl_nil]

/-- Every key holds its latest write. -/
theorem written_setAll (writes : List Write) : Written (Wrote writes) (setAll ∅ writes) := by
  induction writes using List.reverseRecOn with
  | nil => exact Written.nothing.congr fun k v t ↦ by simp [Wrote]
  | append_singleton l w ih =>
    rw [setAll_concat]
    refine ih.set w.key w.value w.timestamp fun k v t ↦ ?_
    obtain ⟨key, value, timestamp⟩ := w
    simp only [Wrote, List.mem_append, List.mem_singleton, Write.mk.injEq]
    rw [eq_comm (a := k)]

section Convergence

variable {writes : List Write}

theorem Unambiguous.functional (h : Unambiguous writes) (k : String) (v v' : Json)
    (t : HlcTimestamp) (hpositive : HlcTimestamp.default < t) (hw : Wrote writes k v t)
    (hw' : Wrote writes k v' t) : v = v' :=
  h.ties _ hw _ hw' rfl rfl hpositive.ne'

/-- Two states that hold the latest of the same unambiguous writes are equal. -/
theorem Unambiguous.eq_of_written (h : Unambiguous writes) {m m' : DocumentData}
    {W : String → Json → HlcTimestamp → Prop} (hsub : ∀ k v t, W k v t → Wrote writes k v t)
    (hm : Written W m) (hm' : Written W m') : m = m' :=
  Written.unique (fun k v v' t hpositive hw hw' ↦
    h.functional k v v' t hpositive (hsub k v t hw) (hsub k v' t hw')) hm hm'

/-- A written key holds a latest write, or was written at timestamp zero only and holds the
placeholder. -/
theorem get_setAll {w : Write} (hw : w ∈ writes) :
    (∃ latest ∈ writes, latest.key = w.key ∧ HlcTimestamp.default < latest.timestamp ∧
      (∀ w' ∈ writes, w'.key = w.key → w'.timestamp ≤ latest.timestamp) ∧
      (setAll ∅ writes).get w.key = some latest.value) ∨
    ((∀ w' ∈ writes, w'.key = w.key → w'.timestamp = .default) ∧
      (setAll ∅ writes).get w.key = some .null) := by
  have hwritten := written_setAll writes
  cases hslot : (setAll ∅ writes)[w.key]? with
  | none => exact absurd hw (hwritten.absent w.key hslot w.value w.timestamp)
  | some reg =>
    have hget : (setAll ∅ writes).get w.key = some reg.val := by rw [get, hslot, Option.map_some]
    rcases (hwritten.present w.key reg hslot).2.greatest with
      ⟨hlatest, hpositive, hupper⟩ | ⟨rfl, hupper⟩
    · refine Or.inl ⟨⟨w.key, reg.val, reg.marker⟩, hlatest, rfl, hpositive,
        fun w' hw' hkey ↦ ?_, hget⟩
      exact hupper w'.value w'.timestamp (hkey ▸ hw')
    · refine Or.inr ⟨fun w' hw' hkey ↦ ?_, hget⟩
      exact le_antisymm (hupper w'.value w'.timestamp (hkey ▸ hw')) (HlcTimestamp.default_le _)

/-- The writes of two lists. -/
theorem written_merge (a b : List Write) :
    Written (Wrote (a ++ b)) ((setAll ∅ a).merge (setAll ∅ b)) :=
  (written_setAll a).merge (written_setAll b) fun _ _ _ ↦ List.mem_append

theorem Unambiguous.converges (h : Unambiguous writes) : Converges writes where
  order l hperm := by
    refine h.eq_of_written (fun k v t hw ↦ hw)
      ((written_setAll l).congr fun k v t ↦ ?_) (written_setAll writes)
    exact hperm.mem_iff.symm
  comm a b ha hb := by
    refine h.eq_of_written (W := Wrote (a ++ b)) (fun k v t hw ↦ ?_) (written_merge a b)
      ((written_merge b a).congr fun k v t ↦ List.perm_append_comm.mem_iff)
    exact (List.mem_append.mp hw).elim (fun hw ↦ ha hw) fun hw ↦ hb hw
  assoc a b c ha hb hc := by
    refine h.eq_of_written (W := Wrote (a ++ b ++ c)) (fun k v t hw ↦ ?_)
      ((written_merge a b).merge (written_setAll c) fun _ _ _ ↦ List.mem_append)
      ((written_setAll a).merge (written_merge b c) fun _ _ _ ↦ ?_)
    · rcases List.mem_append.mp hw with hw | hw
      · exact (List.mem_append.mp hw).elim (fun hw ↦ ha hw) fun hw ↦ hb hw
      · exact hc hw
    · rw [Wrote, List.append_assoc, List.mem_append]
      exact Iff.rfl
  idem a ha := by
    refine h.eq_of_written (W := Wrote a) (fun k v t hw ↦ ha hw)
      ((written_merge a a).congr fun k v t ↦ ?_) (written_setAll a)
    simp [Wrote]
  reads w hw := by
    rcases get_setAll hw with ⟨latest, hlatest, hkey, _, hupper, hget⟩ | ⟨hzero, hget⟩
    · exact ⟨latest, hlatest, hkey, hupper, hget⟩
    · obtain ⟨w', hw', hkey, hnull⟩ := h.zero w hw hzero
      refine ⟨w', hw', hkey, fun w'' hw'' hkey' ↦ ?_, by rw [hget, hnull]⟩
      rw [hzero w'' hw'' hkey', hzero w' hw' hkey]

theorem getElem?_setAll_singleton (w : Write) (hpositive : HlcTimestamp.default < w.timestamp) :
    (setAll ∅ [w])[w.key]? = some ⟨w.value, w.timestamp⟩ := by
  change (DocumentData.set ∅ w.key w.value w.timestamp)[w.key]? = _
  rw [getElem?_set, if_pos rfl, write, LWWReg.update, if_pos]
  · simpa [initial] using hpositive

theorem Converges.unambiguous (h : Converges writes) : Unambiguous writes where
  ties w hw w' hw' hkey htime hne := by
    have hpositive : HlcTimestamp.default < w.timestamp :=
      lt_of_le_of_ne (HlcTimestamp.default_le _) hne.symm
    have hcomm := congrArg (fun m : DocumentData ↦ m[w.key]?)
      (h.comm [w] [w'] (by simpa using hw) (by simpa using hw'))
    have hslot := getElem?_setAll_singleton w hpositive
    have hslot' := getElem?_setAll_singleton w' (htime ▸ hpositive)
    rw [← hkey] at hslot'
    simp only [getElem?_merge, hslot, hslot', write, Option.getD_some, LWWReg.update, htime,
      lt_irrefl, ↓reduceIte, Option.some.injEq, LWWReg.mk.injEq, and_true] at hcomm
    exact hcomm
  zero w hw hzero := by
    obtain ⟨latest, hlatest, hkey, _, hget⟩ := h.reads w hw
    refine ⟨latest, hlatest, hkey, ?_⟩
    rcases get_setAll hw with ⟨other, hother, hkey', hpositive, _, _⟩ | ⟨_, hget'⟩
    · exact absurd (hzero other hother hkey') hpositive.ne'
    · exact Option.some.inj (hget.symm.trans hget')

end Convergence

/-- The document data converges exactly on unambiguous writes. -/
theorem converges_iff (writes : List Write) : Converges writes ↔ Unambiguous writes :=
  ⟨Converges.unambiguous, Unambiguous.converges⟩

end DocumentData

/-! ### Aliases -/

namespace AlsoKnownAs

/-- A write of the alias set. -/
structure Write where
  uris : List String
  timestamp : HlcTimestamp

/-- The register after some writes, in order. -/
def setAll (a : AlsoKnownAs) (writes : List Write) : AlsoKnownAs :=
  writes.foldl (fun a w ↦ a.set w.uris w.timestamp) a

/-- The value that a write stores: its aliases, sorted and without repetition. -/
def Write.stored (w : Write) : List String := OrderedMaps.sortDedup w.uris

/-- The writes of a list, as a relation on what they store. -/
def Wrote (writes : List Write) (v : List String) (t : HlcTimestamp) : Prop :=
  ∃ w ∈ writes, w.stored = v ∧ w.timestamp = t

/-- The order of the writes does not matter, states built from them merge as in a semilattice, and a
written register reads back what a latest write stores. -/
structure Converges (writes : List Write) : Prop where
  order : ∀ l, l.Perm writes → setAll .new l = setAll .new writes
  comm : ∀ a b, a ⊆ writes → b ⊆ writes →
    (setAll .new a).merge (setAll .new b) = (setAll .new b).merge (setAll .new a)
  assoc : ∀ a b c, a ⊆ writes → b ⊆ writes → c ⊆ writes →
    ((setAll .new a).merge (setAll .new b)).merge (setAll .new c) =
      (setAll .new a).merge ((setAll .new b).merge (setAll .new c))
  idem : ∀ a, a ⊆ writes → (setAll .new a).merge (setAll .new a) = setAll .new a
  reads : ∀ w ∈ writes, ∃ latest ∈ writes, (∀ w' ∈ writes, w'.timestamp ≤ latest.timestamp) ∧
    (setAll .new writes).entries = latest.stored

/-- Two writes with one timestamp other than zero write the same aliases, and writes at timestamp zero
only write no alias at least once. -/
structure Unambiguous (writes : List Write) : Prop where
  ties : ∀ w ∈ writes, ∀ w' ∈ writes, w.timestamp = w'.timestamp → w.timestamp ≠ .default →
    ∀ uri, uri ∈ w.uris ↔ uri ∈ w'.uris
  zero : writes ≠ [] → (∀ w ∈ writes, w.timestamp = .default) → ∃ w ∈ writes, w.uris = []

/-- The register holds its latest write. -/
theorem latest_setAll (writes : List Write) :
    Latest AlsoKnownAs.new (Wrote writes) (setAll .new writes) := by
  induction writes using List.reverseRecOn with
  | nil => exact .nothing fun v t ⟨w, hw, _⟩ ↦ List.not_mem_nil hw
  | append_singleton l w ih =>
    have hstep : setAll AlsoKnownAs.new (l ++ [w]) = (setAll .new l).update w.stored w.timestamp := by
      rw [setAll, List.foldl_append]
      rfl
    rw [hstep]
    refine ih.update w.stored w.timestamp fun v t ↦ ?_
    simp only [Wrote, List.mem_append, List.mem_singleton, or_and_right, exists_or,
      exists_eq_left]
    rw [eq_comm (a := v), eq_comm (a := t)]

section Convergence

variable {writes : List Write}

/-- Two registers that hold the latest of the same unambiguous writes are equal. -/
theorem Unambiguous.eq_of_latest (h : Unambiguous writes) {a a' : AlsoKnownAs}
    {W : List String → HlcTimestamp → Prop} (hsub : ∀ v t, W v t → Wrote writes v t)
    (ha : Latest AlsoKnownAs.new W a) (ha' : Latest AlsoKnownAs.new W a') : a = a' := by
  refine Latest.unique (fun v v' t hpositive hv hv' ↦ ?_) ha ha'
  obtain ⟨w, hw, rfl, rfl⟩ := hsub v t hv
  obtain ⟨w', hw', rfl, htime⟩ := hsub v' _ hv'
  exact OrderedMaps.sortDedup_congr (h.ties w hw w' hw' htime.symm hpositive.ne')

theorem wrote_append (a b : List Write) (v : List String) (t : HlcTimestamp) :
    Wrote (a ++ b) v t ↔ Wrote a v t ∨ Wrote b v t := by
  simp only [Wrote, List.mem_append, or_and_right, exists_or]

theorem Wrote.mono {a b : List Write} (hsub : a ⊆ b) {v : List String} {t : HlcTimestamp}
    (h : Wrote a v t) : Wrote b v t := by
  obtain ⟨w, hw, hstored, htime⟩ := h
  exact ⟨w, hsub hw, hstored, htime⟩

/-- The writes of two lists. -/
theorem latest_merge (a b : List Write) :
    Latest AlsoKnownAs.new (Wrote (a ++ b)) ((setAll .new a).merge (setAll .new b)) :=
  (latest_setAll a).merge (latest_setAll b) (wrote_append a b)

theorem Unambiguous.converges (h : Unambiguous writes) : Converges writes where
  order l hperm := by
    refine h.eq_of_latest (fun v t hw ↦ hw) ((latest_setAll l).congr fun v t ↦ ?_)
      (latest_setAll writes)
    exact ⟨Wrote.mono hperm.symm.subset, Wrote.mono hperm.subset⟩
  comm a b ha hb := by
    refine h.eq_of_latest (W := Wrote (a ++ b)) (fun v t hw ↦ ?_) (latest_merge a b)
      ((latest_merge b a).congr fun v t ↦ ?_)
    · exact hw.mono (List.append_subset.mpr ⟨ha, hb⟩)
    · rw [wrote_append, wrote_append, or_comm]
  assoc a b c ha hb hc := by
    refine h.eq_of_latest (W := Wrote (a ++ b ++ c)) (fun v t hw ↦ ?_)
      ((latest_merge a b).merge (latest_setAll c) (wrote_append (a ++ b) c))
      ((latest_setAll a).merge (latest_merge b c) fun v t ↦ ?_)
    · exact hw.mono (List.append_subset.mpr ⟨List.append_subset.mpr ⟨ha, hb⟩, hc⟩)
    · rw [List.append_assoc, wrote_append]
  idem a ha := LWWReg.update_self _
  reads w hw := by
    rcases (latest_setAll writes).greatest with ⟨⟨latest, hlatest, hval, htime⟩, _, hupper⟩ |
      ⟨hinitial, hupper⟩
    · refine ⟨latest, hlatest, fun w' hw' ↦ ?_, hval.symm⟩
      rw [htime]
      exact hupper w'.stored w'.timestamp ⟨w', hw', rfl, rfl⟩
    · have hzero : ∀ w' ∈ writes, w'.timestamp = .default := fun w' hw' ↦
        le_antisymm (hupper w'.stored w'.timestamp ⟨w', hw', rfl, rfl⟩) (HlcTimestamp.default_le _)
      obtain ⟨latest, hlatest, hnone⟩ := h.zero (List.ne_nil_of_mem hw) hzero
      refine ⟨latest, hlatest, fun w' hw' ↦ ?_, ?_⟩
      · rw [hzero w' hw', hzero latest hlatest]
      · rw [hinitial, Write.stored, hnone]
        rfl

theorem setAll_singleton (w : Write) (hpositive : HlcTimestamp.default < w.timestamp) :
    setAll .new [w] = ⟨w.stored, w.timestamp⟩ := by
  change LWWReg.update AlsoKnownAs.new w.stored w.timestamp = _
  rw [LWWReg.update, if_pos]
  exact hpositive

theorem Converges.unambiguous (h : Converges writes) : Unambiguous writes where
  ties w hw w' hw' htime hne uri := by
    have hpositive : HlcTimestamp.default < w.timestamp :=
      lt_of_le_of_ne (HlcTimestamp.default_le _) hne.symm
    have hcomm := h.comm [w] [w'] (by simpa using hw) (by simpa using hw')
    rw [setAll_singleton w hpositive, setAll_singleton w' (htime ▸ hpositive), AlsoKnownAs.merge,
      AlsoKnownAs.merge] at hcomm
    simp only [LWWReg.update, htime, lt_irrefl, ↓reduceIte, LWWReg.mk.injEq, and_true] at hcomm
    rw [← OrderedMaps.mem_sortDedup w.uris, ← OrderedMaps.mem_sortDedup w'.uris]
    exact iff_of_eq (congrArg (uri ∈ ·) hcomm)
  zero hne hzero := by
    obtain ⟨w, hw⟩ := List.exists_mem_of_ne_nil writes hne
    obtain ⟨latest, hlatest, _, hread⟩ := h.reads w hw
    refine ⟨latest, hlatest, ?_⟩
    rcases (latest_setAll writes).greatest with ⟨⟨other, hother, _, htime⟩, hpositive, _⟩ |
      ⟨hinitial, _⟩
    · rw [← htime] at hpositive
      exact absurd (hzero other hother) hpositive.ne'
    · rw [hinitial] at hread
      exact (OrderedMaps.sortDedup_eq_nil_iff latest.uris).mp hread.symm

end Convergence

/-- The alias set converges exactly on unambiguous writes. -/
theorem converges_iff (writes : List Write) : Converges writes ↔ Unambiguous writes :=
  ⟨Converges.unambiguous, Unambiguous.converges⟩

end AlsoKnownAs

/-! ### Both fields -/

/-- Writes to the document data, and writes of the alias set, converge exactly when they are
unambiguous. -/
theorem registers_converge_iff (writes : List DocumentData.Write)
    (aliases : List AlsoKnownAs.Write) :
    (DocumentData.Converges writes ↔ DocumentData.Unambiguous writes) ∧
      (AlsoKnownAs.Converges aliases ↔ AlsoKnownAs.Unambiguous aliases) :=
  ⟨DocumentData.converges_iff writes, AlsoKnownAs.converges_iff aliases⟩

section Readable

/-- The readable primitives, but for the names of deltas, which tell the values written. -/
@[reducible]
def Primitives.readableValues : Primitives :=
  { Primitives.readable with
    payloadDigest := fun p ↦
      s!"{p.timestamp.wallMs.val}.{p.timestamp.logical.val}.{p.timestamp.nodeId.val}" ++
        match p.op with
        | .setDocumentData _ (.string value) => "." ++ value
        | _ => "" }

attribute [local instance] Primitives.readableValues

/-- The text of a JSON string. -/
def Json.text : Json → String
  | .string value => value
  | _ => ""

/-- A name of the document of the key `u7`, signed by its creation key. All names have one timestamp. -/
def nameSet (value : String) : SignedDelta :=
  .readable "did:crdt:u7" "did:crdt:u7#key-0" "u7" 1 55 (.setDocumentData "name" (.string value))
    ["0.0.0"]

theorem accepts_names {value value' : String} (h : value = "a" ∧ value' = "b" ∨
    value = "b" ∧ value' = "a") :
    ((Document.new "u7").1.mergeVerifiedDelta (nameSet value)) =
        ((Document.new "u7").1.record (nameSet value), .ok ()) ∧
      (((Document.new "u7").1.record (nameSet value)).mergeVerifiedDelta (nameSet value')) =
        (((Document.new "u7").1.record (nameSet value)).record (nameSet value'), .ok ()) := by
  rcases h with ⟨rfl, rfl⟩ | ⟨rfl, rfl⟩
  · exact ⟨Document.mergeVerifiedDelta_of_accepts
      ⟨by decide, by decide, by decide, by decide, by decide⟩ (by decide),
      Document.mergeVerifiedDelta_of_accepts
      ⟨by decide, by decide, by decide, by decide, by decide⟩ (by decide)⟩
  · exact ⟨Document.mergeVerifiedDelta_of_accepts
      ⟨by decide, by decide, by decide, by decide, by decide⟩ (by decide),
      Document.mergeVerifiedDelta_of_accepts
      ⟨by decide, by decide, by decide, by decide, by decide⟩ (by decide)⟩

/-- Two names with one timestamp, and a name at timestamp zero, do not converge. Two replicas accept
the two names from their signer in either order, hold the same deltas, and disagree on the name. -/
theorem registers_diverge :
    ¬ DocumentData.Converges
      [⟨"name", .string "a", ⟨1, 0, 55⟩⟩, ⟨"name", .string "b", ⟨1, 0, 55⟩⟩] ∧
    ¬ DocumentData.Converges [⟨"name", .string "a", .default⟩] ∧
    let start := (Document.new "u7").1
    let left := ((start.mergeVerifiedDelta (nameSet "a")).1.mergeVerifiedDelta (nameSet "b")).1
    let right := ((start.mergeVerifiedDelta (nameSet "b")).1.mergeVerifiedDelta (nameSet "a")).1
    (∀ hash, hash ∈ left.logHashes ↔ hash ∈ right.logHashes) ∧
      left.logHashes.length = 3 ∧ left.documentData.get "name" ≠ right.documentData.get "name" := by
  refine ⟨fun h ↦ ?_, fun h ↦ ?_, ?_⟩
  · have hsame := ((DocumentData.converges_iff _).mp h).ties ⟨"name", .string "a", ⟨1, 0, 55⟩⟩
      (by simp) ⟨"name", .string "b", ⟨1, 0, 55⟩⟩ (by simp) rfl rfl (by decide)
    exact absurd (Json.string.inj hsame) (by decide)
  · obtain ⟨w, hw, _, hnull⟩ := ((DocumentData.converges_iff _).mp h).zero
      ⟨"name", .string "a", .default⟩ (by simp) (by simp)
    rw [List.mem_singleton.mp hw] at hnull
    exact absurd hnull (by simp)
  · intro start left right
    have hleft : left = (start.record (nameSet "a")).record (nameSet "b") := by
      obtain ⟨hfirst, hsecond⟩ := accepts_names (Or.inl ⟨rfl, rfl⟩)
      simp only [left, start, hfirst, hsecond]
    have hright : right = (start.record (nameSet "b")).record (nameSet "a") := by
      obtain ⟨hfirst, hsecond⟩ := accepts_names (Or.inr ⟨rfl, rfl⟩)
      simp only [right, start, hfirst, hsecond]
    rw [hleft, hright]
    refine ⟨fun hash ↦ ?_, by decide, fun heq ↦ ?_⟩
    · simp only [logHashes_record, List.mem_append, List.mem_singleton]
      exact or_right_comm
    · have hkept : ((((start.record (nameSet "a")).record (nameSet "b")).documentData.get
          "name").map Json.text) = some "a" := by decide
      have hkept' : ((((start.record (nameSet "b")).record (nameSet "a")).documentData.get
          "name").map Json.text) = some "b" := by decide
      rw [heq, hkept'] at hkept
      exact absurd hkept (by decide)

end Readable

end DidCrdt
