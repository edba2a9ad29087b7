import DidCrdt.Theory.Convergence

/-!
# Observed-remove, add-wins endpoints

The endpoints of a document that only merged deltas are a function of its history: an addition is live
under its timestamp unless a held removal of its id has it in its causal past
(`serviceEndpoints_addWins`). A removal thus cancels the additions that it observed, and none that is
concurrent with it, in whatever order the two were delivered.
-/

set_option autoImplicit false
set_option relaxedAutoImplicit false

namespace DidCrdt

/-! ### The listed endpoints -/

namespace ServiceEndpoints

/-- The loop that lists entries without repetition. -/
theorem foldl_distinct (l : List ServiceEntry) :
    ∀ v : List ServiceEntry, v.Nodup →
      (l.foldl (fun v e ↦ if e ∈ v then v else v ++ [e]) v).Nodup ∧
        ∀ e, e ∈ l.foldl (fun v e ↦ if e ∈ v then v else v ++ [e]) v ↔ e ∈ v ∨ e ∈ l := by
  induction l with
  | nil => exact fun v hv ↦ ⟨hv, fun e ↦ by simp⟩
  | cons a l ih =>
    intro v hv
    rw [List.foldl_cons]
    by_cases ha : a ∈ v
    · rw [if_pos ha]
      refine ⟨(ih v hv).1, fun e ↦ ?_⟩
      rw [(ih v hv).2, List.mem_cons]
      refine ⟨fun h ↦ h.imp_right Or.inr, ?_⟩
      rintro (h | rfl | h)
      · exact Or.inl h
      · exact Or.inl ha
      · exact Or.inr h
    · rw [if_neg ha]
      have hnodup : (v ++ [a]).Nodup :=
        List.nodup_append'.mpr ⟨hv, List.nodup_singleton a, List.disjoint_singleton.mpr ha⟩
      refine ⟨(ih _ hnodup).1, fun e ↦ ?_⟩
      rw [(ih _ hnodup).2, List.mem_append, List.mem_singleton, List.mem_cons, or_assoc]

variable (s : ServiceEndpoints)

/-- The values of the live entries are listed. -/
theorem mem_entries (e : ServiceEntry) : e ∈ s.entries ↔ ∃ t : Dot, s.live[t]? = some e := by
  rw [entries, List.mem_insertionSort, (foldl_distinct _ [] List.nodup_nil).2]
  simp only [List.not_mem_nil, false_or, List.mem_map, Prod.exists, exists_eq_right,
    OrderedMaps.mem_toList_iff]

theorem nodup_entries : s.entries.Nodup := by
  rw [entries, (List.perm_insertionSort _ _).nodup_iff]
  exact (foldl_distinct _ [] List.nodup_nil).1

theorem sorted_entries : s.entries.Pairwise fun a b ↦ a.id ≤ b.id := by
  have : Std.Total fun a b : ServiceEntry ↦ a.id ≤ b.id := ⟨fun a b ↦ le_total a.id b.id⟩
  have : IsTrans ServiceEntry fun a b ↦ a.id ≤ b.id := ⟨fun _ _ _ ↦ le_trans⟩
  exact List.pairwise_insertionSort _ _

end ServiceEndpoints

/-! ### The endpoints of a history -/

section

variable [Primitives]

/-- A held addition that no held removal of its id has in its causal past. -/
structure AddWins (log : List SignedDelta) (a : SignedDelta) (e : ServiceEntry) : Prop where
  held : a ∈ log
  addition : a.op = .addServiceEndpoint e.id e.serviceType e.endpoint
  kept : ∀ r ∈ log, r.op = .removeServiceEndpoint e.id → ¬ Past (members log) r.parents a.contentHash

/-- The past in the collection of a held delta is the past among the held deltas. -/
theorem Coherent.past_iff {deltas : Set SignedDelta} {root : SignedDelta} {doc : Document}
    (h : Coherent deltas root doc) (hfree : CollisionFree deltas) {r a : SignedDelta}
    (hr : r ∈ doc.deltaLog) (ha : a ∈ doc.deltaLog) :
    Past deltas r.parents a.contentHash ↔ Past (members doc.deltaLog) r.parents a.contentHash := by
  rw [past_iff_of_closed hfree h.sub h.history.parentClosed (h.history.parentClosed r hr)]
  exact and_iff_left ⟨a, ha, rfl⟩

theorem Coherent.survives_iff {deltas : Set SignedDelta} {root : SignedDelta} {doc : Document}
    (h : Coherent deltas root doc) (hfree : CollisionFree deltas) (t : Dot) (e : ServiceEntry) :
    Survives deltas doc.deltaLog t e ↔ ∃ a, AddWins doc.deltaLog a e ∧ a.timestamp = t := by
  constructor
  · rintro ⟨a, ha, hop, htime, hkept⟩
    refine ⟨a, ⟨ha, hop, fun r hr hremoves hpast ↦ ?_⟩, htime⟩
    exact hkept r hr hremoves ((h.past_iff hfree hr ha).mpr hpast)
  · rintro ⟨a, ⟨ha, hop, hkept⟩, htime⟩
    refine ⟨a, ha, hop, htime, fun r hr hremoves hpast ↦ ?_⟩
    exact hkept r hr hremoves ((h.past_iff hfree hr ha).mp hpast)

/-- Assumes: the deltas and the creation delta do not collide, and the timestamps of the held deltas are
pairwise distinct. After any merges on a fresh document, the live endpoints are the additions that no
held removal observed, each under its timestamp and once; they are listed without repetition and by id;
and their timestamps are within the context. -/
theorem serviceEndpoints_addWins (publicKeyMultibase : String) (run : List SignedDelta)
    (hfree : CollisionFree (insert (Document.genesis publicKeyMultibase) (members run)))
    (htimes : (((Document.new publicKeyMultibase).1.mergeAll run).deltaLog.map
      SignedDelta.timestamp).Nodup) :
    let doc := (Document.new publicKeyMultibase).1.mergeAll run
    (∀ a e, AddWins doc.deltaLog a e → doc.serviceEndpoints.live[a.timestamp]? = some e) ∧
    (∀ (t : Dot) e, doc.serviceEndpoints.live[t]? = some e →
      ∃! a, AddWins doc.deltaLog a e ∧ a.timestamp = t) ∧
    (∀ e, e ∈ doc.serviceEndpoints.entries ↔ ∃ a, AddWins doc.deltaLog a e) ∧
    doc.serviceEndpoints.entries.Nodup ∧
    (doc.serviceEndpoints.entries.Pairwise fun e e' ↦ e.id ≤ e'.id) ∧
    ∀ (t : Dot) e, doc.serviceEndpoints.live[t]? = some e →
      ServiceEndpoints.seen doc.serviceEndpoints.context t = true := by
  intro doc
  have hsub := Set.subset_insert (Document.genesis publicKeyMultibase) (members run)
  have hstart := Coherent.new publicKeyMultibase
    (Set.mem_insert (Document.genesis publicKeyMultibase) (members run))
  have hdoc : Coherent _ (Document.genesis publicKeyMultibase) doc :=
    (mergeAll_spec hfree run _ hstart fun d hd ↦ hsub hd).1
  have hsame : ∀ d ∈ doc.deltaLog, ∀ d' ∈ doc.deltaLog, d.timestamp = d'.timestamp → d = d' :=
    fun d hd d' hd' ↦ List.inj_on_of_nodup_map htimes hd hd'
  have hlive : LiveExact _ doc := liveExact_mergeAll hfree run _ hstart (.new _) (fun d hd ↦ hsub hd)
    fun d hd d' hd' htime ↦ congrArg _ (hsame d hd d' hd' htime)
  have hexact : ∀ (t : Dot) e, doc.serviceEndpoints.live[t]? = some e ↔
      ∃ a, AddWins doc.deltaLog a e ∧ a.timestamp = t :=
    fun t e ↦ (hlive t e).trans (hdoc.survives_iff hfree t e)
  refine ⟨fun a e ha ↦ (hexact _ _).mpr ⟨a, ha, rfl⟩, fun t e ht ↦ ?_, fun e ↦ ?_,
    doc.serviceEndpoints.nodup_entries, doc.serviceEndpoints.sorted_entries,
    fun t e ↦ hdoc.describes.seen_of_live⟩
  · obtain ⟨a, ha, htime⟩ := (hexact t e).mp ht
    exact ⟨a, ⟨ha, htime⟩, fun a' ha' ↦ hsame a' ha'.1.held a ha.held (ha'.2.trans htime.symm)⟩
  · rw [ServiceEndpoints.mem_entries]
    constructor
    · rintro ⟨t, ht⟩
      obtain ⟨a, ha, -⟩ := (hexact t e).mp ht
      exact ⟨a, ha⟩
    · rintro ⟨a, ha⟩
      exact ⟨a.timestamp, (hexact _ _).mpr ⟨a, ha, rfl⟩⟩

end

section Readable

attribute [local instance] Primitives.readable

/-- The removal of the endpoint by a signer who has not seen its addition. -/
def concurrentRemoval : SignedDelta :=
  .readable "did:crdt:u7" "did:crdt:u7#key-0" "u7" 4 55 (.removeServiceEndpoint "s") ["0.0.0"]

/-- An addition of the endpoint after its removal. -/
def furtherAddition : SignedDelta :=
  .readable "did:crdt:u7" "did:crdt:u7#key-0" "u7" 5 55 (.addServiceEndpoint "s" "t" "f") ["3.0.55"]

/-- An addition that one removal observed and another is concurrent with is gone, and the later one, of
the same id, stays. -/
theorem serviceEndpoints_addWins_removal :
    ((Document.new "u7").1.mergeAll
      [addition, concurrentRemoval, removal, furtherAddition]).serviceEndpoints.entries =
      [⟨"s", "t", "f"⟩] ∧
    ∀ (t : Dot) e, ((Document.new "u7").1.mergeAll
      [addition, concurrentRemoval, removal, furtherAddition]).serviceEndpoints.live[t]? = some e →
      ServiceEndpoints.seen ((Document.new "u7").1.mergeAll
        [addition, concurrentRemoval, removal, furtherAddition]).serviceEndpoints.context t = true := by
  have hwins := serviceEndpoints_addWins "u7" [addition, concurrentRemoval, removal, furtherAddition]
    (by
      rw [insert_members]
      exact CollisionFree.of_nodup (by decide))
    (by decide)
  exact ⟨by decide, hwins.2.2.2.2.2⟩

end Readable

end DidCrdt
