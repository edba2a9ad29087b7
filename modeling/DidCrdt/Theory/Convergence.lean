import DidCrdt.Theory.Coherence
import DidCrdt.Library.CausalDelivery

/-!
# Replicas that merge the same deltas converge

On coherent documents a merge is a delivery in causal order (`heldHashes_merge`): whether a delta is
admissible does not depend on the replica. Two runs over the same deltas that each go through an
order with parents first, among duplicate and premature deliveries, therefore hold the same hashes
(`heldHashes_of_causalRun`), and so have the same frontier.

The fields follow. All but the live endpoints are facts of the events. The live endpoints of a
replica that only merged deltas are the additions held that no held removal has in its causal past
(`liveExact_mergeAll`), which is a statement about the deltas alone.
-/

set_option autoImplicit false
set_option relaxedAutoImplicit false

namespace DidCrdt

section

variable [Primitives]

/-! ### Runs of merges -/

/-- A run of merges. -/
def Document.mergeAll (doc : Document) (run : List SignedDelta) : Document :=
  run.foldl (fun doc d ↦ (doc.merge d).1) doc

/-- The run submits elements of the collection only, and goes through all of them in an order in
which every delta comes after those of its parents that are in the collection. -/
structure CausalRun (deltas : Set SignedDelta) (run : List SignedDelta) : Prop where
  elements : ∀ d ∈ run, d ∈ deltas
  order : ∃ order : List SignedDelta, order.Sublist run ∧ (∀ d, d ∈ deltas ↔ d ∈ order) ∧
    order.Pairwise fun d later ↦ later.contentHash ∉ d.parents

/-- The hashes held. -/
def heldHashes (doc : Document) : Set DeltaHash := {h | h ∈ doc.logHashes}

/-- Deltas are delivered after their parents, when they are admissible. -/
def deltaRule (deltas : Set SignedDelta) (did : Did) :
    CausalDelivery.Rule DeltaHash SignedDelta where
  key := SignedDelta.contentHash
  parents := SignedDelta.parents
  accepts := Admissible deltas did

section Merge

variable {deltas : Set SignedDelta} {root : SignedDelta} {doc : Document}

theorem logHashes_record (doc : Document) (d : SignedDelta) :
    (doc.record d).logHashes = doc.logHashes ++ [d.contentHash] := by
  simp [Document.logHashes]

/-- A merge is a delivery. -/
theorem heldHashes_merge (h : Coherent deltas root doc) (hfree : CollisionFree deltas)
    (d : SignedDelta) :
    heldHashes (doc.merge d).1 =
      CausalDelivery.deliver (deltaRule deltas root.did) (heldHashes doc) d := by
  ext k
  have haccepts := h.accepts_iff hfree (d := d)
  rcases Document.merge_fst_eq doc d with ⟨hyes, heq⟩ | ⟨hno, heq⟩
  · obtain ⟨_, hadmissible, hheld⟩ := haccepts.mp hyes
    rw [heq]
    change k ∈ (doc.record d).logHashes ↔ _
    rw [logHashes_record, List.mem_append, List.mem_singleton]
    exact or_congr_right ⟨fun hk ↦ ⟨hk, hadmissible, hheld⟩, fun hk ↦ hk.1⟩
  · rw [heq]
    refine (or_iff_left_of_imp ?_).symm
    rintro ⟨rfl, hadmissible, hheld⟩
    by_contra hnew
    exact hno (haccepts.mpr ⟨hnew, hadmissible, hheld⟩)

/-- A run of merges is a run of deliveries, and keeps the document coherent. -/
theorem mergeAll_spec (hfree : CollisionFree deltas) (run : List SignedDelta) :
    ∀ doc : Document, Coherent deltas root doc → (∀ d ∈ run, d ∈ deltas) →
      Coherent deltas root (doc.mergeAll run) ∧
      heldHashes (doc.mergeAll run) =
        CausalDelivery.deliverAll (deltaRule deltas root.did) (heldHashes doc) run := by
  induction run with
  | nil => exact fun doc h _ ↦ ⟨h, rfl⟩
  | cons d run ih =>
    intro doc h hrun
    have hnext := h.merge hfree (hrun d List.mem_cons_self)
    obtain ⟨hcoherent, hheld⟩ := ih _ hnext fun e he ↦ hrun e (List.mem_cons_of_mem _ he)
    refine ⟨hcoherent, ?_⟩
    rw [heldHashes_merge h hfree d] at hheld
    exact hheld

/-- A run that goes through a causal order of the deltas holds everything deliverable. -/
theorem heldHashes_of_causalRun (hfree : CollisionFree deltas) {items : Set SignedDelta}
    (hsub : items ⊆ deltas) {run : List SignedDelta} (hrun : CausalRun items run)
    (h : Coherent deltas root doc) (k : DeltaHash) :
    k ∈ heldHashes (doc.mergeAll run) ↔
      CausalDelivery.Deliverable (deltaRule deltas root.did) (heldHashes doc) items k := by
  obtain ⟨order, hsublist, hcover, horder⟩ := hrun.order
  rw [(mergeAll_spec hfree run doc h fun d hd ↦ hsub (hrun.elements d hd)).2]
  constructor
  · exact CausalDelivery.deliverAll_subset run _ hrun.elements (fun _ hk ↦ .held hk) k
  · refine CausalDelivery.deliverable_subset_deliverAll (fun d hd e he heq ↦ ?_) hsublist hcover
      horder
    exact hfree.parents_eq (hsub hd) (hsub he) heq

/-- Assumes: the deltas of the log are admissible and among the items. A history is deliverable from
its root. -/
theorem deliverable_of_history {log : List SignedDelta} (hlog : History root log)
    (hadmitted : ∀ d ∈ log, d.parents ≠ [] → Admissible deltas root.did d) {start : Set DeltaHash}
    (hroot : root.contentHash ∈ start) {items : Set SignedDelta} (hitems : members log ⊆ items) :
    ∀ k ∈ log.map SignedDelta.contentHash,
      CausalDelivery.Deliverable (deltaRule deltas root.did) start items k := by
  induction hlog with
  | start _ =>
    intro k hk
    rw [List.map_singleton, List.mem_singleton] at hk
    exact hk ▸ .held hroot
  | @snoc log d _ hgrounded _ hparents ih =>
    have hearlier := ih (fun e he ↦ hadmitted e (List.mem_append_left _ he))
      fun e he ↦ hitems (List.mem_append_left _ he)
    intro k hk
    rw [List.map_append, List.mem_append, List.map_singleton, List.mem_singleton] at hk
    rcases hk with hk | rfl
    · exact hearlier k hk
    · have hd : d ∈ log ++ [d] := List.mem_append_right _ (List.mem_singleton_self d)
      exact .item (hitems hd) (hadmitted d hd hgrounded) fun p hp ↦ hearlier p (hparents p hp)

end Merge

/-! ### What the same hashes determine -/

section Agreement

variable {deltas : Set SignedDelta} {root : SignedDelta} {doc doc' : Document}

/-- A delta whose hash is in a log has a delta with the same payload there. -/
theorem exists_same_payload {log : List SignedDelta} {d : SignedDelta} (hfree : CollisionFree deltas)
    (hsub : members log ⊆ deltas) (hd : d ∈ deltas)
    (hheld : d.contentHash ∈ log.map SignedDelta.contentHash) :
    ∃ e ∈ log, e.contentHash = d.contentHash ∧ e.signingInput = d.signingInput := by
  obtain ⟨e, he, hkey⟩ := List.mem_map.mp hheld
  exact ⟨e, he, hkey, hfree e (hsub he) d hd hkey⟩

theorem events_eq_of_held_eq (h : Coherent deltas root doc) (h' : Coherent deltas root doc')
    (hfree : CollisionFree deltas) (hheld : heldHashes doc = heldHashes doc') :
    eventsOf (members doc.deltaLog) = eventsOf (members doc'.deltaLog) := by
  have hsub : ∀ {a b : Document}, Coherent deltas root a → Coherent deltas root b →
      heldHashes a = heldHashes b →
      eventsOf (members a.deltaLog) ⊆ eventsOf (members b.deltaLog) := by
    rintro a b ha hb hab _ ⟨d, hd, rfl⟩
    have hheld : d.contentHash ∈ heldHashes b := hab ▸ List.mem_map_of_mem hd
    obtain ⟨e, he, _, hpayload⟩ := exists_same_payload hfree hb.sub (ha.sub hd) hheld
    exact ⟨e, he, Prod.ext (congrArg SigningPayload.op hpayload)
      (congrArg SigningPayload.timestamp hpayload)⟩
  exact Set.Subset.antisymm (hsub h h' hheld) (hsub h' h hheld.symm)

theorem frontier_eq_of_held_eq (h : Coherent deltas root doc) (h' : Coherent deltas root doc')
    (hfree : CollisionFree deltas) (hheld : heldHashes doc = heldHashes doc') :
    doc.frontier = doc'.frontier := by
  have hset : doc.dag.frontierSet = doc'.dag.frontierSet := by
    rw [h.dag, h'.dag]
    refine DeltaDag.frontier_eq_of_held_eq (.rebuild _) (.rebuild _) (fun hash ↦ ?_)
      fun hash d d' hget hget' ↦ ?_
    · rw [← h.dag, ← h'.dag, Bool.eq_iff_iff, h.contains_iff, h'.contains_iff]
      exact Set.ext_iff.mp hheld hash
    · obtain ⟨hd, hkey⟩ := (get_of_history h.history hash d).mp hget
      obtain ⟨hd', hkey'⟩ := (get_of_history h'.history hash d').mp hget'
      exact hfree.parents_eq (h.sub hd) (h'.sub hd') (hkey.trans hkey'.symm)
  rw [Document.frontier, Document.frontier, DeltaDag.frontier, DeltaDag.frontier, hset]

/-- The timestamps of the deltas of a log are pairwise distinct. -/
def DistinctTimestamps (log : List SignedDelta) : Prop :=
  ∀ d ∈ log, ∀ e ∈ log, d.timestamp = e.timestamp → d.contentHash = e.contentHash

theorem DistinctTimestamps.left {log more : List SignedDelta}
    (h : DistinctTimestamps (log ++ more)) : DistinctTimestamps log :=
  fun d hd e he ↦ h d (List.mem_append_left _ hd) e (List.mem_append_left _ he)

theorem DistinctTimestamps.append_comm {log log' : List SignedDelta}
    (h : DistinctTimestamps (log ++ log')) : DistinctTimestamps (log' ++ log) := by
  intro d hd e he
  rw [List.mem_append, or_comm, ← List.mem_append] at hd he
  exact h d hd e he

/-- Assumes: the deltas do not collide. -/
theorem DistinctTimestamps.events {log : List SignedDelta} (h : DistinctTimestamps log)
    (hfree : CollisionFree deltas) (hsub : members log ⊆ deltas) :
    TimestampsDistinct (eventsOf (members log)) := by
  rintro op op' t ⟨d, hd, heq⟩ ⟨d', hd', heq'⟩
  obtain ⟨rfl, ht⟩ := Prod.mk.inj heq
  obtain ⟨rfl, ht'⟩ := Prod.mk.inj heq'
  exact hfree.op_eq (hsub hd) (hsub hd') (h d hd d' hd' (ht.trans ht'.symm))

end Agreement

/-! ### The live endpoints of a run of merges -/

/-- A held addition of the entry under the dot is in the causal past of no held removal. -/
def Survives (deltas : Set SignedDelta) (log : List SignedDelta) (t : Dot) (e : ServiceEntry) :
    Prop :=
  ∃ a ∈ log, a.op = e.addition ∧ a.timestamp = t ∧
    ∀ r ∈ log, r.op = .removeServiceEndpoint e.id → ¬ Past deltas r.parents a.contentHash

/-- The live endpoints are the additions that survive. -/
def LiveExact (deltas : Set SignedDelta) (doc : Document) : Prop :=
  ∀ (t : Dot) (e : ServiceEntry), doc.serviceEndpoints.live[t]? = some e ↔
    Survives deltas doc.deltaLog t e

section Live

variable {deltas : Set SignedDelta} {root : SignedDelta} {doc doc' : Document} {d : SignedDelta}

/-- The dots that a removal observes are those of the additions in its past. -/
theorem mem_observedAdds_iff (h : Coherent deltas root doc) (hfree : CollisionFree deltas)
    {parents : List DeltaHash} (hheld : ∀ p ∈ parents, p ∈ doc.logHashes) (id : String) (t : Dot) :
    t ∈ Document.observedAdds doc.dag id parents ↔
      ∃ b ∈ doc.deltaLog, Past deltas parents b.contentHash ∧ b.timestamp = t ∧
        ∃ e : ServiceEntry, b.op = e.addition ∧ e.id = id := by
  have hpast : ∀ b ∈ doc.deltaLog, doc.dag.Closure parents b.contentHash ↔
      Past deltas parents b.contentHash := by
    intro b hb
    rw [h.dag, closure_rebuild_iff h.history,
      past_iff_of_closed hfree h.sub h.history.parentClosed
        fun p hp ↦ (mem_hashes_iff _ p).mp (hheld p hp)]
    exact (and_iff_left ⟨b, hb, rfl⟩).symm
  rw [Document.observedAdds, DeltaDag.mem_closureCollect]
  constructor
  · rintro ⟨hash, b, hclosure, hget, hsome⟩
    rw [h.dag] at hget
    obtain ⟨hb, rfl⟩ := (get_of_history h.history hash b).mp hget
    cases hop : b.op with
    | addServiceEndpoint added serviceType endpoint =>
      rw [hop] at hsome
      simp only [Option.ite_none_right_eq_some, Option.some.injEq] at hsome
      exact ⟨b, hb, (hpast b hb).mp hclosure, hsome.2, ⟨added, serviceType, endpoint⟩, hop, hsome.1⟩
    | _ => simp [hop] at hsome
  · rintro ⟨b, hb, hin, rfl, e, hop, rfl⟩
    refine ⟨b.contentHash, b, (hpast b hb).mpr hin, ?_, ?_⟩
    · rw [h.dag]
      exact (get_of_history h.history _ b).mpr ⟨hb, rfl⟩
    · rw [hop]
      simp [ServiceEntry.addition]

/-- A delta that is not held is in the past of no held delta. -/
theorem not_past_of_new (h : Coherent deltas root doc) (hfree : CollisionFree deltas)
    (hnew : d.contentHash ∉ doc.logHashes) {r : SignedDelta} (hr : r ∈ doc.deltaLog) :
    ¬ Past deltas r.parents d.contentHash := by
  intro hpast
  obtain ⟨_, e, he, hkey⟩ := (past_iff_of_closed hfree h.sub h.history.parentClosed
    (h.history.parentClosed r hr)).mp hpast
  exact hnew (hkey ▸ List.mem_map_of_mem he)

/-- What survives after one more delta: its own addition, and what survived unless it is a removal
that has the addition in its past. -/
theorem survives_concat_iff (h : Coherent deltas root doc) (hfree : CollisionFree deltas)
    (hnew : d.contentHash ∉ doc.logHashes) (t : Dot) (e : ServiceEntry) :
    Survives deltas (doc.deltaLog ++ [d]) t e ↔
      (d.op = e.addition ∧ d.timestamp = t) ∨
      ∃ a ∈ doc.deltaLog, a.op = e.addition ∧ a.timestamp = t ∧
        (∀ r ∈ doc.deltaLog, r.op = .removeServiceEndpoint e.id →
          ¬ Past deltas r.parents a.contentHash) ∧
        (d.op = .removeServiceEndpoint e.id → ¬ Past deltas d.parents a.contentHash) := by
  constructor
  · rintro ⟨a, ha, hop, htime, hkept⟩
    rcases List.mem_append.mp ha with ha | ha
    · exact Or.inr ⟨a, ha, hop, htime, fun r hr ↦ hkept r (List.mem_append_left _ hr),
        hkept d (by simp)⟩
    · rw [List.mem_singleton.mp ha] at hop htime
      exact Or.inl ⟨hop, htime⟩
  · rintro (⟨hop, htime⟩ | ⟨a, ha, hop, htime, hkept, hlast⟩)
    · refine ⟨d, by simp, hop, htime, fun r hr hremoves ↦ ?_⟩
      rcases List.mem_append.mp hr with hr | hr
      · exact not_past_of_new h hfree hnew hr
      · rw [List.mem_singleton.mp hr, hop] at hremoves
        exact absurd hremoves (by simp [ServiceEntry.addition])
    · refine ⟨a, List.mem_append_left _ ha, hop, htime, fun r hr ↦ ?_⟩
      rcases List.mem_append.mp hr with hr | hr
      · exact hkept r hr
      · rw [List.mem_singleton.mp hr]
        exact hlast

/-- Recording a delta with a new timestamp keeps the live endpoints exact. -/
theorem LiveExact.record (hlive : LiveExact deltas doc) (h : Coherent deltas root doc)
    (hfree : CollisionFree deltas) (hnew : d.contentHash ∉ doc.logHashes)
    (hheld : ∀ p ∈ d.parents, p ∈ doc.logHashes)
    (hdistinct : DistinctTimestamps (doc.deltaLog ++ [d])) : LiveExact deltas (doc.record d) := by
  intro t e
  rw [Document.deltaLog_record, survives_concat_iff h hfree hnew]
  change (doc.toCrdtState.apply d.op d.timestamp
    (Document.observedDots doc.dag d.op d.parents)).serviceEndpoints.live[t]? = some e ↔ _
  cases hop : d.op with
  | addServiceEndpoint id serviceType endpoint =>
    change (doc.serviceEndpoints.applyAdd ⟨id, serviceType, endpoint⟩ d.timestamp).live[t]? = _ ↔ _
    rw [ServiceEndpoints.getElem?_live_applyAdd]
    split_ifs with htime
    · -- no addition that was held has the new dot
      have hunused : ∀ a ∈ doc.deltaLog, a.timestamp ≠ t := by
        intro a ha hsame
        have hkey := hdistinct a (List.mem_append_left _ ha) d (by simp) (hsame.trans htime.symm)
        exact hnew (hkey ▸ List.mem_map_of_mem ha)
      obtain ⟨id', serviceType', endpoint'⟩ := e
      constructor
      · intro hentry
        obtain ⟨rfl, rfl, rfl⟩ := ServiceEntry.mk.inj (Option.some.inj hentry)
        exact Or.inl ⟨rfl, htime⟩
      · rintro (⟨hsame, _⟩ | ⟨a, ha, _, htime', _⟩)
        · obtain ⟨rfl, rfl, rfl⟩ := DeltaOp.addServiceEndpoint.inj hsame
          rfl
        · exact absurd htime' (hunused a ha)
    · rw [hlive t e]
      simp [Survives, htime]
  | removeServiceEndpoint id =>
    change (doc.serviceEndpoints.applyRemove (Document.observedAdds doc.dag id d.parents)
      d.timestamp).live[t]? = _ ↔ _
    rw [ServiceEndpoints.getElem?_live_applyRemove]
    have hobserved := mem_observedAdds_iff h hfree hheld id t
    split_ifs with hmem
    · obtain ⟨b, hb, hpast, hbtime, e', hbop, rfl⟩ := hobserved.mp hmem
      refine ⟨fun hnone ↦ absurd hnone (by simp), ?_⟩
      rintro (⟨hsame, _⟩ | ⟨a, ha, haop, hatime, _, hlast⟩)
      · exact absurd hsame (by simp [ServiceEntry.addition])
      · have hkey := hdistinct a (List.mem_append_left _ ha) b (List.mem_append_left _ hb)
          (hatime.trans hbtime.symm)
        have hentry : e.id = e'.id := by
          have hops := haop.symm.trans ((hfree.op_eq (h.sub ha) (h.sub hb) hkey).trans hbop)
          exact (DeltaOp.addServiceEndpoint.inj hops).1
        exact absurd (hkey ▸ hpast) (hlast (by rw [hentry]))
    · rw [hlive t e]
      constructor
      · rintro ⟨a, ha, haop, hatime, hkept⟩
        refine Or.inr ⟨a, ha, haop, hatime, hkept, fun hsame hpast ↦ hmem (hobserved.mpr ?_)⟩
        exact ⟨a, ha, hpast, hatime, e, haop, (DeltaOp.removeServiceEndpoint.inj hsame).symm⟩
      · rintro (⟨hsame, _⟩ | ⟨a, ha, haop, hatime, hkept, _⟩)
        · exact absurd hsame (by simp [ServiceEntry.addition])
        · exact ⟨a, ha, haop, hatime, hkept⟩
  | _ =>
    change doc.serviceEndpoints.live[t]? = _ ↔ _
    rw [hlive t e]
    simp [Survives, ServiceEntry.addition]

/-- A fresh document has no live endpoints. -/
theorem LiveExact.new (publicKeyMultibase : String) :
    LiveExact deltas (Document.new publicKeyMultibase).1 := by
  intro t e
  constructor
  · intro hlive
    change (∅ : Std.ExtTreeMap Dot ServiceEntry compare)[t]? = some e at hlive
    exact absurd hlive (by simp)
  · rintro ⟨a, ha, hop, _, _⟩
    rw [List.mem_singleton.mp ha] at hop
    exact absurd hop (by simp [Document.genesis, Document.genesisOp, SignedDelta.unsigned,
      ServiceEntry.addition])

/-- A run of merges extends the log. -/
theorem deltaLog_mergeAll (run : List SignedDelta) (doc : Document) :
    ∃ more, (doc.mergeAll run).deltaLog = doc.deltaLog ++ more := by
  induction run generalizing doc with
  | nil => exact ⟨[], (List.append_nil _).symm⟩
  | cons d run ih =>
    obtain ⟨more, hmore⟩ := ih (doc.merge d).1
    change ((doc.merge d).1.mergeAll run).deltaLog = _ at hmore
    rcases Document.merge_fst_eq doc d with ⟨_, heq⟩ | ⟨_, heq⟩
    · refine ⟨d :: more, hmore.trans ?_⟩
      rw [heq, Document.deltaLog_record, List.append_assoc, List.singleton_append]
    · exact ⟨more, hmore.trans (by rw [heq])⟩

/-- Assumes: the timestamps of the final log are distinct. A run of merges keeps the live endpoints
exact. -/
theorem liveExact_mergeAll (hfree : CollisionFree deltas) (run : List SignedDelta) :
    ∀ doc : Document, Coherent deltas root doc → LiveExact deltas doc → (∀ d ∈ run, d ∈ deltas) →
      DistinctTimestamps (doc.mergeAll run).deltaLog → LiveExact deltas (doc.mergeAll run) := by
  induction run with
  | nil => exact fun _ _ hlive _ _ ↦ hlive
  | cons d run ih =>
    intro doc h hlive hrun hdistinct
    have hd := hrun d List.mem_cons_self
    refine ih (doc.merge d).1 (h.merge hfree hd) ?_
      (fun e he ↦ hrun e (List.mem_cons_of_mem _ he)) hdistinct
    rcases Document.merge_fst_eq doc d with ⟨haccepts, heq⟩ | ⟨_, heq⟩
    · obtain ⟨hnew, _, hheld⟩ := (h.accepts_iff hfree).mp haccepts
      obtain ⟨more, hmore⟩ := deltaLog_mergeAll run (doc.merge d).1
      have hrecorded : DistinctTimestamps (doc.deltaLog ++ [d] ++ more) := by
        rw [← Document.deltaLog_record, ← heq, ← hmore]
        exact hdistinct
      rw [heq]
      exact hlive.record h hfree hnew hheld hrecorded.left
    · rwa [heq]

/-- What survives depends on the hashes of the log only. -/
theorem Survives.congr {log log' : List SignedDelta} (hfree : CollisionFree deltas)
    (hsub : members log ⊆ deltas) (hsub' : members log' ⊆ deltas)
    (hheld : ∀ hash, hash ∈ log.map SignedDelta.contentHash ↔
      hash ∈ log'.map SignedDelta.contentHash) {t : Dot} {e : ServiceEntry}
    (hsurvives : Survives deltas log t e) : Survives deltas log' t e := by
  obtain ⟨a, ha, hop, htime, hkept⟩ := hsurvives
  obtain ⟨a', ha', hkey, hpayload⟩ := exists_same_payload hfree hsub' (hsub ha)
    ((hheld _).mp (List.mem_map_of_mem ha))
  refine ⟨a', ha', (congrArg SigningPayload.op hpayload).trans hop,
    (congrArg SigningPayload.timestamp hpayload).trans htime, fun r' hr' hremoves ↦ ?_⟩
  obtain ⟨r, hr, _, hsame⟩ := exists_same_payload hfree hsub (hsub' hr')
    ((hheld _).mpr (List.mem_map_of_mem hr'))
  have hparents : r.parents = r'.parents := congrArg SigningPayload.parents hsame
  rw [hkey, ← hparents]
  exact hkept r hr ((congrArg SigningPayload.op hsame).trans hremoves)

/-- Two replicas that hold the same hashes and whose live endpoints are exact have the same
fields. -/
theorem fields_eq_of_held_eq (h : Coherent deltas root doc) (h' : Coherent deltas root doc')
    (hfree : CollisionFree deltas) (hkeys : KeyRefsDistinct (eventsOf deltas))
    (hheld : heldHashes doc = heldHashes doc') (hdistinct : DistinctTimestamps doc.deltaLog)
    (hlive : LiveExact deltas doc) (hlive' : LiveExact deltas doc') :
    doc.toCrdtState = doc'.toCrdtState := by
  have hevents := events_eq_of_held_eq h h' hfree hheld
  have hsub : eventsOf (members doc.deltaLog) ⊆ eventsOf deltas := Set.image_mono h.sub
  have hdescribes' := h'.describes
  rw [← hevents] at hdescribes'
  refine h.describes.agree (hdistinct.events hfree h.sub) (hkeys.mono hsub) hdescribes'
    (h.did.trans h'.did.symm) (Std.ExtTreeMap.ext_getElem? fun {t} ↦ Option.ext fun e ↦ ?_)
  rw [hlive t e, hlive' t e]
  exact ⟨.congr hfree h.sub h'.sub (Set.ext_iff.mp hheld),
    .congr hfree h'.sub h.sub (Set.ext_iff.mp hheld.symm)⟩

end Live

/-! ### Convergence of the delta path -/

theorem DistinctTimestamps.congr {deltas : Set SignedDelta} {root : SignedDelta}
    {doc doc' : Document} (h : Coherent deltas root doc) (h' : Coherent deltas root doc')
    (hfree : CollisionFree deltas) (hheld : heldHashes doc = heldHashes doc')
    (hdistinct : DistinctTimestamps doc.deltaLog) : DistinctTimestamps doc'.deltaLog := by
  intro d hd e he htime
  have hback : ∀ d ∈ doc'.deltaLog, d.contentHash ∈ heldHashes doc :=
    fun d hd ↦ hheld ▸ List.mem_map_of_mem hd
  obtain ⟨d', hd', hkey, hpayload⟩ := exists_same_payload hfree h.sub (h'.sub hd) (hback d hd)
  obtain ⟨e', he', hkey', hpayload'⟩ := exists_same_payload hfree h.sub (h'.sub he) (hback e he)
  have htime' : d'.timestamp = e'.timestamp :=
    (congrArg SigningPayload.timestamp hpayload).trans
      (htime.trans (congrArg SigningPayload.timestamp hpayload').symm)
  rw [← hkey, ← hkey']
  exact hdistinct d' hd' e' he' htime'

/-- Assumes: the deltas and the creation delta do not collide, and neither do the digests of key
references. Two runs of merges on a fresh document, each through all the deltas with parents first,
end with the same hashes and frontier; with distinct timestamps they end with the same fields. -/
theorem deltaPath_converges (publicKeyMultibase : String) (deltas : Set SignedDelta)
    (hfree : CollisionFree (insert (Document.genesis publicKeyMultibase) deltas))
    (hkeys : KeyRefsDistinct (eventsOf (insert (Document.genesis publicKeyMultibase) deltas)))
    (run run' : List SignedDelta) (hrun : CausalRun deltas run) (hrun' : CausalRun deltas run') :
    let doc := (Document.new publicKeyMultibase).1.mergeAll run
    let doc' := (Document.new publicKeyMultibase).1.mergeAll run'
    (∀ hash, (hash ∈ doc.logHashes ↔ hash ∈ doc'.logHashes) ∧
      (doc.dag.contains hash = true ↔ hash ∈ doc.logHashes) ∧
      doc.dag.contains hash = doc'.dag.contains hash) ∧
    doc.frontier = doc'.frontier ∧
    (DistinctTimestamps doc.deltaLog → doc.toCrdtState = doc'.toCrdtState) := by
  intro doc doc'
  have hsub := Set.subset_insert (Document.genesis publicKeyMultibase) deltas
  have hstart := Coherent.new publicKeyMultibase
    (Set.mem_insert (Document.genesis publicKeyMultibase) deltas)
  have hdoc := (mergeAll_spec hfree run _ hstart fun d hd ↦ hsub (hrun.elements d hd)).1
  have hdoc' := (mergeAll_spec hfree run' _ hstart fun d hd ↦ hsub (hrun'.elements d hd)).1
  have hheld : heldHashes doc = heldHashes doc' := by
    ext hash
    exact (heldHashes_of_causalRun hfree hsub hrun hstart hash).trans
      (heldHashes_of_causalRun hfree hsub hrun' hstart hash).symm
  have hhashes : ∀ hash, hash ∈ doc.logHashes ↔ hash ∈ doc'.logHashes := Set.ext_iff.mp hheld
  refine ⟨fun hash ↦ ⟨hhashes hash, hdoc.contains_iff hash, ?_⟩,
    frontier_eq_of_held_eq hdoc hdoc' hfree hheld, fun hdistinct ↦ ?_⟩
  · exact Bool.eq_iff_iff.mpr
      ((hdoc.contains_iff hash).trans ((hhashes hash).trans (hdoc'.contains_iff hash).symm))
  · refine fields_eq_of_held_eq hdoc hdoc' hfree hkeys hheld hdistinct ?_ ?_
    · exact liveExact_mergeAll hfree run _ hstart (.new _)
        (fun d hd ↦ hsub (hrun.elements d hd)) hdistinct
    · exact liveExact_mergeAll hfree run' _ hstart (.new _)
        (fun d hd ↦ hsub (hrun'.elements d hd)) (hdistinct.congr hdoc hdoc' hfree hheld)

end

section Readable

attribute [local instance] Primitives.readable

/-- A rotation of the document of the key `u7`. -/
def rotation : SignedDelta :=
  .readable "did:crdt:u7" "did:crdt:u7#key-0" "u7" 1 55 (.rotateKey 1 "k") ["0.0.0"]

/-- An endpoint of that document. -/
def addition : SignedDelta :=
  .readable "did:crdt:u7" "did:crdt:u7#key-0" "u7" 2 55 (.addServiceEndpoint "s" "t" "e") ["0.0.0"]

/-- The removal of the endpoint. -/
def removal : SignedDelta :=
  .readable "did:crdt:u7" "did:crdt:u7#key-0" "u7" 3 55 (.removeServiceEndpoint "s") ["2.0.55"]

/-- A replica that gets the removal too early and again at the end agrees with one that gets the
deltas in order. -/
theorem deltaPath_converges_removal :
    let doc := (Document.new "u7").1.mergeAll [rotation, addition, removal]
    let doc' := (Document.new "u7").1.mergeAll [removal, addition, rotation, removal]
    doc.logHashes.length = 4 ∧ doc.frontier = doc'.frontier ∧ doc.toCrdtState = doc'.toCrdtState := by
  have hagree := deltaPath_converges "u7" (members [rotation, addition, removal])
    (by
      rw [insert_members]
      exact CollisionFree.of_nodup (by decide))
    (by
      rw [insert_members]
      simp [KeyRefsDistinct, occurs_eventsOf_iff, Document.genesis, Document.genesisOp,
        SignedDelta.unsigned, rotation, addition, removal]
      rintro _ _ _ _ _ rfl _ rfl _
      rfl)
    [rotation, addition, removal] [removal, addition, rotation, removal]
    ⟨by simp, [rotation, addition, removal], by simp, by simp, by decide⟩
    ⟨by simp, [addition, rotation, removal], by simp, by simp; tauto, by decide⟩
  refine ⟨by decide, hagree.2.1, hagree.2.2 ?_⟩
  unfold DistinctTimestamps
  decide

end Readable

end DidCrdt
