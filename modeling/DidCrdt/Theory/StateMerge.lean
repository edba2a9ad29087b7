import DidCrdt.Core.Resolve
import DidCrdt.Theory.Convergence

/-!
# Joining states

`mergeState` joins the fields, the log and the DAG of two replicas. On the service endpoints it is an
observed-remove join: what a replica knows of an addition is read from its live map and its context
(`ServiceEndpoints.knows`), and merging joins that knowledge (`knows_merge`). With the description of
the other fields by their events the join is commutative, associative and idempotent
(`mergeState_isJoin`).

A join decides from the context of a replica whether it has seen an addition, and the context keeps
one dot for every node. `Shadowed` says which additions are lost to this. Without such additions a
join gives what merging the deltas of both replicas gives (`mergeState_eq_replay_iff`).
-/

set_option autoImplicit false
set_option relaxedAutoImplicit false

namespace DidCrdt

/-! ### The endpoints of a join -/

/-- What a replica knows of the addition under a dot. -/
def ServiceEndpoints.knows (s : ServiceEndpoints) (t : Dot) : ObservedRemove.Status ServiceEntry :=
  ObservedRemove.status s.live[t]? (ServiceEndpoints.seen s.context t)

/-- The known additions determine the live map. -/
theorem live_eq_of_knows_eq {left right : ServiceEndpoints}
    (h : ∀ t, left.knows t = right.knows t) : left.live = right.live :=
  Std.ExtTreeMap.ext_getElem? fun {t} ↦ ObservedRemove.live_eq_of_status_eq (h t)

theorem ServiceEntry.addition_injective : Function.Injective ServiceEntry.addition := by
  rintro ⟨_, _, _⟩ ⟨_, _, _⟩ h
  obtain ⟨rfl, rfl, rfl⟩ := DeltaOp.addServiceEndpoint.inj h
  rfl

section

variable [Primitives]

section Knows

variable {events events' : Set Event} {s s' : CrdtState}

/-- A context has seen what one of the merged contexts has seen. -/
theorem seen_merge (h : Describes events s) (h' : Describes events' s') (t : Dot) :
    ServiceEndpoints.seen (s.serviceEndpoints.merge s'.serviceEndpoints).context t =
      (ServiceEndpoints.seen s.serviceEndpoints.context t ||
        ServiceEndpoints.seen s'.serviceEndpoints.context t) := by
  rw [Bool.eq_iff_iff, Bool.or_eq_true, (h.context.merge h'.context).seen_iff, h.context.seen_iff,
    h'.context.seen_iff]
  simp only [Set.mem_union, or_and_right, exists_or]

/-- A live dot is seen. -/
theorem Describes.isSome_live (h : Describes events s) (t : Dot)
    (hlive : s.serviceEndpoints.live[t]?.isSome = true) :
    ServiceEndpoints.seen s.serviceEndpoints.context t = true := by
  obtain ⟨e, he⟩ := Option.isSome_iff_exists.mp hlive
  exact h.seen_of_live he

/-- Merging joins what is known. -/
theorem knows_merge (h : Describes events s) (h' : Describes events' s') (t : Dot) :
    (s.serviceEndpoints.merge s'.serviceEndpoints).knows t =
      (s.serviceEndpoints.knows t).join (s'.serviceEndpoints.knows t) := by
  rw [ServiceEndpoints.knows, ServiceEndpoints.live_merge, seen_merge h h']
  exact ObservedRemove.status_survivor (h.isSome_live t) (h'.isSome_live t)

/-- Assumes: a timestamp names one operation. Two replicas agree on the entry under a live dot. -/
theorem knows_live_agree (htimes : TimestampsDistinct (events ∪ events')) (h : Describes events s)
    (h' : Describes events' s') (t : Dot) (e e' : ServiceEntry)
    (hlive : s.serviceEndpoints.knows t = .live e)
    (hlive' : s'.serviceEndpoints.knows t = .live e') : e = e' := by
  have hslot := h.live t e (ObservedRemove.status_eq_live_iff.mp hlive)
  have hslot' := h'.live t e' (ObservedRemove.status_eq_live_iff.mp hlive')
  exact ServiceEntry.addition_injective (htimes _ _ t (Or.inl hslot) (Or.inr hslot'))

end Knows

/-! ### The join of the fields -/

section Fields

variable {x y z : Set Event} {r s t : CrdtState}

/-- Assumes: a timestamp names one operation, and the digests of key references do not collide. -/
theorem mergeFields_comm (htimes : TimestampsDistinct (x ∪ y)) (hkeys : KeyRefsDistinct (x ∪ y))
    (h : Describes x r) (h' : Describes y s) (hdid : r.did = s.did) :
    Document.mergeFields r s = Document.mergeFields s r := by
  have hswapped := h'.mergeFields h
  rw [Set.union_comm] at hswapped
  refine (h.mergeFields h').agree htimes hkeys hswapped hdid (live_eq_of_knows_eq fun d ↦ ?_)
  change (r.serviceEndpoints.merge s.serviceEndpoints).knows d =
    (s.serviceEndpoints.merge r.serviceEndpoints).knows d
  rw [knows_merge h h', knows_merge h' h]
  exact ObservedRemove.Status.join_comm (knows_live_agree htimes h h' d)

/-- Assumes: a timestamp names one operation, and the digests of key references do not collide. -/
theorem mergeFields_assoc (htimes : TimestampsDistinct (x ∪ y ∪ z))
    (hkeys : KeyRefsDistinct (x ∪ y ∪ z)) (h : Describes x r) (h' : Describes y s)
    (h'' : Describes z t) :
    Document.mergeFields (Document.mergeFields r s) t =
      Document.mergeFields r (Document.mergeFields s t) := by
  have hright := h.mergeFields (h'.mergeFields h'')
  rw [← Set.union_assoc] at hright
  refine ((h.mergeFields h').mergeFields h'').agree htimes hkeys hright rfl
    (live_eq_of_knows_eq fun d ↦ ?_)
  have hinner : ((r.serviceEndpoints.merge s.serviceEndpoints).merge t.serviceEndpoints).knows d =
      ((r.serviceEndpoints.knows d).join (s.serviceEndpoints.knows d)).join
        (t.serviceEndpoints.knows d) := by
    rw [← knows_merge h h' d]
    exact knows_merge (h.mergeFields h') h'' d
  have houter : (r.serviceEndpoints.merge (s.serviceEndpoints.merge t.serviceEndpoints)).knows d =
      (r.serviceEndpoints.knows d).join
        ((s.serviceEndpoints.knows d).join (t.serviceEndpoints.knows d)) := by
    rw [← knows_merge h' h'' d]
    exact knows_merge h (h'.mergeFields h'') d
  exact hinner.trans ((ObservedRemove.Status.join_assoc _ _ _).trans houter.symm)

/-- Assumes: a timestamp names one operation, and the digests of key references do not collide. -/
theorem mergeFields_self (htimes : TimestampsDistinct x) (hkeys : KeyRefsDistinct x)
    (h : Describes x r) : Document.mergeFields r r = r := by
  have hself := h.mergeFields h
  rw [Set.union_self] at hself
  refine hself.agree htimes hkeys h rfl (live_eq_of_knows_eq fun d ↦ ?_)
  exact (knows_merge h h d).trans (ObservedRemove.Status.join_self _)

end Fields

/-! ### The join of replicas -/

/-- Two documents have the same fields, hold the same hashes and have the same frontier. -/
structure SameReplica (doc doc' : Document) : Prop where
  fields : doc.toCrdtState = doc'.toCrdtState
  hashes : ∀ hash, hash ∈ doc.logHashes ↔ hash ∈ doc'.logHashes
  frontier : doc.frontier = doc'.frontier

/-- The document after a join. -/
def Document.joined (doc other : Document) : Document := (doc.mergeState other).1

section Join

variable {deltas : Set SignedDelta} {root : SignedDelta} {a b c : Document}

theorem Coherent.joined (h : Coherent deltas root a) (h' : Coherent deltas root b)
    (hfree : CollisionFree deltas) : Coherent deltas root (a.joined b) :=
  h.mergeState h' hfree

theorem joined_fields (h : Coherent deltas root a) (h' : Coherent deltas root b) :
    (a.joined b).toCrdtState = Document.mergeFields a.toCrdtState b.toCrdtState :=
  h.mergeState_fields h'

theorem heldHashes_joined (h : Coherent deltas root a) (h' : Coherent deltas root b) :
    heldHashes (a.joined b) = heldHashes a ∪ heldHashes b :=
  Set.ext (h.mergeState_history h').2.2.1

/-- Coherent documents with the same hashes and fields are the same replica. -/
theorem sameReplica_of_held_eq (h : Coherent deltas root a) (h' : Coherent deltas root b)
    (hfree : CollisionFree deltas) (hheld : heldHashes a = heldHashes b)
    (hfields : a.toCrdtState = b.toCrdtState) : SameReplica a b :=
  ⟨hfields, Set.ext_iff.mp hheld, frontier_eq_of_held_eq h h' hfree hheld⟩

variable (hfree : CollisionFree deltas) (hkeys : KeyRefsDistinct (eventsOf deltas))

include hfree hkeys

theorem joined_comm (h : Coherent deltas root a) (h' : Coherent deltas root b)
    (htimes : TimestampsDistinct (eventsOf (members a.deltaLog) ∪ eventsOf (members b.deltaLog))) :
    SameReplica (a.joined b) (b.joined a) := by
  refine sameReplica_of_held_eq (h.joined h' hfree) (h'.joined h hfree) hfree ?_ ?_
  · rw [heldHashes_joined h h', heldHashes_joined h' h, Set.union_comm]
  · have hsub : eventsOf (members a.deltaLog) ∪ eventsOf (members b.deltaLog) ⊆ eventsOf deltas :=
      Set.union_subset (Set.image_mono h.sub) (Set.image_mono h'.sub)
    rw [joined_fields h h', joined_fields h' h]
    exact mergeFields_comm htimes (hkeys.mono hsub) h.describes h'.describes (h.did.trans h'.did.symm)

theorem joined_assoc (h : Coherent deltas root a) (h' : Coherent deltas root b)
    (h'' : Coherent deltas root c)
    (htimes : TimestampsDistinct (eventsOf (members a.deltaLog) ∪ eventsOf (members b.deltaLog) ∪
      eventsOf (members c.deltaLog))) :
    SameReplica ((a.joined b).joined c) (a.joined (b.joined c)) := by
  have hab := h.joined h' hfree
  have hbc := h'.joined h'' hfree
  refine sameReplica_of_held_eq (hab.joined h'' hfree) (h.joined hbc hfree) hfree ?_ ?_
  · rw [heldHashes_joined hab h'', heldHashes_joined h hbc, heldHashes_joined h h',
      heldHashes_joined h' h'', Set.union_assoc]
  · have hsub : eventsOf (members a.deltaLog) ∪ eventsOf (members b.deltaLog) ∪
        eventsOf (members c.deltaLog) ⊆ eventsOf deltas :=
      Set.union_subset (Set.union_subset (Set.image_mono h.sub) (Set.image_mono h'.sub))
        (Set.image_mono h''.sub)
    rw [joined_fields hab h'', joined_fields h h', joined_fields h hbc, joined_fields h' h'']
    exact mergeFields_assoc htimes (hkeys.mono hsub) h.describes h'.describes h''.describes

theorem joined_self (h : Coherent deltas root a)
    (htimes : TimestampsDistinct (eventsOf (members a.deltaLog))) : SameReplica (a.joined a) a := by
  refine sameReplica_of_held_eq (h.joined h hfree) h hfree ?_ ?_
  · rw [heldHashes_joined h h, Set.union_self]
  · rw [joined_fields h h]
    exact mergeFields_self htimes (hkeys.mono (Set.image_mono h.sub)) h.describes

end Join

/-- Assumes: the collection holds the creation delta and does not collide, neither do the digests of
key references, and the deltas held have distinct timestamps. Joining replicas is commutative,
associative and idempotent. -/
theorem mergeState_isJoin (publicKeyMultibase : String) (deltas : Set SignedDelta)
    (hfree : CollisionFree deltas) (hgenesis : Document.genesis publicKeyMultibase ∈ deltas)
    (hkeys : KeyRefsDistinct (eventsOf deltas)) (a b c : Document)
    (ha : Replica deltas publicKeyMultibase a) (hb : Replica deltas publicKeyMultibase b)
    (hc : Replica deltas publicKeyMultibase c)
    (hdistinct : DistinctTimestamps (a.deltaLog ++ b.deltaLog ++ c.deltaLog)) :
    SameReplica (a.joined b) (b.joined a) ∧
      SameReplica ((a.joined b).joined c) (a.joined (b.joined c)) ∧ SameReplica (a.joined a) a := by
  have h := ha.coherent hfree hgenesis
  have h' := hb.coherent hfree hgenesis
  have h'' := hc.coherent hfree hgenesis
  have hsub : members (a.deltaLog ++ b.deltaLog ++ c.deltaLog) ⊆ deltas := by
    rintro d hd
    rcases List.mem_append.mp hd with hd | hd
    · exact (List.mem_append.mp hd).elim (fun hd ↦ h.sub hd) fun hd ↦ h'.sub hd
    · exact h''.sub hd
  have htimes := hdistinct.events hfree hsub
  rw [eventsOf_append, eventsOf_append] at htimes
  refine ⟨joined_comm hfree hkeys h h' (htimes.mono Set.subset_union_left),
    joined_assoc hfree hkeys h h' h'' htimes, joined_self hfree hkeys h (htimes.mono ?_)⟩
  exact Set.subset_union_left.trans Set.subset_union_left

/-! ### Joining states against replaying deltas -/

/-- An addition that the first replica holds and the second does not, that no removal of either has
in its past, and whose dot the context of the second counts as seen. -/
structure Shadowed (deltas : Set SignedDelta) (kept other : Document) (a : SignedDelta) : Prop where
  held : a ∈ kept.deltaLog
  notHeld : a.contentHash ∉ other.logHashes
  survives : ∃ e : ServiceEntry, a.op = e.addition ∧
    Survives deltas (kept.deltaLog ++ other.deltaLog) a.timestamp e
  seen : ServiceEndpoints.seen other.serviceEndpoints.context a.timestamp = true

section Replay

variable {deltas : Set SignedDelta} {root : SignedDelta} {a b : Document}

theorem survives_append_comm {log log' : List SignedDelta} {t : Dot} {e : ServiceEntry}
    (h : Survives deltas (log ++ log') t e) : Survives deltas (log' ++ log) t e := by
  have hswap : ∀ d, d ∈ log ++ log' ↔ d ∈ log' ++ log := fun d ↦ by
    rw [List.mem_append, List.mem_append, or_comm]
  obtain ⟨x, hx, hop, htime, hkept⟩ := h
  exact ⟨x, (hswap x).mp hx, hop, htime, fun r hr ↦ hkept r ((hswap r).mpr hr)⟩

/-- A surviving addition held by a replica is live there. -/
theorem live_of_survives (hfree : CollisionFree deltas) (h : Coherent deltas root a)
    (hsub : members b.deltaLog ⊆ deltas) (hlive : LiveExact deltas a)
    (hdistinct : DistinctTimestamps (a.deltaLog ++ b.deltaLog)) {t : Dot} {e : ServiceEntry}
    (hsurvives : Survives deltas (a.deltaLog ++ b.deltaLog) t e) {x : SignedDelta}
    (hx : x ∈ a.deltaLog) (htime : x.timestamp = t) : a.serviceEndpoints.live[t]? = some e := by
  obtain ⟨y, hy, hop, hytime, hkept⟩ := hsurvives
  have hkey := hdistinct x (List.mem_append_left _ hx) y hy (htime.trans hytime.symm)
  have hyin : y ∈ deltas := (List.mem_append.mp hy).elim (fun hy ↦ h.sub hy) fun hy ↦ hsub hy
  refine (hlive t e).mpr ⟨x, hx, (hfree.op_eq (h.sub hx) hyin hkey).trans hop, htime, fun r hr ↦ ?_⟩
  rw [hkey]
  exact hkept r (List.mem_append_left _ hr)

/-- Assumes: the second replica has not seen the dot or holds the addition live. A live addition of
the first replica that the join keeps is removed by neither. -/
theorem survives_of_live (hfree : CollisionFree deltas) (h : Coherent deltas root a)
    (h' : Coherent deltas root b) (hlive : LiveExact deltas a) (hlive' : LiveExact deltas b)
    (hdistinct : DistinctTimestamps (a.deltaLog ++ b.deltaLog)) {t : Dot} {e : ServiceEntry}
    (hslot : a.serviceEndpoints.live[t]? = some e)
    (hkept : b.serviceEndpoints.live[t]?.isSome = true ∨
      ServiceEndpoints.seen b.serviceEndpoints.context t = false) :
    Survives deltas (a.deltaLog ++ b.deltaLog) t e := by
  obtain ⟨x, hx, hop, htime, hsafe⟩ := (hlive t e).mp hslot
  refine ⟨x, List.mem_append_left _ hx, hop, htime, fun r hr hremoves hpast ↦ ?_⟩
  rcases List.mem_append.mp hr with hr | hr
  · exact hsafe r hr hremoves hpast
  -- a removal held by the second replica has its whole past there, the addition included
  obtain ⟨_, y, hy, hkey⟩ := (past_iff_of_closed hfree h'.sub h'.history.parentClosed
    (h'.history.parentClosed r hr)).mp hpast
  have hytime : y.timestamp = t := (hfree.timestamp_eq (h'.sub hy) (h.sub hx) hkey).trans htime
  have hyop : y.op = e.addition := (hfree.op_eq (h'.sub hy) (h.sub hx) hkey).trans hop
  have hdot : t ∈ serviceDots (eventsOf (members b.deltaLog)) :=
    ⟨y.op, ⟨y, hy, Prod.ext rfl hytime⟩, hyop ▸ trivial⟩
  rcases hkept with hsome | hunseen
  · obtain ⟨e', he'⟩ := Option.isSome_iff_exists.mp hsome
    obtain ⟨z, hz, hzop, hztime, hzsafe⟩ := (hlive' t e').mp he'
    have hzkey := hdistinct z (List.mem_append_right _ hz) y (List.mem_append_right _ hy)
      (hztime.trans hytime.symm)
    have hentry : e' = e := ServiceEntry.addition_injective
      (hzop.symm.trans ((hfree.op_eq (h'.sub hz) (h'.sub hy) hzkey).trans hyop))
    rw [← hkey, ← hzkey] at hpast
    exact hzsafe r hr (hentry ▸ hremoves) hpast
  · rw [(h'.describes.context.seen_iff t).mpr ⟨t, hdot, rfl, le_rfl⟩] at hunseen
    exact absurd hunseen (by simp)

variable (hfree : CollisionFree deltas) (h : Coherent deltas root a) (h' : Coherent deltas root b)
  (hlive : LiveExact deltas a) (hlive' : LiveExact deltas b)
  (hdistinct : DistinctTimestamps (a.deltaLog ++ b.deltaLog))

include hfree h h'

/-- The survivors of both logs are those of the merged log. -/
theorem survives_joined_iff (t : Dot) (e : ServiceEntry) :
    Survives deltas (a.joined b).deltaLog t e ↔
      Survives deltas (a.deltaLog ++ b.deltaLog) t e := by
  have hsub : members (a.deltaLog ++ b.deltaLog) ⊆ deltas :=
    fun d hd ↦ (List.mem_append.mp hd).elim (fun hd ↦ h.sub hd) fun hd ↦ h'.sub hd
  have hheld : ∀ hash, hash ∈ (a.joined b).deltaLog.map SignedDelta.contentHash ↔
      hash ∈ (a.deltaLog ++ b.deltaLog).map SignedDelta.contentHash := by
    intro hash
    rw [List.map_append, List.mem_append]
    exact (h.mergeState_history h').2.2.1 hash
  exact ⟨.congr hfree (h.joined h' hfree).sub hsub hheld,
    .congr hfree hsub (h.joined h' hfree).sub fun hash ↦ (hheld hash).symm⟩

include hlive hlive' hdistinct

/-- What a join keeps survives in both logs. -/
theorem survives_of_joined_live {t : Dot} {e : ServiceEntry}
    (hslot : (a.joined b).serviceEndpoints.live[t]? = some e) :
    Survives deltas (a.deltaLog ++ b.deltaLog) t e := by
  have hdistinct' := hdistinct.append_comm
  rw [joined_fields h h'] at hslot
  change (a.serviceEndpoints.merge b.serviceEndpoints).live[t]? = some e at hslot
  rw [ServiceEndpoints.live_merge] at hslot
  cases hb : b.serviceEndpoints.live[t]? with
  | some e' =>
    rw [hb] at hslot
    simp only [ObservedRemove.survivor] at hslot
    split_ifs at hslot with hcond
    rw [Option.some.inj hslot] at hb
    refine survives_append_comm (survives_of_live hfree h' h hlive' hlive hdistinct' hb ?_)
    simpa using hcond
  | none =>
    rw [hb] at hslot
    cases ha : a.serviceEndpoints.live[t]? with
    | none => rw [ha] at hslot; exact absurd hslot (by simp [ObservedRemove.survivor])
    | some e' =>
      rw [ha] at hslot
      simp only [ObservedRemove.survivor] at hslot
      split_ifs at hslot with hcond
      rw [Option.some.inj hslot] at ha
      exact survives_of_live hfree h h' hlive hlive' hdistinct ha (Or.inr (by simpa using hcond))

/-- A join keeps every surviving addition when none is shadowed. -/
theorem joined_live_of_survives (hclear : ∀ x, ¬ Shadowed deltas a b x)
    (hclear' : ∀ x, ¬ Shadowed deltas b a x) {t : Dot} {e : ServiceEntry}
    (hsurvives : Survives deltas (a.deltaLog ++ b.deltaLog) t e) :
    (a.joined b).serviceEndpoints.live[t]? = some e := by
  have hdistinct' := hdistinct.append_comm
  rw [joined_fields h h']
  change (a.serviceEndpoints.merge b.serviceEndpoints).live[t]? = some e
  rw [ServiceEndpoints.live_merge]
  have hswapped := survives_append_comm hsurvives
  obtain ⟨x, hx, hop, htime, hkept⟩ := id hsurvives
  rcases List.mem_append.mp hx with hx | hx
  · have ha := live_of_survives hfree h h'.sub hlive hdistinct hsurvives hx htime
    by_cases hheld : x.contentHash ∈ b.logHashes
    · obtain ⟨y, hy, hkey⟩ := List.mem_map.mp hheld
      have hytime := (hfree.timestamp_eq (h'.sub hy) (h.sub hx) hkey).trans htime
      rw [ha, live_of_survives hfree h' h.sub hlive' hdistinct' hswapped hy hytime]
      simp [ObservedRemove.survivor]
    · have hunseen : ServiceEndpoints.seen b.serviceEndpoints.context t = false := by
        rw [Bool.eq_false_iff]
        intro hseen
        exact hclear x ⟨hx, hheld, ⟨e, hop, htime ▸ hsurvives⟩, htime ▸ hseen⟩
      have hb : b.serviceEndpoints.live[t]? = none := by
        rw [← Option.not_isSome_iff_eq_none]
        intro hsome
        rw [h'.describes.isSome_live t hsome] at hunseen
        exact absurd hunseen (by simp)
      rw [ha, hb, hunseen]
      simp [ObservedRemove.survivor]
  · have hb := live_of_survives hfree h' h.sub hlive' hdistinct' hswapped hx htime
    rw [hb]
    by_cases hheld : x.contentHash ∈ a.logHashes
    · obtain ⟨y, hy, hkey⟩ := List.mem_map.mp hheld
      have hytime := (hfree.timestamp_eq (h.sub hy) (h'.sub hx) hkey).trans htime
      rw [live_of_survives hfree h h'.sub hlive hdistinct hsurvives hy hytime]
      simp [ObservedRemove.survivor]
    · have hunseen : ServiceEndpoints.seen a.serviceEndpoints.context t = false := by
        rw [Bool.eq_false_iff]
        intro hseen
        exact hclear' x ⟨hx, hheld, ⟨e, hop, htime ▸ hswapped⟩, htime ▸ hseen⟩
      rw [hunseen]
      simp [ObservedRemove.survivor]

omit hfree in
/-- A join loses a shadowed addition. -/
theorem joined_live_of_shadowed {x : SignedDelta} {e : ServiceEntry}
    (hshadowed : Shadowed deltas a b x ∨ Shadowed deltas b a x) :
    (a.joined b).serviceEndpoints.live[x.timestamp]? ≠ some e := by
  -- a dot that a replica has seen without holding its addition is not live there
  have hgone : ∀ {c d : Document}, Coherent deltas root c → Coherent deltas root d →
      LiveExact deltas d → DistinctTimestamps (c.deltaLog ++ d.deltaLog) → x ∈ c.deltaLog →
      x.contentHash ∉ d.logHashes → d.serviceEndpoints.live[x.timestamp]? = none := by
    intro c d hc hd hexact hdist hx hnot
    rw [← Option.not_isSome_iff_eq_none]
    intro hsome
    obtain ⟨e', he'⟩ := Option.isSome_iff_exists.mp hsome
    obtain ⟨y, hy, _, hytime, _⟩ := (hexact _ e').mp he'
    have hkey := hdist y (List.mem_append_right _ hy) x (List.mem_append_left _ hx) hytime
    exact hnot (hkey ▸ List.mem_map_of_mem hy)
  rw [joined_fields h h']
  change (a.serviceEndpoints.merge b.serviceEndpoints).live[x.timestamp]? ≠ some e
  rw [ServiceEndpoints.live_merge]
  rcases hshadowed with hx | hx
  · rw [hgone h h' hlive' hdistinct hx.held hx.notHeld, hx.seen]
    cases a.serviceEndpoints.live[x.timestamp]? <;> simp [ObservedRemove.survivor]
  · rw [hgone h' h hlive hdistinct.append_comm hx.held hx.notHeld, hx.seen]
    cases b.serviceEndpoints.live[x.timestamp]? <;> simp [ObservedRemove.survivor]

/-- The live endpoints of a join are the survivors of both logs exactly when no addition is
shadowed. -/
theorem liveExact_joined (hclear : ∀ x, ¬ Shadowed deltas a b x)
    (hclear' : ∀ x, ¬ Shadowed deltas b a x) : LiveExact deltas (a.joined b) := by
  intro t e
  rw [survives_joined_iff hfree h h']
  exact ⟨survives_of_joined_live hfree h h' hlive hlive' hdistinct,
    joined_live_of_survives hfree h h' hlive hlive' hdistinct hclear hclear'⟩

end Replay

/-- Replaying the deltas of two replicas on a fresh document, parents first, gives a document that
holds what both hold. -/
theorem heldHashes_replay {deltas : Set SignedDelta} {publicKeyMultibase : String} {a b : Document}
    (hfree : CollisionFree deltas) (hgenesis : Document.genesis publicKeyMultibase ∈ deltas)
    (h : Coherent deltas (Document.genesis publicKeyMultibase) a)
    (h' : Coherent deltas (Document.genesis publicKeyMultibase) b) {run : List SignedDelta}
    (hrun : CausalRun (members a.deltaLog ∪ members b.deltaLog) run) :
    heldHashes ((Document.new publicKeyMultibase).1.mergeAll run) =
      heldHashes a ∪ heldHashes b := by
  have hstart := Coherent.new publicKeyMultibase hgenesis
  have hsub : members a.deltaLog ∪ members b.deltaLog ⊆ deltas := Set.union_subset h.sub h'.sub
  have hroot : (Document.genesis publicKeyMultibase).contentHash ∈
      heldHashes (Document.new publicKeyMultibase).1 := List.mem_singleton_self _
  ext hash
  rw [heldHashes_of_causalRun hfree hsub hrun hstart]
  refine (CausalDelivery.eq_deliverable_of_closed (fun k hk ↦ ?_) (fun k hk ↦ ?_)
    (fun d hd _ _ ↦ ?_) hash).symm
  · obtain rfl := List.mem_singleton.mp hk
    exact Or.inl (List.mem_map_of_mem h.history.root_mem)
  · rcases hk with hk | hk
    · exact deliverable_of_history h.history h.admitted hroot Set.subset_union_left k hk
    · exact deliverable_of_history h'.history h'.admitted hroot Set.subset_union_right k hk
  · exact hd.imp List.mem_map_of_mem List.mem_map_of_mem

/-- Assumes: the collection holds the creation delta and does not collide, neither do the digests of
key references, and the deltas held have distinct timestamps. A join resolves as a replay of the
deltas of both replicas, keeps every addition that no removal has in its past, and does not change a
replica that holds all the other does, exactly when it has no shadowed addition to lose. -/
theorem mergeState_eq_replay_iff [StateDigests] (publicKeyMultibase : String)
    (deltas : Set SignedDelta) (hfree : CollisionFree deltas)
    (hgenesis : Document.genesis publicKeyMultibase ∈ deltas)
    (hkeys : KeyRefsDistinct (eventsOf deltas)) (run run' : List SignedDelta)
    (hrun : ∀ d ∈ run, d ∈ deltas) (hrun' : ∀ d ∈ run', d ∈ deltas) :
    let start := (Document.new publicKeyMultibase).1
    let a := start.mergeAll run
    let b := start.mergeAll run'
    DistinctTimestamps (a.deltaLog ++ b.deltaLog) →
    (((∀ replay, CausalRun (members a.deltaLog ∪ members b.deltaLog) replay →
          (a.joined b).resolve = (start.mergeAll replay).resolve) ∧
        (∀ t e, Survives deltas (a.deltaLog ++ b.deltaLog) t e →
          (a.joined b).serviceEndpoints.live[t]? = some e) ∧
        (heldHashes b ⊆ heldHashes a → SameReplica (a.joined b) a)) ↔
      ∀ x, ¬ Shadowed deltas a b x ∧ ¬ Shadowed deltas b a x) := by
  intro start a b hdistinct
  have hstart : Coherent deltas _ start := Coherent.new publicKeyMultibase hgenesis
  have h : Coherent deltas _ a := (mergeAll_spec hfree run start hstart hrun).1
  have h' : Coherent deltas _ b := (mergeAll_spec hfree run' start hstart hrun').1
  have hlive : LiveExact deltas a := liveExact_mergeAll hfree run start hstart (.new _) hrun
    hdistinct.left
  have hlive' : LiveExact deltas b := liveExact_mergeAll hfree run' start hstart (.new _) hrun'
    hdistinct.append_comm.left
  have hjoined := h.joined h' hfree
  have hsource : ∀ d ∈ (a.joined b).deltaLog, d ∈ a.deltaLog ++ b.deltaLog :=
    fun d hd ↦ List.mem_append.mpr ((h.mergeState_history h').2.2.2 d hd)
  have hdistinctJoined : DistinctTimestamps (a.joined b).deltaLog :=
    fun d hd e he ↦ hdistinct d (hsource d hd) e (hsource e he)
  constructor
  · rintro ⟨_, hkeeps, _⟩ x
    refine ⟨fun hx ↦ ?_, fun hx ↦ ?_⟩
    · obtain ⟨e, _, hsurvives⟩ := hx.survives
      exact joined_live_of_shadowed h h' hlive hlive' hdistinct (Or.inl hx) (hkeeps _ e hsurvives)
    · obtain ⟨e, _, hsurvives⟩ := hx.survives
      exact joined_live_of_shadowed h h' hlive hlive' hdistinct (Or.inr hx)
        (hkeeps _ e (survives_append_comm hsurvives))
  · intro hclear
    have hexact := liveExact_joined hfree h h' hlive hlive' hdistinct (fun x ↦ (hclear x).1)
      fun x ↦ (hclear x).2
    refine ⟨fun replay hreplay ↦ ?_, fun t e hsurvives ↦ ?_, fun hsub ↦ ?_⟩
    · have hin : ∀ d ∈ replay, d ∈ deltas := fun d hd ↦
        (hreplay.elements d hd).elim (fun hd ↦ h.sub hd) fun hd ↦ h'.sub hd
      have hreplayed := (mergeAll_spec hfree replay start hstart hin).1
      have hheld : heldHashes (a.joined b) = heldHashes (start.mergeAll replay) := by
        rw [heldHashes_joined h h', heldHashes_replay hfree hgenesis h h' hreplay]
      refine Document.resolve_congr (fields_eq_of_held_eq hjoined hreplayed hfree hkeys hheld
        hdistinctJoined hexact ?_)
      exact liveExact_mergeAll hfree replay start hstart (.new _) hin
        (hdistinctJoined.congr hjoined hreplayed hfree hheld)
    · exact (hexact t e).mpr ((survives_joined_iff hfree h h' t e).mpr hsurvives)
    · have hheld : heldHashes (a.joined b) = heldHashes a := by
        rw [heldHashes_joined h h', Set.union_eq_left.mpr hsub]
      exact sameReplica_of_held_eq hjoined h hfree hheld
        (fields_eq_of_held_eq hjoined h hfree hkeys hheld hdistinctJoined hexact hlive)

end

section Readable

attribute [local instance] Primitives.readable StateDigests.readable

/-- An endpoint of the document of the key `u7`, added by its creation key at a wall time. -/
def endpointAt (wall : U64) (id : String) : SignedDelta :=
  .readable "did:crdt:u7" "did:crdt:u7#key-0" "u7" wall 55 (.addServiceEndpoint id "t" "e")
    ["0.0.0"]

theorem merge_later : (Document.new "u7").1.mergeAll [endpointAt 10 "s10"] =
    (Document.new "u7").1.record (endpointAt 10 "s10") :=
  congrArg Prod.fst (Document.merge_of_accepts ⟨by decide, by decide, by decide, by decide, by decide⟩)

theorem merge_later_earlier :
    (Document.new "u7").1.mergeAll [endpointAt 10 "s10", endpointAt 5 "s5"] =
      ((Document.new "u7").1.record (endpointAt 10 "s10")).record (endpointAt 5 "s5") := by
  have haccepts : Accepts ((Document.new "u7").1.record (endpointAt 10 "s10")) (endpointAt 5 "s5") :=
    ⟨by decide, by decide, by decide, by decide, by decide⟩
  have hlater := merge_later
  simp only [Document.mergeAll, List.foldl_cons, List.foldl_nil] at hlater ⊢
  rw [hlater, Document.merge_of_accepts haccepts]

/-- Three replicas that each merged another delta, one of them a removal. -/
theorem mergeState_isJoin_diverged :
    let start := (Document.new "u7").1
    let a := (start.merge (endpointAt 10 "s10")).1
    let b := (start.merge (endpointAt 5 "s5")).1
    let c := (a.merge (.readable "did:crdt:u7" "did:crdt:u7#key-0" "u7" 11 55
      (.removeServiceEndpoint "s10") ["10.0.55"])).1
    a.logHashes.length = 2 ∧ b.logHashes.length = 2 ∧ c.logHashes.length = 3 ∧
      SameReplica (a.joined b) (b.joined a) ∧
      SameReplica ((a.joined b).joined c) (a.joined (b.joined c)) ∧ SameReplica (a.joined a) a := by
  intro start a b c
  refine ⟨by decide, by decide, by decide, ?_⟩
  refine mergeState_isJoin "u7"
    (members [Document.genesis "u7", endpointAt 10 "s10", endpointAt 5 "s5",
      .readable "did:crdt:u7" "did:crdt:u7#key-0" "u7" 11 55 (.removeServiceEndpoint "s10")
        ["10.0.55"]])
    (.of_nodup (by decide)) (by simp) ?_ a b c (.merge .new (by simp)) (.merge .new (by simp))
    (.merge (.merge .new (by simp)) (by simp)) ?_
  · simp [KeyRefsDistinct, occurs_eventsOf_iff, Document.genesis, Document.genesisOp,
      SignedDelta.unsigned, endpointAt]
  · unfold DistinctTimestamps
    decide

/-- Joining a snapshot from before an addition keeps the addition. -/
theorem mergeState_eq_replay_iff_snapshot :
    let start := (Document.new "u7").1
    SameReplica ((start.mergeAll [endpointAt 10 "s10"]).joined start)
      (start.mergeAll [endpointAt 10 "s10"]) := by
  intro start
  have hiff := mergeState_eq_replay_iff "u7"
    (members [Document.genesis "u7", endpointAt 10 "s10"]) (.of_nodup (by decide)) (by simp)
    (by
      simp [KeyRefsDistinct, occurs_eventsOf_iff, Document.genesis, Document.genesisOp,
        SignedDelta.unsigned, endpointAt])
    [endpointAt 10 "s10"] [] (by simp) (by simp)
    (by
      unfold DistinctTimestamps
      decide)
  refine (hiff.mpr fun x ↦ ⟨fun hx ↦ ?_, fun hx ↦ ?_⟩).2.2 fun hash hhash ↦ ?_
  · -- the context of a fresh document has seen nothing
    have hseen := hx.seen
    change ServiceEndpoints.seen ∅ x.timestamp = true at hseen
    rw [ServiceEndpoints.seen_iff] at hseen
    simp at hseen
  · have hgenesis := List.mem_singleton.mp hx.held
    exact hx.notHeld (hgenesis ▸ by decide)
  · obtain rfl := List.mem_singleton.mp hhash
    change (Document.genesis "u7").contentHash ∈ (start.mergeAll [endpointAt 10 "s10"]).logHashes
    decide

/-- A replica adds an endpoint and then, with an earlier timestamp of the same node, another. Joining
the snapshot taken in between loses the second, which a replay keeps. -/
theorem mergeState_loses_addition :
    let start := (Document.new "u7").1
    let snapshot := start.mergeAll [endpointAt 10 "s10"]
    let doc := start.mergeAll [endpointAt 10 "s10", endpointAt 5 "s5"]
    let replay := [Document.genesis "u7", endpointAt 10 "s10", endpointAt 5 "s5"]
    DistinctTimestamps (doc.deltaLog ++ snapshot.deltaLog) ∧
      CausalRun (members doc.deltaLog ∪ members snapshot.deltaLog) replay ∧
      (doc.joined snapshot).resolve ≠ (start.mergeAll replay).resolve ∧
      (∃ t e, Survives (members replay) (doc.deltaLog ++ snapshot.deltaLog) t e ∧
        (doc.joined snapshot).serviceEndpoints.live[t]? = none) ∧
      heldHashes snapshot ⊆ heldHashes doc ∧ ¬ SameReplica (doc.joined snapshot) doc := by
  intro start snapshot doc replay
  have hsnapshot : snapshot.deltaLog = [Document.genesis "u7", endpointAt 10 "s10"] :=
    congrArg Document.deltaLog merge_later
  have hdoc : doc.deltaLog = [Document.genesis "u7", endpointAt 10 "s10", endpointAt 5 "s5"] :=
    congrArg Document.deltaLog merge_later_earlier
  have hlost : (doc.joined snapshot).serviceEndpoints.live.size ≠ doc.serviceEndpoints.live.size := by
    decide
  have hversion : (doc.joined snapshot).resolve.didDocumentMetadata.versionId ≠
      (start.mergeAll replay).resolve.didDocumentMetadata.versionId := by decide
  have hgone : (doc.joined snapshot).serviceEndpoints.live[(endpointAt 5 "s5").timestamp]? = none := by
    decide
  refine ⟨?_, ?_, fun heq ↦ hversion (by rw [heq]), ?_, ?_,
    fun hsame ↦ hlost (by rw [hsame.fields])⟩
  · rw [hdoc, hsnapshot]
    unfold DistinctTimestamps
    decide
  · rw [hdoc, hsnapshot]
    refine ⟨?_, replay, List.Sublist.refl _, ?_, by decide⟩
    · simp [replay]
    · intro d
      refine or_iff_left_of_imp fun hd ↦ ?_
      exact List.mem_append_left [endpointAt 5 "s5"] hd
  · refine ⟨_, ⟨"s5", "t", "e"⟩, ⟨endpointAt 5 "s5", ?_, rfl, rfl, ?_⟩, hgone⟩
    · rw [hdoc]
      simp
    · rw [hdoc, hsnapshot]
      simp [Document.genesis, Document.genesisOp, SignedDelta.unsigned, endpointAt]
  · intro hash hhash
    change hash ∈ snapshot.deltaLog.map SignedDelta.contentHash at hhash
    change hash ∈ doc.deltaLog.map SignedDelta.contentHash
    rw [hsnapshot] at hhash
    rw [hdoc]
    exact List.mem_append_left [(endpointAt 5 "s5").contentHash] hhash

end Readable

end DidCrdt
