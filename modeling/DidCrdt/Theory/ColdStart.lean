import DidCrdt.Service.Resolution
import DidCrdt.Sync.ColdStart
import DidCrdt.Theory.GossipRound
import DidCrdt.Theory.SelfCertifying

/-!
# Requests that wait for a document

A document is wanted as long as a request for it began and none for it has ended since
(`Resolver.wants_run_iff`). So a request that gives up takes the others for its document with it: until another
one begins, no message makes the document held, and none of them finds it (`coldStart_starves`). While the
document is wanted, the answer of a holder makes it held, and it is then resolved as the holder resolves it
(`coldStart_resolves`).
-/

set_option autoImplicit false
set_option relaxedAutoImplicit false

namespace DidCrdt

/-! ### What is wanted -/

namespace BootstrapPolicy

theorem wants_addWanted (policy : BootstrapPolicy) (did other : Did) :
    (policy.addWanted did).wants other = true ↔ did = other ∨ policy.wants other = true := by
  simp [wants, addWanted, Std.ExtTreeSet.contains_insert, or_left_comm]

theorem wants_removeWanted {policy : BootstrapPolicy} (hsolicited : policy.replicateAll = false)
    (did other : Did) :
    (policy.removeWanted did).wants other = true ↔ did ≠ other ∧ policy.wants other = true := by
  simp [wants, removeWanted, hsolicited, Std.ExtTreeSet.contains_erase]

end BootstrapPolicy

namespace ResolverEvent

/-- A request for the document ends. -/
def Ends (resolver : Resolver) (did : Did) (event : ResolverEvent) : Prop :=
  did ∈ resolver.waiting ∧ (event = .poll did ∧ resolver.holds did = true ∨ event = .giveUp did)

variable {resolver : Resolver} {did other : Did} {event : ResolverEvent}

theorem Ends.eq_of (h : event.Ends resolver did) (h' : event.Ends resolver other) : did = other := by
  obtain ⟨-, ⟨rfl, -⟩ | rfl⟩ := h
  · obtain ⟨-, ⟨heq, -⟩ | heq⟩ := h'
    · exact ResolverEvent.poll.inj heq
    · simp at heq
  · obtain ⟨-, ⟨heq, -⟩ | heq⟩ := h'
    · simp at heq
    · exact ResolverEvent.giveUp.inj heq

theorem not_ends_begin (resolver : Resolver) (did other : Did) : ¬ (begin did).Ends resolver other := by
  simp [Ends]

end ResolverEvent

/-- What the requests for the document ended with, in their order. -/
def Resolver.outcomes (resolver : Resolver) (did : Did) : List Bool :=
  (resolver.ended.filter fun entry ↦ entry.1 = did).map Prod.snd

theorem Resolver.holds_eq_false_iff (resolver : Resolver) (did : Did) :
    resolver.holds did = false ↔ resolver.node.docs[did]? = none := by
  rw [holds, Std.ExtTreeMap.contains_eq_isSome_getElem?, Option.isSome_eq_false_iff, Option.isNone_iff_eq_none]

section

variable [Primitives]

/-! ### Events -/

namespace ResolverEvent

variable {resolver : Resolver} {did : Did} {event : ResolverEvent}

/-- What an event can do: a request begins, a request ends, a message is received, or nothing. -/
theorem apply_cases (resolver : Resolver) (event : ResolverEvent) :
    (∃ did, event = .begin did ∧ (event.apply resolver).1 =
        { resolver with
          policy := resolver.policy.addWanted did
          waiting := resolver.waiting ++ [did] }) ∨
      (∃ did found, event.Ends resolver did ∧ (found = true → resolver.holds did = true) ∧
        (event.apply resolver).1 = resolver.finish did found) ∨
      (∃ msg, event = .receive msg ∧ (event.apply resolver).1 =
        { resolver with node := (resolver.node.receive resolver.policy msg).1 }) ∨
      (∀ did, event ≠ .begin did ∧ ¬ event.Ends resolver did) ∧ (event.apply resolver).1 = resolver := by
  cases event with
  | begin did => exact Or.inl ⟨did, rfl, rfl⟩
  | broadcast did =>
    refine Or.inr (Or.inr (Or.inr ⟨fun other ↦ ⟨by simp, by simp [Ends]⟩, ?_⟩))
    simp only [apply]
    split_ifs <;> rfl
  | poll did =>
    by_cases hends : did ∈ resolver.waiting ∧ resolver.holds did = true
    · refine Or.inr (Or.inl ⟨did, true, ⟨hends.1, Or.inl ⟨rfl, hends.2⟩⟩, fun _ ↦ hends.2, ?_⟩)
      simp [apply, hends]
    · refine Or.inr (Or.inr (Or.inr ⟨fun other ↦ ⟨by simp, ?_⟩, ?_⟩))
      · rintro ⟨hwaits, ⟨heq, hholds⟩ | heq⟩
        · obtain rfl := ResolverEvent.poll.inj heq
          exact hends ⟨hwaits, hholds⟩
        · simp at heq
      · simp only [apply]
        rw [if_neg (by simpa using hends)]
  | giveUp did =>
    by_cases hwaits : did ∈ resolver.waiting
    · refine Or.inr (Or.inl ⟨did, false, ⟨hwaits, Or.inr rfl⟩, by simp, ?_⟩)
      simp [apply, hwaits]
    · refine Or.inr (Or.inr (Or.inr ⟨fun other ↦ ⟨by simp, ?_⟩, by simp [apply, hwaits]⟩))
      rintro ⟨hwaits', ⟨heq, -⟩ | heq⟩
      · simp at heq
      · obtain rfl := ResolverEvent.giveUp.inj heq
        exact hwaits hwaits'
  | receive msg => exact Or.inr (Or.inr (Or.inl ⟨msg, rfl, rfl⟩))

theorem replicateAll_apply (resolver : Resolver) (event : ResolverEvent) :
    (event.apply resolver).1.policy.replicateAll = resolver.policy.replicateAll := by
  rcases apply_cases resolver event with ⟨did, -, heq⟩ | ⟨did, found, -, -, heq⟩ | ⟨msg, -, heq⟩ | ⟨-, heq⟩ <;>
    rw [heq] <;> rfl

/-- What is wanted after an event: what begins, or what was wanted unless a request for it ends. -/
theorem wants_apply_iff (hsolicited : resolver.policy.replicateAll = false) (event : ResolverEvent) (did : Did) :
    (event.apply resolver).1.policy.wants did = true ↔
      event = .begin did ∨ resolver.policy.wants did = true ∧ ¬ event.Ends resolver did := by
  rcases apply_cases resolver event with ⟨begun, rfl, heq⟩ | ⟨ended, found, hends, -, heq⟩ |
    ⟨msg, rfl, heq⟩ | ⟨hidle, heq⟩
  · rw [heq, BootstrapPolicy.wants_addWanted, ResolverEvent.begin.injEq]
    exact or_congr_right (iff_self_and.mpr fun _ ↦ not_ends_begin resolver begun did)
  · have hbegin : event ≠ .begin did := fun hbegin ↦ not_ends_begin resolver did ended (hbegin ▸ hends)
    have hother : ended ≠ did ↔ ¬ event.Ends resolver did :=
      not_congr ⟨fun hsame ↦ hsame ▸ hends, fun h ↦ hends.eq_of h⟩
    rw [heq, or_iff_right hbegin]
    refine (BootstrapPolicy.wants_removeWanted hsolicited ended did).trans ?_
    rw [hother, and_comm]
  · rw [heq]
    simp [Ends]
  · rw [heq]
    simp [(hidle did).1, (hidle did).2]

/-- A request that ends adds its outcome, which is that the document is held, or that it gives up. -/
theorem outcomes_apply_of_ends (h : event.Ends resolver did) :
    ∃ found, (found = true → resolver.holds did = true) ∧
      (event.apply resolver).1.outcomes did = resolver.outcomes did ++ [found] := by
  rcases apply_cases resolver event with ⟨begun, rfl, -⟩ | ⟨ended, found, hends, hfound, heq⟩ |
    ⟨msg, rfl, -⟩ | ⟨hidle, -⟩
  · exact absurd h (not_ends_begin resolver begun did)
  · obtain rfl := hends.eq_of h
    refine ⟨found, hfound, ?_⟩
    rw [heq, Resolver.outcomes, Resolver.finish, List.filter_append, List.map_append]
    simp [Resolver.outcomes]
  · simp [Ends] at h
  · exact absurd h (hidle did).2

theorem outcomes_apply_of_not_ends (h : ¬ event.Ends resolver did) :
    (event.apply resolver).1.outcomes did = resolver.outcomes did := by
  rcases apply_cases resolver event with ⟨begun, -, heq⟩ | ⟨ended, found, hends, -, heq⟩ |
    ⟨msg, -, heq⟩ | ⟨-, heq⟩
  · rw [heq, Resolver.outcomes, Resolver.outcomes]
  · have hother : ended ≠ did := fun hsame ↦ h (hsame ▸ hends)
    rw [heq, Resolver.outcomes, Resolver.finish, List.filter_append, List.map_append]
    simp [Resolver.outcomes, hother]
  · rw [heq, Resolver.outcomes, Resolver.outcomes]
  · rw [heq]

/-- A document that is neither held nor wanted is not held after an event. -/
theorem holds_apply (hholds : resolver.holds did = false) (hwants : resolver.policy.wants did = false)
    (event : ResolverEvent) : (event.apply resolver).1.holds did = false := by
  rcases apply_cases resolver event with ⟨begun, -, heq⟩ | ⟨ended, found, -, -, heq⟩ |
    ⟨msg, -, heq⟩ | ⟨-, heq⟩
  · rw [heq]
    exact hholds
  · rw [heq]
    exact hholds
  · rw [heq, Resolver.holds_eq_false_iff]
    rw [Resolver.holds_eq_false_iff] at hholds
    change (resolver.node.receive resolver.policy msg).1.docs[did]? = none
    rw [LiveNode.docs_receive]
    by_contra hpresent
    exact absurd (hwants.symm.trans (mergeInbound_wanted hholds hpresent)) (by decide)
  · rwa [heq]

end ResolverEvent

/-! ### Runs -/

namespace Resolver

variable (did : Did)

theorem run_append (resolver : Resolver) (events more : List ResolverEvent) :
    resolver.run (events ++ more) = (resolver.run events).run more := List.foldl_append

theorem run_concat (resolver : Resolver) (events : List ResolverEvent) (event : ResolverEvent) :
    resolver.run (events ++ [event]) = (event.apply (resolver.run events)).1 := by
  rw [run_append]
  rfl

/-- The policy of a resolver stays one for solicited documents. -/
theorem replicateAll_run (events : List ResolverEvent) : (new.run events).policy.replicateAll = false := by
  induction events using List.reverseRecOn with
  | nil => rfl
  | append_singleton events event ih => rw [run_concat, ResolverEvent.replicateAll_apply, ih]

/-- Outcomes are only added. -/
theorem outcomes_mono (resolver : Resolver) (events : List ResolverEvent) :
    resolver.outcomes did <+: (resolver.run events).outcomes did := by
  induction events using List.reverseRecOn with
  | nil => exact List.prefix_rfl
  | append_singleton events event ih =>
    rw [run_concat]
    by_cases hends : event.Ends (resolver.run events) did
    · obtain ⟨found, -, houtcomes⟩ := ResolverEvent.outcomes_apply_of_ends hends
      rw [houtcomes]
      exact ih.trans (List.prefix_append _ _)
    · rwa [ResolverEvent.outcomes_apply_of_not_ends hends]

/-- A document is wanted when a request for it began, and none for it has ended since. -/
theorem wants_run_iff (events : List ResolverEvent) :
    (new.run events).policy.wants did = true ↔ ∃ before after, events = before ++ .begin did :: after ∧
      (new.run events).outcomes did = (new.run before).outcomes did := by
  induction events using List.reverseRecOn with
  | nil => simp [run, new, BootstrapPolicy.wants, BootstrapPolicy.solicitedOnly]
  | append_singleton events event ih =>
    rw [run_concat, ResolverEvent.wants_apply_iff (replicateAll_run events)]
    constructor
    · rintro (rfl | ⟨hwants, hnot⟩)
      · exact ⟨events, [], rfl, ResolverEvent.outcomes_apply_of_not_ends (ResolverEvent.not_ends_begin _ did did)⟩
      · obtain ⟨before, after, hsplit, hsame⟩ := ih.mp hwants
        refine ⟨before, after ++ [event], by simp [hsplit], ?_⟩
        rw [ResolverEvent.outcomes_apply_of_not_ends hnot, hsame]
    · rintro ⟨before, after, hsplit, hsame⟩
      rcases List.eq_nil_or_concat after with rfl | ⟨after, last, rfl⟩
      · obtain ⟨rfl, heq⟩ := List.append_inj' hsplit rfl
        exact Or.inl (List.singleton_inj.mp heq)
      · rw [List.concat_eq_append, ← List.cons_append, ← List.append_assoc] at hsplit
        obtain ⟨rfl, heq⟩ := List.append_inj' hsplit rfl
        obtain rfl := List.singleton_inj.mp heq
        have hnot : ¬ event.Ends (new.run (before ++ .begin did :: after)) did := by
          intro hends
          obtain ⟨found, -, houtcomes⟩ := ResolverEvent.outcomes_apply_of_ends hends
          have hlength := (outcomes_mono did (new.run before) (.begin did :: after)).length_le
          rw [← run_append, ← hsame, houtcomes, List.length_append, List.length_singleton] at hlength
          omega
        rw [ResolverEvent.outcomes_apply_of_not_ends hnot] at hsame
        exact Or.inr ⟨ih.mpr ⟨before, after, rfl, hsame⟩, hnot⟩

end Resolver

/-- A document is wanted exactly as long as a request for it began and none for it has ended since. When it is
not, and is not held, then until another request for it begins it stays so, whatever is received, and every
request for it that ends gives up. -/
theorem coldStart_starves (did : Did) (events : List ResolverEvent) :
    ((Resolver.new.run events).policy.wants did = true ↔
      ∃ before after, events = before ++ .begin did :: after ∧
        (Resolver.new.run events).outcomes did = (Resolver.new.run before).outcomes did) ∧
    ∀ later, ResolverEvent.begin did ∉ later → (Resolver.new.run events).policy.wants did = false →
      (Resolver.new.run events).holds did = false →
      (Resolver.new.run (events ++ later)).holds did = false ∧
        ∃ n, (Resolver.new.run (events ++ later)).outcomes did =
          (Resolver.new.run events).outcomes did ++ List.replicate n false := by
  refine ⟨Resolver.wants_run_iff did events, fun later hlater hwants hholds ↦ ?_⟩
  suffices hstays : (Resolver.new.run (events ++ later)).policy.wants did = false ∧
      (Resolver.new.run (events ++ later)).holds did = false ∧
        ∃ n, (Resolver.new.run (events ++ later)).outcomes did =
          (Resolver.new.run events).outcomes did ++ List.replicate n false from hstays.2
  induction later using List.reverseRecOn with
  | nil => exact ⟨by simpa using hwants, by simpa using hholds, 0, by simp⟩
  | append_singleton later event ih =>
    obtain ⟨hwants', hholds', n, houtcomes⟩ := ih fun hmem ↦ hlater (List.mem_append_left _ hmem)
    have hbegin : event ≠ .begin did := fun h ↦
      hlater (List.mem_append_right _ (List.mem_singleton.mpr h.symm))
    rw [← List.append_assoc, Resolver.run_concat]
    refine ⟨?_, ResolverEvent.holds_apply hholds' hwants' event, ?_⟩
    · rw [← Bool.not_eq_true, ResolverEvent.wants_apply_iff (Resolver.replicateAll_run _), hwants']
      simpa using hbegin
    · by_cases hends : event.Ends (Resolver.new.run (events ++ later)) did
      · obtain ⟨found, hfound, hadded⟩ := ResolverEvent.outcomes_apply_of_ends hends
        have hgave : found = false := by
          rw [← Bool.not_eq_true]
          exact fun h ↦ absurd (hholds'.symm.trans (hfound h)) (by decide)
        refine ⟨n + 1, ?_⟩
        rw [hadded, houtcomes, hgave, List.append_assoc, ← List.replicate_succ']
      · exact ⟨n, by rw [ResolverEvent.outcomes_apply_of_not_ends hends, houtcomes]⟩

end

section Readable

attribute [local instance] Primitives.readable StateDigests.readable

/-- Two requests for a document overlap and the first gives up: the second still waits, and the answer that it
waits for is ignored. -/
theorem coldStart_starves_overlapping :
    let start : List ResolverEvent := [.begin (deriveDid "u7"), .begin (deriveDid "u7"), .giveUp (deriveDid "u7")]
    let later : List ResolverEvent :=
      [.receive (.deltas (deriveDid "u7") [Document.genesis "u7"]), .giveUp (deriveDid "u7")]
    (Resolver.new.run start).waiting = [deriveDid "u7"] ∧
      (Resolver.new.run (start ++ later)).holds (deriveDid "u7") = false ∧
      ∃ n, (Resolver.new.run (start ++ later)).outcomes (deriveDid "u7") =
        (Resolver.new.run start).outcomes (deriveDid "u7") ++ List.replicate n false := by
  refine ⟨by decide, (coldStart_starves (deriveDid "u7") _).2 _ (by simp) ?_ ?_⟩ <;> decide

end Readable

/-! ### Answers of a holder -/

section Holder

variable [Primitives] {source : Set SignedDelta} {peers : Docs} {did : Did}

/-- The documents are made of deltas of the source, and nothing is held of the document that the peers lack. -/
structure FedBy (source : Set SignedDelta) (peers : Docs) (did : Did) (docs : Docs) : Prop where
  ingested : AllIngested source docs
  sub : storedHashes docs did ⊆ storedHashes peers did

theorem FedBy.empty (source : Set SignedDelta) (peers : Docs) (did : Did) : FedBy source peers did ∅ where
  ingested _ _ hget := absurd hget (by simp)
  sub hash hhash := by
    obtain ⟨doc, hget, -⟩ := hhash
    exact absurd hget (by simp)

/-- An event changes the documents only by the merge of what is received. -/
theorem ResolverEvent.docs_apply (resolver : Resolver) (event : ResolverEvent) :
    (∃ msg, event = .receive msg ∧
      (event.apply resolver).1.node.docs = (mergeInbound resolver.node.docs msg resolver.policy).1) ∨
      (event.apply resolver).1.node.docs = resolver.node.docs := by
  rcases apply_cases resolver event with ⟨begun, -, heq⟩ | ⟨ended, found, -, -, heq⟩ | ⟨msg, hmsg, heq⟩ |
    ⟨-, heq⟩
  · exact Or.inr (by rw [heq])
  · exact Or.inr (by rw [heq]; rfl)
  · refine Or.inl ⟨msg, hmsg, ?_⟩
    rw [heq]
    exact LiveNode.docs_receive _ _ msg
  · exact Or.inr (by rw [heq])

/-- What honest peers send keeps a node fed by them, and what it holds. -/
theorem FedBy.apply (hfree : CollisionFree source) (hpeers : AllIngested source peers) {resolver : Resolver}
    (h : FedBy source peers did resolver.node.docs) (event : ResolverEvent)
    (hcarried : ∀ msg, event = .receive msg → CarriedBy source peers msg) :
    FedBy source peers did (event.apply resolver).1.node.docs ∧
      Keeps resolver.node.docs (event.apply resolver).1.node.docs := by
  rcases event.docs_apply resolver with ⟨msg, hmsg, hdocs⟩ | hdocs
  · rw [hdocs]
    refine ⟨⟨h.ingested.mergeInbound hfree hpeers (hcarried msg hmsg), fun hash hhash ↦ ?_⟩,
      (mergeInbound_keeps h.ingested.allGrown msg resolver.policy).1⟩
    rcases storedHashes_mergeInbound_sub hhash with hheld | ⟨deltas, rfl, hmem⟩
    · exact h.sub hheld
    · obtain ⟨d, hd, rfl⟩ := List.mem_map.mp hmem
      exact (hcarried _ hmsg did deltas rfl d hd).2
  · rw [hdocs]
    exact ⟨h, .refl _⟩

theorem FedBy.run (hfree : CollisionFree source) (hpeers : AllIngested source peers) {resolver : Resolver}
    (h : FedBy source peers did resolver.node.docs) (events : List ResolverEvent)
    (hcarried : ∀ msg, .receive msg ∈ events → CarriedBy source peers msg) :
    FedBy source peers did (resolver.run events).node.docs ∧
      Keeps resolver.node.docs (resolver.run events).node.docs := by
  induction events generalizing resolver with
  | nil => exact ⟨h, .refl _⟩
  | cons event events ih =>
    obtain ⟨hnext, hkeeps⟩ := h.apply hfree hpeers event
      fun msg hmsg ↦ hcarried msg (hmsg ▸ List.mem_cons_self)
    obtain ⟨hlast, hkeeps'⟩ := ih hnext fun msg hmsg ↦ hcarried msg (List.mem_cons_of_mem _ hmsg)
    exact ⟨hlast, hkeeps.trans hkeeps'⟩

/-- Assumes: the deltas do not collide. Replicas with the same hashes have timestamps that are distinct in
either. -/
theorem DistinctTimestamps.of_held_eq {root root' : SignedDelta} {doc doc' : Document}
    (hfree : CollisionFree source) (h : Coherent source root doc) (h' : Coherent source root' doc')
    (hheld : heldHashes doc = heldHashes doc') (hdistinct : DistinctTimestamps doc.deltaLog) :
    DistinctTimestamps doc'.deltaLog := by
  have hsame : ∀ d ∈ doc'.deltaLog, ∃ e ∈ doc.deltaLog, e.contentHash = d.contentHash ∧ e.timestamp = d.timestamp := by
    intro d hd
    have hmem : d.contentHash ∈ heldHashes doc := hheld ▸ List.mem_map_of_mem hd
    obtain ⟨e, he, hkey⟩ := List.mem_map.mp hmem
    exact ⟨e, he, hkey, congrArg SigningPayload.timestamp (hfree e (h.sub he) d (h'.sub hd) hkey)⟩
  intro d hd e he htime
  obtain ⟨a, ha, hkey, htimeA⟩ := hsame d hd
  obtain ⟨b, hb, hkey', htimeB⟩ := hsame e he
  rw [← hkey, ← hkey']
  exact hdistinct a ha b hb (htimeA.trans (htime.trans htimeB.symm))

/-- Assumes: the source does not collide, its ids are unique, and neither do the digests of its key references
collide; every message is carried by the store of the peers, which holds the document with distinct timestamps.
In a run in which the answer of the peers to a cold request is received while the document is wanted, or held,
in the end the document has the fields that it has at the peers, and is resolved as they resolve it. -/
theorem coldStart_resolves (hfree : CollisionFree source) (hids : UniqueMethodIds source)
    (hkeys : KeyRefsDistinct (eventsOf source)) (hpeers : AllIngested source peers) {peer : Document}
    (hpeer : peers[did]? = some peer) (hdistinct : DistinctTimestamps peer.deltaLog)
    {answer : List SignedDelta} (hanswer : peer.dag.deltasForPeer [] = .ok answer)
    (before after : List ResolverEvent)
    (hcarried : ∀ msg, .receive msg ∈ before ++ .receive (.deltas did answer) :: after →
      CarriedBy source peers msg)
    (hopen : (Resolver.new.run before).policy.wants did = true ∨ (Resolver.new.run before).holds did = true)
    [StateDigests] :
    let last := Resolver.new.run (before ++ .receive (.deltas did answer) :: after)
    (∃ doc, last.node.docs[did]? = some doc ∧ doc.toCrdtState = peer.toCrdtState) ∧
      resolveDid last.node.docs did.toString none = resolveDid peers did.toString none := by
  intro last
  obtain ⟨key, hdid, hgenesis, hingested⟩ := hpeers did peer hpeer
  have hpeerCoherent := hingested.coherent hfree hgenesis
  have hfed : FedBy source peers did Resolver.new.node.docs := .empty source peers did
  have hbefore := (hfed.run hfree hpeers before
    fun msg hmsg ↦ hcarried msg (List.mem_append_left _ hmsg)).1
  -- the answer covers what the peers hold
  have hlastRun : last = ((ResolverEvent.receive (.deltas did answer)).apply (Resolver.new.run before)).1.run after :=
    Resolver.run_append _ _ _
  have hanswered := hbefore.apply hfree hpeers (.receive (.deltas did answer))
    fun msg hmsg ↦ hcarried msg (by rw [← hmsg]; simp)
  obtain ⟨hlast, hkeeps⟩ := hanswered.1.run hfree hpeers after
    fun msg hmsg ↦ hcarried msg (List.mem_append_right _ (List.mem_cons_of_mem _ hmsg))
  rw [← hlastRun] at hlast hkeeps
  have hcovers : ∀ hash ∈ peer.logHashes, hash ∈ storedHashes last.node.docs did := by
    intro hash hhash
    refine hkeeps.storedHashes_sub did ?_
    change hash ∈ storedHashes ((Resolver.new.run before).node.receive (Resolver.new.run before).policy
      (.deltas did answer)).1.docs did
    rw [LiveNode.docs_receive]
    refine mergeInbound_covers hbefore.ingested hfree hids hdid hgenesis hingested ?_ (by simp)
      hanswer hash hhash
    rcases hopen with hwants | hholds
    · exact Or.inr hwants
    · refine Or.inl fun hnone ↦ ?_
      rw [← Resolver.holds_eq_false_iff, hholds] at hnone
      exact absurd hnone (by decide)
  obtain ⟨doc, hget, -⟩ := hcovers _ (List.mem_map_of_mem hpeerCoherent.history.root_mem)
  obtain ⟨key', hdid', hgenesis', hingested'⟩ := hlast.ingested did doc hget
  obtain rfl := hids.genesis_eq hfree hgenesis' hgenesis (hdid'.trans hdid.symm)
  have hcoherent := hingested'.coherent hfree hgenesis'
  have hheld : heldHashes peer = heldHashes doc := by
    refine Set.Subset.antisymm (fun hash hhash ↦ (mem_storedHashes hget hash).mp (hcovers hash hhash))
      fun hash hhash ↦ ?_
    exact (mem_storedHashes hpeer hash).mp (hlast.sub ((mem_storedHashes hget hash).mpr hhash))
  have hfields : doc.toCrdtState = peer.toCrdtState :=
    (fields_eq_of_held_eq hpeerCoherent hcoherent hfree hkeys hheld hdistinct
      (hingested.liveExact hfree hgenesis hdistinct)
      (hingested'.liveExact hfree hgenesis' (hdistinct.of_held_eq hfree hpeerCoherent hcoherent hheld))).symm
  refine ⟨⟨doc, hget, hfields⟩, ?_⟩
  unfold resolveDid
  cases hparse : Did.fromStr did.toString with
  | error e => rfl
  | ok parsed =>
    obtain rfl : parsed = did := (Did.fromStr_eq_ok_iff.mp hparse).1
    simp only [hget, hpeer]
    have hresult : doc.resolution (flag none) = peer.resolution (flag none) := by
      have hflag : flag none = false := by decide
      simp only [Document.resolution, hflag, Bool.false_eq_true, ↓reduceIte, Document.resolve_congr hfields]
    rw [hresult]

end Holder

section Readable

attribute [local instance] Primitives.readable StateDigests.readable

/-- The store of a node that created the document and accepted the revocation. -/
def holding : Docs := (submitDelta (createDid ∅ "u7").1 "did:crdt:u7" revocation).1

theorem allIngested_holding : AllIngested issued holding := by
  have hempty : AllIngested issued ∅ := fun did doc hget ↦ absurd hget (by simp)
  have hgenesis : Document.genesis "u7" ∈ issued := List.mem_cons_self
  exact (hempty.createDid hgenesis).submitDelta _ (List.mem_cons_of_mem _ List.mem_cons_self)

/-- A resolver that asks the holder for the document and is answered. -/
theorem coldStart_resolves_held :
    ∃ peer answer, holding[deriveDid "u7"]? = some peer ∧ peer.dag.deltasForPeer [] = .ok answer ∧
      let last := Resolver.new.run
        [.begin (deriveDid "u7"), .receive (.deltas (deriveDid "u7") answer), .poll (deriveDid "u7")]
      (∃ doc, last.node.docs[deriveDid "u7"]? = some doc ∧ doc.toCrdtState = peer.toCrdtState) ∧
        resolveDid last.node.docs "did:crdt:u7" none = resolveDid holding "did:crdt:u7" none := by
  have hlog : (holding[deriveDid "u7"]?).map Document.deltaLog = some [Document.genesis "u7", revocation] :=
    rfl
  obtain ⟨peer, hpeer, hdeltas⟩ := Option.map_eq_some_iff.mp hlog
  obtain ⟨answer, hanswer, hsent⟩ := allIngested_holding.exists_answer collisionFree_issued hpeer []
  have hdistinct : DistinctTimestamps peer.deltaLog := by
    rw [hdeltas]
    have htimes : ([Document.genesis "u7", revocation].map fun d ↦ d.timestamp).Nodup := by decide
    exact fun d hd e he htime ↦ congrArg _ (List.inj_on_of_nodup_map htimes hd he htime)
  refine ⟨peer, answer, hpeer, hanswer, ?_⟩
  refine coldStart_resolves collisionFree_issued uniqueMethodIds_issued ?_ allIngested_holding hpeer hdistinct
    hanswer [.begin (deriveDid "u7")] [.poll (deriveDid "u7")] ?_ (Or.inl ?_)
  · simp [KeyRefsDistinct, issued, occurs_eventsOf_iff, Document.genesis, Document.genesisOp, revocation,
      SignedDelta.unsigned, SignedDelta.readable]
  · intro msg hmsg
    obtain rfl : msg = .deltas (deriveDid "u7") answer := by simpa using hmsg
    exact hsent.1
  · decide

end Readable

end DidCrdt
