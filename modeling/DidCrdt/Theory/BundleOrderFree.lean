import DidCrdt.Theory.BundleChoice

/-!
# Bundles in every order, and one delta at a time

The order of a bundle decides which copies of its payloads are replayed, and the order in which its
deltas are fed one at a time decides which methods are known when a signature is checked. Neither makes a
difference on exactly the bundles for which the copies of a payload get one verdict and no payload is
starved (`mergeVerifiedBundle_orderFree_iff`). A payload is starved when the document can grow by others
so that each of its copies meets a document at which it does not verify (`Starved`).

When no payload is starved, feeding the deltas parents first holds them all
(`holds_of_not_starved`). For a starved payload there is a feed, parents first, that does not hold it
(`Starved.exists_feed`): the copies are fed where they do not verify, the others as the document grows.
-/

set_option autoImplicit false
set_option relaxedAutoImplicit false

namespace DidCrdt

open Std (ExtTreeMap)
open scoped List

section

variable [Primitives]

/-! ### Growing documents -/

/-- No delta comes before one that it names as a parent. -/
def ParentsLead (feed : List SignedDelta) : Prop := feed.Pairwise fun d e ↦ e.contentHash ∉ d.parents

/-- The deltas of the run are new deltas of the source, each after its parents. -/
def Grows (source : Set SignedDelta) : Document → List SignedDelta → Prop
  | _, [] => True
  | doc, d :: run => d ∈ source ∧ d.contentHash ∉ doc.logHashes ∧
    (∀ p ∈ d.parents, p ∈ doc.logHashes) ∧ Grows source (doc.record d) run

/-- The parents of the delta are held, and its signature does not verify. -/
def Unverified (doc : Document) (d : SignedDelta) : Prop :=
  (∀ p ∈ d.parents, p ∈ doc.logHashes) ∧ verifySignature d doc ≠ .ok ()

/-- The document can grow by other payloads of the bundle so that every copy of the payload meets a
document, on the way, that holds its parents and at which it does not verify. -/
def Starved (bundled : List SignedDelta) (doc : Document) (d : SignedDelta) : Prop :=
  ∃ run, Grows (members bundled) doc run ∧ d.contentHash ∉ (doc.recordAll run).logHashes ∧
    ∀ e ∈ bundled, e.contentHash = d.contentHash →
      ∃ before, before <+: run ∧ Unverified (doc.recordAll before) e

section Growing

variable {deltas source : Set SignedDelta} {root d : SignedDelta} {doc : Document}
  {run : List SignedDelta}

/-- A verified run grows the document. -/
theorem Verifies.grows (hfree : CollisionFree deltas) (hsource : source ⊆ deltas)
    (run : List SignedDelta) : ∀ doc : Document, Coherent deltas root doc → Verifies source doc run →
      Grows source doc run := by
  induction run with
  | nil => exact fun _ _ _ ↦ trivial
  | cons d run ih =>
    rintro doc h ⟨hd, haccepts, hsig, hrest⟩
    obtain ⟨hnew, _, hparents⟩ := (h.accepts_iff hfree).mp haccepts
    exact ⟨hd, hnew, hparents,
      ih (doc.record d) (h.verifiedStep hfree ⟨d, hsource hd, haccepts, hsig, rfl⟩) hrest⟩

theorem Grows.mem_source (hgrows : Grows source doc run) : ∀ e ∈ run, e ∈ source := by
  induction run generalizing doc with
  | nil => exact fun e he ↦ absurd he List.not_mem_nil
  | cons d run ih =>
    intro e he
    rcases List.mem_cons.mp he with rfl | he
    · exact hgrows.1
    · exact ih hgrows.2.2.2 e he

/-- What a document grows by is new, and nothing of it comes twice. -/
theorem Grows.hashes (hgrows : Grows source doc run) :
    (∀ e ∈ run, e.contentHash ∉ doc.logHashes) ∧ (run.map SignedDelta.contentHash).Nodup := by
  induction run generalizing doc with
  | nil => exact ⟨fun e he ↦ absurd he List.not_mem_nil, List.nodup_nil⟩
  | cons d run ih =>
    obtain ⟨_, hnew, _, hrest⟩ := hgrows
    obtain ⟨hlater, hnodup⟩ := ih hrest
    have hrecorded : ∀ e ∈ run, e.contentHash ∉ doc.logHashes ∧ e.contentHash ≠ d.contentHash := by
      intro e he
      have hnot := hlater e he
      rw [logHashes_record, List.mem_append, List.mem_singleton, not_or] at hnot
      exact hnot
    refine ⟨fun e he ↦ ?_, List.nodup_cons.mpr ⟨fun hmem ↦ ?_, hnodup⟩⟩
    · rcases List.mem_cons.mp he with rfl | he
      · exact hnew
      · exact (hrecorded e he).1
    · obtain ⟨e, he, hkey⟩ := List.mem_map.mp hmem
      exact (hrecorded e he).2 hkey

end Growing

/-! ### Feeding deltas one at a time -/

section Feeds

variable {deltas source : Set SignedDelta} {root d : SignedDelta} {doc : Document}
  {feed run : List SignedDelta}

/-- Feeding records a verified run of the deltas fed, and what is fed first records a start of it. -/
theorem submitAll_spec (feed : List SignedDelta) : ∀ doc : Document,
    ∃ run, Verifies (members feed) doc run ∧ doc.submitAll feed = doc.recordAll run ∧
      ∀ before, before <+: feed →
        ∃ start, start <+: run ∧ doc.submitAll before = doc.recordAll start := by
  induction feed with
  | nil =>
    intro doc
    refine ⟨[], trivial, rfl, fun before hbefore ↦ ⟨[], List.nil_prefix, ?_⟩⟩
    rw [List.prefix_nil.mp hbefore]
    rfl
  | cons d feed ih =>
    intro doc
    have hmono : members feed ⊆ members (d :: feed) := fun e he ↦ List.mem_cons_of_mem d he
    obtain ⟨run, hverifies, hreaches, hstarts⟩ := ih (doc.mergeVerifiedDelta d).1
    rcases Document.mergeVerifiedDelta_fst_eq doc d with ⟨haccepts, hsig, heq⟩ | ⟨_, heq⟩
    · rw [heq] at hverifies hreaches hstarts
      refine ⟨d :: run, ⟨List.mem_cons_self, haccepts, hsig, hverifies.mono hmono⟩, ?_,
        fun before hbefore ↦ ?_⟩
      · change ((doc.mergeVerifiedDelta d).1).submitAll feed = _
        rw [heq]
        exact hreaches
      · rcases List.prefix_cons_iff.mp hbefore with rfl | ⟨rest, rfl, hrest⟩
        · exact ⟨[], List.nil_prefix, rfl⟩
        · obtain ⟨start, hstart, hsame⟩ := hstarts rest hrest
          refine ⟨d :: start, List.prefix_cons_inj d |>.mpr hstart, ?_⟩
          change ((doc.mergeVerifiedDelta d).1).submitAll rest = _
          rw [heq]
          exact hsame
    · rw [heq] at hverifies hreaches hstarts
      refine ⟨run, hverifies.mono hmono, ?_, fun before hbefore ↦ ?_⟩
      · change ((doc.mergeVerifiedDelta d).1).submitAll feed = _
        rw [heq]
        exact hreaches
      · rcases List.prefix_cons_iff.mp hbefore with rfl | ⟨rest, rfl, hrest⟩
        · exact ⟨[], List.nil_prefix, rfl⟩
        · obtain ⟨start, hstart, hsame⟩ := hstarts rest hrest
          refine ⟨start, hstart, ?_⟩
          change ((doc.mergeVerifiedDelta d).1).submitAll rest = _
          rw [heq]
          exact hsame

/-- What is held stays held, and what is held later was held or fed. -/
theorem mem_submitAll (doc : Document) (feed : List SignedDelta) :
    (∀ h ∈ doc.logHashes, h ∈ (doc.submitAll feed).logHashes) ∧
      ∀ h ∈ (doc.submitAll feed).logHashes,
        h ∈ doc.logHashes ∨ h ∈ feed.map SignedDelta.contentHash := by
  obtain ⟨run, hverifies, hreaches, _⟩ := submitAll_spec feed doc
  rw [hreaches]
  refine ⟨fun h hh ↦ held_recordAll hh, fun h hh ↦ ?_⟩
  refine ((mem_logHashes_recordAll h).mp hh).imp_right fun hrun ↦ ?_
  obtain ⟨e, he, rfl⟩ := List.mem_map.mp hrun
  exact List.mem_map_of_mem (hverifies.mem_source e he)

/-- Feeding keeps documents coherent. -/
theorem Coherent.submitAll (h : Coherent deltas root doc) (hfree : CollisionFree deltas)
    (hfeed : members feed ⊆ deltas) : Coherent deltas root (doc.submitAll feed) := by
  obtain ⟨run, hverifies, hreaches, _⟩ := submitAll_spec feed doc
  rw [hreaches]
  exact h.recordAll hfree (hverifies.mono hfeed)

/-- Deltas of which none is accepted and verifies leave the document as it was. -/
theorem submitAll_of_refused (hrefused : ∀ e ∈ feed, ¬ (Accepts doc e ∧ verifySignature e doc = .ok ())) :
    doc.submitAll feed = doc := by
  induction feed with
  | nil => rfl
  | cons e feed ih =>
    have hsame : (doc.mergeVerifiedDelta e).1 = doc := by
      rcases Document.mergeVerifiedDelta_fst_eq doc e with ⟨haccepts, hsig, _⟩ | ⟨_, heq⟩
      · exact absurd ⟨haccepts, hsig⟩ (hrefused e List.mem_cons_self)
      · exact heq
    change ((doc.mergeVerifiedDelta e).1).submitAll feed = doc
    rw [hsame]
    exact ih fun e he ↦ hrefused e (List.mem_cons_of_mem _ he)

/-- Assumes: the new deltas fed are admissible, parents come first, and no delta is starved. A delta that
is fed is held at the end, when its parents are. -/
theorem mem_submitAll_of_parents (h : Coherent deltas root doc) (hfree : CollisionFree deltas)
    (hfeed : members feed ⊆ deltas)
    (hadmissible : ∀ e ∈ feed, e.contentHash ∉ doc.logHashes → Admissible deltas root.did e)
    (hlead : ParentsLead feed) (hfed : ¬ Starved feed doc d) (hd : d ∈ deltas)
    (hparents : ∀ p ∈ d.parents, p ∈ (doc.submitAll feed).logHashes) :
    d.contentHash ∈ (doc.submitAll feed).logHashes := by
  by_contra hmissing
  obtain ⟨run, hverifies, hreaches, hstarts⟩ := submitAll_spec feed doc
  refine hfed ⟨run, hverifies.grows hfree hfeed run doc h, hreaches ▸ hmissing, fun e he hkey ↦ ?_⟩
  obtain ⟨before, after, hsplit⟩ := List.append_of_mem he
  have hlater : doc.submitAll feed = (doc.submitAll before).submitAll (e :: after) := by
    rw [hsplit, submitAll_append]
  obtain ⟨start, hstart, hsame⟩ := hstarts before (hsplit ▸ List.prefix_append before _)
  have hcoherent : Coherent deltas root (doc.submitAll before) :=
    h.submitAll hfree fun e' he' ↦ hfeed (hsplit ▸ List.mem_append_left _ he')
  have hnew : e.contentHash ∉ (doc.submitAll before).logHashes := by
    intro hheld
    refine hmissing (hkey ▸ ?_)
    rw [hlater]
    exact (mem_submitAll _ _).1 _ hheld
  -- no copy of a parent is fed from here on
  have hheld : ∀ p ∈ e.parents, p ∈ (doc.submitAll before).logHashes := by
    intro p hp
    have hlast := hparents p (hfree.parents_eq (hfeed he) hd hkey ▸ hp)
    rw [hlater] at hlast
    rcases (mem_submitAll _ _).2 p hlast with hin | hin
    · exact hin
    rw [List.map_cons, List.mem_cons] at hin
    rcases hin with rfl | hin
    · rw [hlater, ← hkey] at hmissing
      exact absurd hlast hmissing
    · obtain ⟨f, hf, rfl⟩ := List.mem_map.mp hin
      unfold ParentsLead at hlead
      rw [hsplit, List.pairwise_append, List.pairwise_cons] at hlead
      exact absurd hp (hlead.2.1.1 f hf)
  refine ⟨start, hstart, hsame ▸ hheld, fun hsig ↦ hmissing ?_⟩
  have hfirst : e.contentHash ∉ doc.logHashes := fun hin ↦ hnew ((mem_submitAll _ _).1 _ hin)
  have haccepts := (hcoherent.accepts_iff hfree).mpr ⟨hnew, hadmissible e he hfirst, hheld⟩
  rw [← hsame] at hsig
  have hrecorded := Document.mergeVerifiedDelta_of_accepts haccepts hsig
  rw [hlater]
  change d.contentHash ∈ (((doc.submitAll before).mergeVerifiedDelta e).1.submitAll after).logHashes
  rw [hrecorded]
  refine (mem_submitAll _ _).1 _ ?_
  rw [logHashes_record, hkey]
  exact List.mem_append_right _ (List.mem_singleton_self _)

end Feeds

/-! ### Feeds of a bundle -/

section Bundles

variable {deltas : Set SignedDelta} {root d : SignedDelta} {doc : Document}
  {bundled feed run : List SignedDelta} {order : List DeltaHash}

theorem Starved.perm {others : List SignedDelta} (h : Starved bundled doc d) (hperm : bundled ~ others) :
    Starved others doc d := by
  have hmembers : members bundled = members others := Set.ext fun e ↦ hperm.mem_iff
  obtain ⟨run, hgrows, hnew, hcopies⟩ := h
  exact ⟨run, hmembers ▸ hgrows, hnew, fun e he ↦ hcopies e (hperm.mem_iff.mpr he)⟩

/-- Assumes: every parent is in the bundle or held, and the new deltas are admissible. When no payload is
starved, feeding the bundle parents first holds every delta of it. The induction is on the order found. -/
theorem holds_of_not_starved (h : Coherent deltas root doc) (hfree : CollisionFree deltas)
    (hbundle : members bundled ⊆ deltas)
    (horder : topoOrderBundle (Document.indexBundle bundled) = .ok order)
    (hgrounded : ∀ d ∈ bundled, ∀ p ∈ d.parents,
      p ∈ bundled.map SignedDelta.contentHash ∨ doc.dag.contains p = true)
    (hadmissible : ∀ e ∈ bundled, e.contentHash ∉ doc.logHashes → Admissible deltas root.did e)
    (hstarved : ∀ d ∈ bundled, ¬ Starved bundled doc d) (hperm : feed ~ bundled)
    (hlead : ParentsLead feed) : ∀ d ∈ bundled, d.contentHash ∈ (doc.submitAll feed).logHashes := by
  have hall : ∀ rest done : List DeltaHash,
      TopologicalOrder.ParentsFirst (Document.indexBundle bundled).Names done rest →
      (∀ k ∈ rest, k ∈ order) → (∀ k ∈ done, k ∈ (doc.submitAll feed).logHashes) →
      ∀ k ∈ rest, k ∈ (doc.submitAll feed).logHashes := by
    intro rest
    induction rest with
    | nil => exact fun _ _ _ _ k hk ↦ absurd hk List.not_mem_nil
    | cons k rest ih =>
      intro done hordered hin hdone
      have hkey := (mem_order_iff horder k).mp (hin k List.mem_cons_self)
      obtain ⟨d, hget⟩ := (OrderedMaps.contains_iff _ k).mp ((contains_indexBundle bundled k).mpr hkey)
      obtain ⟨hd, rfl⟩ := Document.mem_of_indexBundle hget
      have hheld : d.contentHash ∈ (doc.submitAll feed).logHashes := by
        refine mem_submitAll_of_parents h hfree (fun e he ↦ hbundle (hperm.mem_iff.mp he))
          (fun e he ↦ hadmissible e (hperm.mem_iff.mp he)) hlead
          (fun hfed ↦ hstarved d hd (hfed.perm hperm)) (hbundle hd) fun p hp ↦ ?_
        rcases hgrounded d hd p hp with hbundled | hheld
        · exact hdone p (hordered.1 p ⟨d, hget, hp, (contains_indexBundle bundled p).mpr hbundled⟩)
        · exact (mem_submitAll doc feed).1 p ((h.contains_iff p).mp hheld)
      intro k hk
      rcases List.mem_cons.mp hk with rfl | hk
      · exact hheld
      · refine ih (done ++ [d.contentHash]) hordered.2
          (fun k hk ↦ hin k (List.mem_cons_of_mem _ hk)) (fun k hk ↦ ?_) k hk
        rcases List.mem_append.mp hk with hk | hk
        · exact hdone k hk
        · rwa [List.mem_singleton.mp hk]
  intro d hd
  exact hall order [] (topoOrderBundle_spec horder).2 (fun k hk ↦ hk)
    (fun k hk ↦ absurd hk List.not_mem_nil) d.contentHash
    ((mem_order_iff horder _).mpr (List.mem_map_of_mem hd))

/-- Assumes: the new deltas of the bundle are admissible. Growing by them keeps documents coherent. -/
theorem Coherent.grow (hbundle : members bundled ⊆ deltas) (h : Coherent deltas root doc)
    (hadmissible : ∀ e ∈ bundled, e.contentHash ∉ doc.logHashes → Admissible deltas root.did e)
    (hd : d ∈ bundled) (hnew : d.contentHash ∉ doc.logHashes)
    (hparents : ∀ p ∈ d.parents, p ∈ doc.logHashes) :
    Coherent deltas root (doc.record d) ∧ ∀ e ∈ bundled, e.contentHash ∉ (doc.record d).logHashes →
      Admissible deltas root.did e := by
  refine ⟨h.record (hbundle hd) hnew (hadmissible d hd hnew) hparents, fun e he hlater ↦ ?_⟩
  refine hadmissible e he fun hheld ↦ hlater ?_
  rw [logHashes_record]
  exact List.mem_append_left _ hheld

/-- Assumes: the documents hold the same hashes. A delta that does not verify at one is refused at the
other. -/
theorem Coherent.refused_of_unverified {other : Document} (h : Coherent deltas root doc)
    (h' : Coherent deltas root other) (hfree : CollisionFree deltas)
    (hheld : heldHashes doc = heldHashes other) (hunverified : Unverified doc d) :
    ¬ (Accepts other d ∧ verifySignature d other = .ok ()) :=
  fun haccepts ↦ hunverified.2 ((h.verifySignature_eq h' hfree hheld).trans haccepts.2)

/-! ### Feeds that starve a payload -/

omit [Primitives] in
/-- Assumes: no element has both properties. -/
theorem filter_append_filter_perm {α : Type} {p q r : α → Bool} {l : List α}
    (hor : ∀ a ∈ l, r a = (p a || q a)) (hdisjoint : ∀ a ∈ l, p a = true → q a = false) :
    l.filter p ++ l.filter q ~ l.filter r := by
  have hfirst : (l.filter r).filter p = l.filter p := by
    rw [List.filter_filter]
    refine List.filter_congr fun a ha ↦ ?_
    rw [hor a ha]
    cases p a <;> simp
  have hsecond : (l.filter r).filter (fun a ↦ !p a) = l.filter q := by
    rw [List.filter_filter]
    refine List.filter_congr fun a ha ↦ ?_
    have hnot := hdisjoint a ha
    rw [hor a ha]
    cases hpa : p a with
    | true => simp [hnot hpa]
    | false => simp
  have hsplit := List.filter_append_perm p (l.filter r)
  rwa [hfirst, hsecond] at hsplit

/-- Deltas whose parents are held come before deltas that are not held. -/
theorem ParentsLead.prepend {here later : List SignedDelta}
    (hparents : ∀ e ∈ here, ∀ p ∈ e.parents, p ∈ doc.logHashes)
    (hnew : ∀ e ∈ here ++ later, e.contentHash ∉ doc.logHashes) (hlater : ParentsLead later) :
    ParentsLead (here ++ later) := by
  have hcross : ∀ d ∈ here, ∀ e ∈ here ++ later, e.contentHash ∉ d.parents :=
    fun d hd e he hp ↦ hnew e he (hparents d hd _ hp)
  refine List.pairwise_append.mpr ⟨?_, hlater, fun d hd e he ↦
    hcross d hd e (List.mem_append_right here he)⟩
  exact List.pairwise_of_forall_mem_list fun d hd e he ↦ hcross d hd e (List.mem_append_left later he)

/-- A feed of the copies of the payloads of a run, and of copies of a payload that starves along it: it
leads with parents, and if it leaves the payloads of the run held, then it does not leave the other held. -/
structure StarvingFeed (deltas : Set SignedDelta) (root : SignedDelta) (bundled : List SignedDelta)
    (hash : DeltaHash) (doc : Document) (run copies feed : List SignedDelta) : Prop where
  perm : feed ~ (bundled.filter fun e ↦ e.contentHash ∈ run.map SignedDelta.contentHash) ++ copies
  lead : ParentsLead feed
  parents : ∀ e ∈ feed, ∀ p ∈ e.parents, p ∈ (doc.recordAll run).logHashes
  starves : ∀ working, Coherent deltas root working → heldHashes doc = heldHashes working →
    (∀ e ∈ run, e.contentHash ∈ (working.submitAll feed).logHashes) →
    hash ∉ (working.submitAll feed).logHashes

/-- What the feeds of a step need to know of it: the first payload of a run is new and its parents are
held, and the starved payload is not held and another one. -/
structure StarvingStep (deltas : Set SignedDelta) (root : SignedDelta) (bundled : List SignedDelta)
    (hash : DeltaHash) (doc : Document) (g : SignedDelta) (run : List SignedDelta) : Prop where
  coherent : Coherent deltas root doc
  mem : g ∈ bundled
  parents : ∀ p ∈ g.parents, p ∈ doc.logHashes
  news : ∀ e ∈ g :: run, e.contentHash ∉ doc.logHashes
  once : g.contentHash ∉ run.map SignedDelta.contentHash
  missing : hash ∉ (doc.recordAll (g :: run)).logHashes

section Step

variable {hash : DeltaHash} {g : SignedDelta} {here later : List SignedDelta}

/-- The starved payload is neither held nor the first of the run. -/
theorem StarvingStep.hash_new (hstep : StarvingStep deltas root bundled hash doc g run) :
    hash ∉ doc.logHashes ∧ hash ≠ g.contentHash := by
  refine ⟨mt held_recordAll hstep.missing, fun heq ↦
    hstep.missing ((mem_logHashes_recordAll _).mpr (Or.inr ?_))⟩
  rw [heq]
  exact List.mem_cons_self

/-- The hashes of the rest of a feed. -/
theorem StarvingFeed.hashes {copies : List SignedDelta}
    (hfeed : StarvingFeed deltas root bundled hash doc run copies feed)
    (hcopies : ∀ e ∈ copies, e.contentHash = hash) : ∀ e ∈ feed,
    e.contentHash ∈ run.map SignedDelta.contentHash ∨ e.contentHash = hash := by
  intro e he
  rcases List.mem_append.mp (hfeed.perm.mem_iff.mp he) with he | he
  · exact Or.inl (by simpa using (List.mem_filter.mp he).2)
  · exact Or.inr (hcopies e he)

/-- The copies of the first payload, before those of the others. -/
theorem StarvingStep.group_perm (hstep : StarvingStep deltas root bundled hash doc g run) :
    (bundled.filter fun e ↦ e.contentHash = g.contentHash) ++
        (bundled.filter fun e ↦ e.contentHash ∈ run.map SignedDelta.contentHash) ~
      bundled.filter fun e ↦ e.contentHash ∈ (g :: run).map SignedDelta.contentHash := by
  refine filter_append_filter_perm (fun e _ ↦ ?_) fun e _ hkey ↦ ?_
  · simp
  · rw [decide_eq_false_iff_not, of_decide_eq_true hkey]
    exact hstep.once

/-- One payload before a feed: the copies that do not verify at the document, and the copies of the first
payload of the run. -/
theorem StarvingFeed.cons (hfree : CollisionFree deltas) (hbundle : members bundled ⊆ deltas)
    (hstep : StarvingStep deltas root bundled hash doc g run)
    (hhere : ∀ e ∈ here, e.contentHash = hash ∧ Unverified doc e)
    (hlater : ∀ e ∈ later, e.contentHash = hash)
    (hfeed : StarvingFeed deltas root bundled hash (doc.record g) run later feed) :
    StarvingFeed deltas root bundled hash doc (g :: run) (here ++ later)
      ((here ++ bundled.filter fun e ↦ e.contentHash = g.contentHash) ++ feed) := by
  obtain ⟨hunheld, hother⟩ := hstep.hash_new
  have hgroup : ∀ e ∈ bundled.filter fun e ↦ e.contentHash = g.contentHash,
      e ∈ bundled ∧ e.contentHash = g.contentHash := by
    intro e he
    obtain ⟨he, hkey⟩ := List.mem_filter.mp he
    exact ⟨he, of_decide_eq_true hkey⟩
  have hground : ∀ e ∈ here ++ bundled.filter fun e ↦ e.contentHash = g.contentHash,
      ∀ p ∈ e.parents, p ∈ doc.logHashes := by
    intro e he p hp
    rcases List.mem_append.mp he with he | he
    · exact (hhere e he).2.1 p hp
    · obtain ⟨he, hkey⟩ := hgroup e he
      rw [hfree.parents_eq (hbundle he) (hbundle hstep.mem) hkey] at hp
      exact hstep.parents p hp
  refine ⟨?_, ?_, fun e he p hp ↦ ?_, fun working hworking hheld hruns ↦ ?_⟩
  · set others := bundled.filter fun e ↦ e.contentHash ∈ run.map SignedDelta.contentHash
    set group := bundled.filter fun e ↦ e.contentHash = g.contentHash
    calc (here ++ group) ++ feed
      _ ~ (here ++ group) ++ (others ++ later) := hfeed.perm.append_left _
      _ = here ++ ((group ++ others) ++ later) := by simp only [List.append_assoc]
      _ ~ (group ++ others) ++ (here ++ later) := List.perm_append_comm_assoc _ _ _
      _ ~ _ := hstep.group_perm.append_right _
  · refine ParentsLead.prepend hground (fun e he ↦ ?_) hfeed.lead
    rcases List.mem_append.mp he with he | he
    · rcases List.mem_append.mp he with he | he
      · rw [(hhere e he).1]
        exact hunheld
      · rw [(hgroup e he).2]
        exact hstep.news g List.mem_cons_self
    · rcases hfeed.hashes hlater e he with hrun | heq
      · obtain ⟨f, hf, hkey⟩ := List.mem_map.mp hrun
        rw [← hkey]
        exact hstep.news f (List.mem_cons_of_mem g hf)
      · rw [heq]
        exact hunheld
  · rcases List.mem_append.mp he with he | he
    · exact held_recordAll (hground e he p hp)
    · exact hfeed.parents e he p hp
  · have hsame : ∀ k, k ∈ doc.logHashes ↔ k ∈ working.logHashes := Set.ext_iff.mp hheld
    have hstart : working.submitAll here = working := submitAll_of_refused fun e he ↦
      hstep.coherent.refused_of_unverified hworking hfree hheld (hhere e he).2
    rw [submitAll_append, submitAll_append, hstart] at hruns ⊢
    set group := bundled.filter fun e ↦ e.contentHash = g.contentHash
    -- the first payload is held after its copies, as none of them comes later
    have hfirst : g.contentHash ∈ (working.submitAll group).logHashes := by
      rcases (mem_submitAll _ feed).2 _ (hruns g List.mem_cons_self) with hin | hin
      · exact hin
      · obtain ⟨e, he, hkey⟩ := List.mem_map.mp hin
        rcases hfeed.hashes hlater e he with hrun | heq
        · exact absurd (hkey ▸ hrun) hstep.once
        · exact absurd (heq.symm.trans hkey) hother
    refine hfeed.starves (working.submitAll group)
      (hworking.submitAll hfree fun e he ↦ hbundle (hgroup e he).1) (Set.ext fun k ↦ ?_)
      fun e he ↦ hruns e (List.mem_cons_of_mem g he)
    change k ∈ (doc.record g).logHashes ↔ k ∈ (working.submitAll group).logHashes
    rw [logHashes_record, List.mem_append, List.mem_singleton, hsame]
    constructor
    · rintro (hin | rfl)
      · exact (mem_submitAll working group).1 k hin
      · exact hfirst
    · intro hin
      refine ((mem_submitAll working group).2 k hin).imp_right fun hgrouped ↦ ?_
      obtain ⟨e, he, rfl⟩ := List.mem_map.mp hgrouped
      exact (hgroup e he).2

end Step

/-- Assumes: the new deltas of the bundle are admissible. The copies are fed where they do not verify, in
between the copies of the payloads of the run. The induction is on the run. -/
theorem exists_starvingFeed (hfree : CollisionFree deltas) (hbundle : members bundled ⊆ deltas)
    {hash : DeltaHash} (run : List SignedDelta) : ∀ (doc : Document) (copies : List SignedDelta),
    Coherent deltas root doc →
    (∀ e ∈ bundled, e.contentHash ∉ doc.logHashes → Admissible deltas root.did e) →
    Grows (members bundled) doc run → hash ∉ (doc.recordAll run).logHashes →
    (∀ e ∈ copies, e.contentHash = hash ∧
      ∃ before, before <+: run ∧ Unverified (doc.recordAll before) e) →
    ∃ copies', copies' ~ copies ∧
      ∃ feed, StarvingFeed deltas root bundled hash doc run copies' feed := by
  classical
  induction run with
  | nil =>
    intro doc copies h _ _ hmissing hcopies
    have hhere : ∀ e ∈ copies, Unverified doc e := by
      intro e he
      obtain ⟨_, before, hbefore, hunverified⟩ := hcopies e he
      rwa [List.prefix_nil.mp hbefore] at hunverified
    refine ⟨copies, .refl _, copies, ?_, ?_, fun e he ↦ (hhere e he).1,
      fun working hworking hheld _ ↦ ?_⟩
    · simp
    · rw [← List.append_nil copies]
      refine ParentsLead.prepend (fun e he ↦ (hhere e he).1) (fun e he ↦ ?_) List.Pairwise.nil
      rw [List.append_nil] at he
      rw [(hcopies e he).1]
      exact hmissing
    · rw [submitAll_of_refused fun e he ↦ h.refused_of_unverified hworking hfree hheld (hhere e he)]
      exact fun hin ↦ hmissing ((Set.ext_iff.mp hheld hash).mpr hin)
  | cons g run ih =>
    intro doc copies h hadmissible hgrows hmissing hcopies
    obtain ⟨hnews, hnodup⟩ := hgrows.hashes
    obtain ⟨hg, hnew, hparents, hrest⟩ := hgrows
    obtain ⟨hcoherent, hadmissible'⟩ := h.grow hbundle hadmissible hg hnew hparents
    -- the copies that do not verify at this document are fed first
    obtain ⟨later, hlater, feed, hfeed⟩ := ih (doc.record g)
      (copies.filter fun e ↦ ¬ Unverified doc e) hcoherent hadmissible' hrest hmissing fun e he ↦ by
        obtain ⟨he, hverified⟩ := List.mem_filter.mp he
        obtain ⟨hkey, before, hbefore, hunverified⟩ := hcopies e he
        rcases List.prefix_cons_iff.mp hbefore with rfl | ⟨rest, rfl, hprefix⟩
        · exact absurd hunverified (of_decide_eq_true hverified)
        · exact ⟨hkey, rest, hprefix, hunverified⟩
    have hsplit : (copies.filter fun e ↦ Unverified doc e) ++ later ~ copies := by
      refine (hlater.append_left _).trans ?_
      simpa only [decide_not] using
        List.filter_append_perm (fun e ↦ decide (Unverified doc e)) copies
    refine ⟨_, hsplit, _, hfeed.cons hfree hbundle ⟨h, hg, hparents, hnews,
      (List.nodup_cons.mp hnodup).1, hmissing⟩ (fun e he ↦ ?_) fun e he ↦ ?_⟩
    · obtain ⟨he, hunverified⟩ := List.mem_filter.mp he
      exact ⟨(hcopies e he).1, of_decide_eq_true hunverified⟩
    · exact (hcopies e (List.mem_of_mem_filter (hlater.mem_iff.mp he))).1

/-- Deltas of the bundle can be fed in the order found. -/
theorem exists_lead (hfree : CollisionFree (members bundled))
    (horder : topoOrderBundle (Document.indexBundle bundled) = .ok order) (part : List SignedDelta)
    (hpart : ∀ e ∈ part, e ∈ bundled) : ∃ sorted, sorted ~ part ∧ ParentsLead sorted := by
  let rank := fun e : SignedDelta ↦ order.idxOf e.contentHash
  have htotal : Std.Total fun a b : SignedDelta ↦ rank a ≤ rank b := ⟨fun a b ↦ le_total _ _⟩
  have htrans : IsTrans SignedDelta fun a b ↦ rank a ≤ rank b := ⟨fun a b c ↦ le_trans⟩
  refine ⟨part.insertionSort fun a b ↦ rank a ≤ rank b, List.perm_insertionSort _ _, ?_⟩
  refine (List.pairwise_insertionSort (fun a b ↦ rank a ≤ rank b) part).imp_of_mem
    fun {a b} ha hb hle hparent ↦ ?_
  have ha' := hpart a ((List.mem_insertionSort _).mp ha)
  have hb' := hpart b ((List.mem_insertionSort _).mp hb)
  have hin : ∀ e ∈ bundled, (Document.indexBundle bundled).contains e.contentHash = true := fun e he ↦
    (contains_indexBundle bundled _).mpr (List.mem_map_of_mem he)
  obtain ⟨d, hget⟩ := (OrderedMaps.contains_iff _ _).mp (hin a ha')
  obtain ⟨hd, hkey⟩ := Document.mem_of_indexBundle hget
  rw [← hfree.parents_eq hd ha' hkey] at hparent
  have hlt := (topoOrderBundle_spec horder).2.idxOf_lt ⟨d, hget, hparent, hin b hb'⟩ order []
    List.not_mem_nil ((mem_order_iff horder _).mpr (List.mem_map_of_mem ha'))
  rw [List.nil_append] at hlt
  exact absurd hle (Nat.not_le.mpr hlt)

/-- Assumes: the new deltas of the bundle are admissible. For a starved payload there is an order, parents
first, in which feeding the bundle does not hold all of it. The held deltas come first, and the deltas that
neither grow the document nor starve come last. -/
theorem Starved.exists_feed (hstarved : Starved bundled doc d) (h : Coherent deltas root doc)
    (hfree : CollisionFree deltas) (hbundle : members bundled ⊆ deltas)
    (horder : topoOrderBundle (Document.indexBundle bundled) = .ok order)
    (hadmissible : ∀ e ∈ bundled, e.contentHash ∉ doc.logHashes → Admissible deltas root.did e)
    (hd : d ∈ bundled) : ∃ feed, feed ~ bundled ∧ ParentsLead feed ∧
      ∃ e ∈ bundled, e.contentHash ∉ (doc.submitAll feed).logHashes := by
  obtain ⟨run, hgrows, hmissing, hcopies⟩ := hstarved
  have hnews := hgrows.hashes.1
  obtain ⟨hunheld, hother⟩ :=
    not_or.mp ((mem_logHashes_recordAll d.contentHash).not.mp hmissing)
  obtain ⟨copies, hcopiesPerm, feed, hfeed⟩ := exists_starvingFeed hfree hbundle run doc
    (bundled.filter fun e ↦ e.contentHash = d.contentHash) h hadmissible hgrows hmissing fun e he ↦ by
      obtain ⟨he, hkey⟩ := List.mem_filter.mp he
      exact ⟨of_decide_eq_true hkey, hcopies e he (of_decide_eq_true hkey)⟩
  have hfed : ∀ e ∈ feed, e.contentHash ∉ doc.logHashes := by
    intro e he
    rcases hfeed.hashes (fun e he ↦ of_decide_eq_true
      (List.mem_filter.mp (hcopiesPerm.mem_iff.mp he)).2) e he with hrun | heq
    · obtain ⟨f, hf, hkey⟩ := List.mem_map.mp hrun
      rw [← hkey]
      exact hnews f hf
    · rw [heq]
      exact hunheld
  -- the deltas that are held, and those that are neither held nor fed
  have hsub : members bundled ⊆ deltas := hbundle
  obtain ⟨first, hfirst, hfirstLead⟩ := exists_lead (hfree.mono hsub) horder
    (bundled.filter fun e ↦ e.contentHash ∈ doc.logHashes) fun e he ↦ List.mem_of_mem_filter he
  obtain ⟨last, hlast, hlastLead⟩ := exists_lead (hfree.mono hsub) horder
    (bundled.filter fun e ↦ e.contentHash ∉ (doc.recordAll run).logHashes ∧
      e.contentHash ≠ d.contentHash) fun e he ↦ List.mem_of_mem_filter he
  have hfirst' : ∀ e ∈ first, e ∈ bundled ∧ e.contentHash ∈ doc.logHashes := by
    intro e he
    obtain ⟨he, hheld⟩ := List.mem_filter.mp (hfirst.mem_iff.mp he)
    exact ⟨he, of_decide_eq_true hheld⟩
  have hlast' : ∀ e ∈ last,
      e.contentHash ∉ (doc.recordAll run).logHashes ∧ e.contentHash ≠ d.contentHash := by
    intro e he
    exact of_decide_eq_true (List.mem_filter.mp (hlast.mem_iff.mp he)).2
  refine ⟨first ++ (feed ++ last), ?_, ?_, ?_⟩
  · have hnewRun : ∀ k, k ∈ run.map SignedDelta.contentHash → k ∉ doc.logHashes := by
      intro k hk
      obtain ⟨e, he, rfl⟩ := List.mem_map.mp hk
      exact hnews e he
    have hfedPerm : feed ~ bundled.filter fun e ↦
        e.contentHash ∈ run.map SignedDelta.contentHash ∨ e.contentHash = d.contentHash := by
      refine (hfeed.perm.trans (hcopiesPerm.append_left _)).trans
        (filter_append_filter_perm (fun e _ ↦ Bool.decide_or _ _) fun e _ hrun ↦ ?_)
      rw [decide_eq_false_iff_not]
      exact fun heq ↦ hother (heq ▸ of_decide_eq_true hrun)
    have hnewPerm : feed ++ last ~ bundled.filter fun e ↦ e.contentHash ∉ doc.logHashes := by
      refine (hfedPerm.append hlast).trans (filter_append_filter_perm (fun e _ ↦ ?_) fun e _ hfed ↦ ?_)
      · rw [← Bool.decide_or, decide_eq_decide, mem_logHashes_recordAll]
        have hrun := hnewRun e.contentHash
        by_cases heq : e.contentHash = d.contentHash
        · simp [heq, hunheld]
        · tauto
      · rw [decide_eq_false_iff_not, mem_logHashes_recordAll]
        exact fun hrest ↦ (of_decide_eq_true hfed).elim (fun hrun ↦ hrest.1 (Or.inr hrun)) hrest.2
    calc first ++ (feed ++ last)
      _ ~ (bundled.filter fun e ↦ e.contentHash ∈ doc.logHashes) ++
            bundled.filter fun e ↦ e.contentHash ∉ doc.logHashes := hfirst.append hnewPerm
      _ ~ bundled := by
          simpa only [decide_not] using
            List.filter_append_perm (fun e ↦ decide (e.contentHash ∈ doc.logHashes)) bundled
  · have hclosed : ∀ e ∈ first, ∀ p ∈ e.parents, p ∈ doc.logHashes := by
      intro e he p hp
      obtain ⟨he, hheld⟩ := hfirst' e he
      obtain ⟨f, hf, hkey⟩ := List.mem_map.mp hheld
      rw [hfree.parents_eq (hbundle he) (h.sub hf) hkey.symm] at hp
      exact (mem_hashes_iff _ p).mpr (h.history.parentClosed f hf p hp)
    refine List.pairwise_append.mpr ⟨hfirstLead, List.pairwise_append.mpr ⟨hfeed.lead, hlastLead,
      fun a ha b hb hp ↦ (hlast' b hb).1 (hfeed.parents a ha _ hp)⟩, fun a ha b hb hp ↦ ?_⟩
    have hheld := hclosed a ha _ hp
    rcases List.mem_append.mp hb with hb | hb
    · exact hfed b hb hheld
    · exact (hlast' b hb).1 (held_recordAll hheld)
  · by_contra hall
    push Not at hall
    have hstart : doc.submitAll first = doc := submitAll_of_refused fun e he haccepts ↦
      (h.contains_eq_false_iff _).mp haccepts.1.new (hfirst' e he).2
    rw [submitAll_append, submitAll_append, hstart] at hall
    -- what is fed last has none of the payloads of the run, nor the starved one
    have hbefore : ∀ k ∈ ((doc.submitAll feed).submitAll last).logHashes,
        k ∈ (doc.recordAll run).logHashes ∨ k = d.contentHash → k ∈ (doc.submitAll feed).logHashes := by
      intro k hk hcase
      refine ((mem_submitAll _ last).2 k hk).resolve_right fun hin ↦ ?_
      obtain ⟨e, he, rfl⟩ := List.mem_map.mp hin
      exact hcase.elim (hlast' e he).1 (hlast' e he).2
    refine hfeed.starves doc h rfl (fun e he ↦ ?_) (hbefore _ (hall d hd) (Or.inr rfl))
    exact hbefore _ (hall e (hgrows.mem_source e he))
      (Or.inl ((mem_logHashes_recordAll _).mpr (Or.inr (List.mem_map_of_mem he))))

end Bundles

/-! ### Bundles in every order -/

/-- Two errors, or the same count with the same hashes held. -/
def SameResult (result result' : Document × Except Error ℕ) : Prop :=
  (∃ e e', result.2 = .error e ∧ result'.2 = .error e') ∨
    ∃ count, result.2 = .ok count ∧ result'.2 = .ok count ∧
      heldHashes result.1 = heldHashes result'.1

/-- The bundle has the same result in every order, no order of it leaves a delta pending, and when it
succeeds, feeding its deltas one at a time, parents first, holds the same. -/
structure BundleOrderFree (doc : Document) (bundle : ClosureBundle) : Prop where
  same : ∀ others, others ~ bundle.deltas →
    SameResult (doc.mergeVerifiedBundle bundle) (doc.mergeVerifiedBundle ⟨bundle.target, others⟩)
  decided : ∀ others, others ~ bundle.deltas → ∀ missing,
    (doc.mergeVerifiedBundle ⟨bundle.target, others⟩).2 ≠ .error (.deltaPending missing)
  oneByOne : ∀ count, (doc.mergeVerifiedBundle bundle).2 = .ok count → ∀ feed, feed ~ bundle.deltas →
    ParentsLead feed → heldHashes (doc.submitAll feed) = heldHashes (doc.mergeVerifiedBundle bundle).1

section Results

variable {deltas : Set SignedDelta} {root : SignedDelta} {doc : Document} {bundle : ClosureBundle}
  {others run run' : List SignedDelta} {order : List DeltaHash}

theorem Structured.perm (h : Structured doc bundle) (hperm : others ~ bundle.deltas) :
    Structured doc ⟨bundle.target, others⟩ := by
  have hhashes := fun k ↦ (hperm.map SignedDelta.contentHash).mem_iff (a := k)
  refine ⟨(hhashes _).mpr h.target, fun d hd p hp ↦ ?_⟩
  exact (h.grounded d (hperm.mem_iff.mp hd) p hp).imp_left (hhashes p).mpr

/-- What a bundle in another order leads to: the choice that its replay submits decides. -/
theorem mergeVerifiedBundle_perm (hfree : CollisionFree (members bundle.deltas))
    (hstructured : Structured doc bundle)
    (horder : topoOrderBundle (Document.indexBundle bundle.deltas) = .ok order)
    (hperm : others ~ bundle.deltas) :
    let run := doc.submitted (Document.indexBundle others) order
    Choice doc bundle.deltas order run ∧
      (Verifies (members bundle.deltas) doc run →
        doc.mergeVerifiedBundle ⟨bundle.target, others⟩ = (doc.recordAll run, .ok run.length)) ∧
      (¬ Verifies (members bundle.deltas) doc run →
        ∃ e, doc.mergeVerifiedBundle ⟨bundle.target, others⟩ = (doc, .error e)) := by
  intro run
  have hmembers : members others = members bundle.deltas := Set.ext fun e ↦ hperm.mem_iff
  have horder' : topoOrderBundle (Document.indexBundle others) = .ok order :=
    (topoOrderBundle_perm hfree hperm).trans horder
  obtain ⟨hsucceeds, hfails⟩ := mergeVerifiedBundle_spec (hstructured.perm hperm) horder'
  rw [hmembers] at hsucceeds hfails
  have hchoice : Choice doc others order run := choice_submitted horder'
  refine ⟨⟨hchoice.hashes, fun d hd ↦ hperm.mem_iff.mp (hchoice.copies d hd)⟩, hsucceeds, fun hnot ↦ ?_⟩
  obtain ⟨e, _, hresult⟩ := hfails hnot
  exact ⟨e, hresult⟩

/-- A choice that is recorded leaves every payload of the bundle held, and what was held. -/
theorem Choice.mem_heldHashes_iff (hchoice : Choice doc bundle.deltas order run)
    (h : Coherent deltas root doc) (k : DeltaHash) :
    k ∈ heldHashes (doc.recordAll run) ↔ k ∈ doc.logHashes ∨ k ∈ order := by
  change k ∈ (doc.recordAll run).logHashes ↔ _
  rw [mem_logHashes_recordAll, hchoice.hashes, List.mem_filter, Bool.not_eq_true',
    h.contains_eq_false_iff]
  tauto

/-- Assumes: a choice verifies, and the other copies pass. The new deltas of the bundle are
admissible. -/
theorem Choice.admissible (hchoice : Choice doc bundle.deltas order run) (h : Coherent deltas root doc)
    (hfree : CollisionFree deltas) (hbundle : members bundle.deltas ⊆ deltas)
    (horder : topoOrderBundle (Document.indexBundle bundle.deltas) = .ok order)
    (hverifies : Verifies (members bundle.deltas) doc run) (hpass : CopiesPass bundle.deltas doc run) :
    ∀ e ∈ bundle.deltas, e.contentHash ∉ doc.logHashes → Admissible deltas root.did e := by
  intro e he hnew
  have hin : e.contentHash ∈ run.map SignedDelta.contentHash := by
    rw [hchoice.hashes, List.mem_filter, Bool.not_eq_true', h.contains_eq_false_iff]
    exact ⟨(mem_order_iff horder _).mpr (List.mem_map_of_mem he), hnew⟩
  obtain ⟨d, hd, hkey⟩ := List.mem_map.mp hin
  obtain ⟨before, after, rfl⟩ := List.append_of_mem hd
  have hbefore := ((verifies_append before doc).mp hverifies).1
  have haccepts := (hpass before d after rfl e he hkey.symm).1
  exact (((h.recordAll hfree (hbefore.mono hbundle)).accepts_iff hfree).mp haccepts).2.1

/-- Assumes: the bundle has the same result in every order, and a choice verifies. Then an order replays
that choice, so that the bundle succeeds; every order does, and every choice verifies. -/
theorem BundleOrderFree.verifies (hfreeOrder : BundleOrderFree doc bundle)
    (hfree : CollisionFree (members bundle.deltas)) (hstructured : Structured doc bundle)
    (horder : topoOrderBundle (Document.indexBundle bundle.deltas) = .ok order)
    (hchoice : Choice doc bundle.deltas order run)
    (hverifies : Verifies (members bundle.deltas) doc run) :
    (∃ count, (doc.mergeVerifiedBundle bundle).2 = .ok count) ∧
      ∀ run, Choice doc bundle.deltas order run → Verifies (members bundle.deltas) doc run := by
  have hspec := fun {others} (hperm : others ~ bundle.deltas) ↦
    mergeVerifiedBundle_perm hfree hstructured horder hperm
  have hsucceeds : ∃ count, (doc.mergeVerifiedBundle bundle).2 = .ok count := by
    obtain ⟨others, hperm, hsubmitted⟩ := hchoice.exists_order horder
    have hresult := (hspec hperm).2.1 (hsubmitted ▸ hverifies)
    rcases hfreeOrder.same others hperm with ⟨_, e, _, herror⟩ | ⟨count, hok, _⟩
    · rw [hresult] at herror
      exact absurd herror (by simp)
    · exact ⟨count, hok⟩
  refine ⟨hsucceeds, fun other hother ↦ ?_⟩
  obtain ⟨count, hok⟩ := hsucceeds
  obtain ⟨others, hperm, hsubmitted⟩ := hother.exists_order horder
  by_contra hnot
  obtain ⟨e, hresult⟩ := (hspec hperm).2.2 (hsubmitted ▸ hnot)
  rcases hfreeOrder.same others hperm with ⟨e', _, herror, _⟩ | ⟨count', _, hok', _⟩
  · rw [hok] at herror
    exact absurd herror (by simp)
  · rw [hresult] at hok'
    exact absurd hok' (by simp)

/-- Where the bundle fails in every order, the order makes no difference. -/
theorem bundleOrderFree_of_fails (h : Coherent deltas root doc) (hfree : CollisionFree deltas)
    (hbundle : members bundle.deltas ⊆ deltas) (hfails : ∀ others, others ~ bundle.deltas → ∃ e,
      (doc.mergeVerifiedBundle ⟨bundle.target, others⟩).2 = .error e) : BundleOrderFree doc bundle := by
  obtain ⟨e, herror⟩ := hfails bundle.deltas (.refl _)
  refine ⟨fun others hperm ↦ ?_, fun others hperm ↦ ?_, fun count hok ↦ ?_⟩
  · obtain ⟨e', herror'⟩ := hfails others hperm
    exact Or.inl ⟨e, e', herror, herror'⟩
  · exact mergeVerifiedBundle_ne_pending h hfree fun e he ↦ hbundle (hperm.mem_iff.mp he)
  · exact absurd (herror.symm.trans hok) (by simp)

/-- Assumes: a choice verifies, the other copies pass, and no payload is starved. Every order records a
choice, and so does every feed. -/
theorem bundleOrderFree_of_choice (h : Coherent deltas root doc) (hfree : CollisionFree deltas)
    (hbundle : members bundle.deltas ⊆ deltas) (hstructured : Structured doc bundle)
    (horder : topoOrderBundle (Document.indexBundle bundle.deltas) = .ok order)
    (hchoice : Choice doc bundle.deltas order run)
    (hverifies : Verifies (members bundle.deltas) doc run) (hpass : CopiesPass bundle.deltas doc run)
    (hstarved : ∀ d ∈ bundle.deltas, ¬ Starved bundle.deltas doc d) : BundleOrderFree doc bundle := by
  have hresult : ∀ others, others ~ bundle.deltas →
      ∃ run', Choice doc bundle.deltas order run' ∧
        doc.mergeVerifiedBundle ⟨bundle.target, others⟩ = (doc.recordAll run', .ok run.length) := by
    intro others hperm
    obtain ⟨hchoice', hsucceeds, _⟩ :=
      mergeVerifiedBundle_perm (hfree.mono hbundle) hstructured horder hperm
    have hsame := hchoice'.hashes.trans hchoice.hashes.symm
    refine ⟨_, hchoice', ?_⟩
    rw [hsucceeds (hpass.verifies hfree hbundle run _ doc doc h h rfl hverifies hchoice'.copies hsame)]
    have hlength := congrArg List.length hsame
    rw [List.length_map, List.length_map] at hlength
    rw [hlength]
  obtain ⟨own, hown, hmerged⟩ := hresult bundle.deltas (.refl _)
  refine ⟨fun others hperm ↦ ?_, fun others hperm ↦ ?_, fun count hok feed hperm hlead ↦ ?_⟩
  · obtain ⟨run', hchoice', hresult'⟩ := hresult others hperm
    refine Or.inr ⟨run.length, congrArg Prod.snd hmerged, congrArg Prod.snd hresult', ?_⟩
    rw [hmerged, hresult']
    ext k
    rw [hown.mem_heldHashes_iff h, hchoice'.mem_heldHashes_iff h]
  · exact mergeVerifiedBundle_ne_pending h hfree fun e he ↦ hbundle (hperm.mem_iff.mp he)
  · have hall := holds_of_not_starved h hfree hbundle horder hstructured.grounded
      (hchoice.admissible h hfree hbundle horder hverifies hpass) hstarved hperm hlead
    rw [hmerged]
    ext k
    rw [hown.mem_heldHashes_iff h]
    constructor
    · intro hk
      refine ((mem_submitAll doc feed).2 k hk).imp_right fun hfed ↦ ?_
      exact (mem_order_iff horder k).mpr ((hperm.map _).mem_iff.mp hfed)
    · rintro (hk | hk)
      · exact (mem_submitAll doc feed).1 k hk
      · obtain ⟨d, hd, rfl⟩ := List.mem_map.mp ((mem_order_iff horder k).mp hk)
        exact hall d hd

end Results

/-- Assumes: the collection holds the creation delta and does not collide. For every document of verified
ingestion and every bundle of deltas of the collection: its order, and feeding it one delta at a time,
make no difference exactly if, whenever one choice of copies verifies in the order found, the other copies
pass in their places and no payload is starved. -/
theorem mergeVerifiedBundle_orderFree_iff (publicKeyMultibase : String) (deltas : Set SignedDelta)
    (hfree : CollisionFree deltas) (hgenesis : Document.genesis publicKeyMultibase ∈ deltas)
    (doc : Document) (hdoc : IngestedWhile (fun _ _ ↦ True) deltas publicKeyMultibase doc)
    (bundle : ClosureBundle) (hbundle : ∀ d ∈ bundle.deltas, d ∈ deltas) :
    BundleOrderFree doc bundle ↔ ∀ order run, Structured doc bundle →
      topoOrderBundle (Document.indexBundle bundle.deltas) = .ok order →
      Choice doc bundle.deltas order run → Verifies (members bundle.deltas) doc run →
      CopiesPass bundle.deltas doc run ∧ ∀ d ∈ bundle.deltas, ¬ Starved bundle.deltas doc d := by
  have h := hdoc.coherent hfree hgenesis
  have hsub : members bundle.deltas ⊆ deltas := hbundle
  have hfree' := hfree.mono hsub
  constructor
  · intro hfreeOrder order run hstructured horder hchoice hverifies
    obtain ⟨⟨count, hok⟩, hall⟩ :=
      hfreeOrder.verifies hfree' hstructured horder hchoice hverifies
    have hpass := hchoice.copiesPass hall
    refine ⟨hpass, fun d hd hstarved ↦ ?_⟩
    obtain ⟨feed, hperm, hlead, e, he, hmissing⟩ := hstarved.exists_feed h hfree hsub horder
      (hchoice.admissible h hfree hsub horder hverifies hpass) hd
    -- the bundle holds every payload of its own
    obtain ⟨hown, hsucceeds, _⟩ := mergeVerifiedBundle_perm hfree' hstructured horder (.refl _)
    have hheld := hfreeOrder.oneByOne count hok feed hperm hlead
    rw [hsucceeds (hall _ hown)] at hheld
    refine hmissing ((Set.ext_iff.mp hheld _).mpr ?_)
    rw [hown.mem_heldHashes_iff h]
    exact Or.inr ((mem_order_iff horder _).mpr (List.mem_map_of_mem he))
  · intro hcondition
    by_cases hvalid : Structured doc bundle ∧
        ∃ order, topoOrderBundle (Document.indexBundle bundle.deltas) = .ok order
    · obtain ⟨hstructured, order, horder⟩ := hvalid
      by_cases hsome : ∃ run, Choice doc bundle.deltas order run ∧
          Verifies (members bundle.deltas) doc run
      · obtain ⟨run, hchoice, hverifies⟩ := hsome
        obtain ⟨hpass, hstarved⟩ := hcondition order run hstructured horder hchoice hverifies
        exact bundleOrderFree_of_choice h hfree hsub hstructured horder hchoice hverifies hpass hstarved
      · refine bundleOrderFree_of_fails h hfree hsub fun others hperm ↦ ?_
        obtain ⟨hchoice, _, hfails⟩ := mergeVerifiedBundle_perm hfree' hstructured horder hperm
        obtain ⟨e, hresult⟩ := hfails fun hverifies ↦ hsome ⟨_, hchoice, hverifies⟩
        exact ⟨e, congrArg Prod.snd hresult⟩
    · refine bundleOrderFree_of_fails h hfree hsub fun others hperm ↦ ?_
      have hnot : ¬ (Structured doc ⟨bundle.target, others⟩ ∧
          ∃ order, topoOrderBundle (Document.indexBundle others) = .ok order) := by
        rw [topoOrderBundle_perm hfree' hperm]
        exact fun ⟨hstructured, horder⟩ ↦ hvalid ⟨hstructured.perm hperm.symm, horder⟩
      obtain ⟨text, hresult⟩ := mergeVerifiedBundle_of_not_structured hnot
      exact ⟨_, congrArg Prod.snd hresult⟩

end

end DidCrdt
