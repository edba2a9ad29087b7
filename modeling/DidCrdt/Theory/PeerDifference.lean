import DidCrdt.Theory.Frontier

/-!
# The difference to a peer

A peer that holds a closed part of a history advertises the heads of that part, and is answered with
what lies below the heads of the history, cut off at the heads of the part. Everything outside the part
is in the answer. A delta of the part is in it as well when the answer reaches it around the heads of
the part, through a delta outside that names a hash of the part (`exists_around`). So the answer is the
difference when every hash named so is a head of the part, and only then (`deltasForPeer_exact_iff`); a
concurrent branch below the heads of the peer is enough to break it (`deltasForPeer_repeats_root`).
-/

set_option autoImplicit false
set_option relaxedAutoImplicit false

namespace DidCrdt

open Reconciliation (Acyclic)
open DepthFirst (Reaches)

namespace DeltaDag

/-- The hashes are held, and with a hash they have the parents of its delta. -/
structure ClosedPart (g : DeltaDag) (part : Set DeltaHash) : Prop where
  held : ∀ h ∈ part, g.contains h = true
  closed : ∀ h ∈ part, ∀ p ∈ g.successors h, p ∈ part

/-- The list has the hashes of the part that no hash of the part names. -/
def HeadsOf (g : DeltaDag) (part : Set DeltaHash) (heads : List DeltaHash) : Prop :=
  ∀ h, h ∈ heads ↔ h ∈ part ∧ ∀ other ∈ part, h ∉ g.successors other

/-- The answer has every held delta outside the part once, nothing of the part, and so as many deltas
as are held outside it. -/
def AnswersExactly [Primitives] (g : DeltaDag) (part : Set DeltaHash)
    (answer : Except Error (List SignedDelta)) : Prop :=
  ∃ out, answer = .ok out ∧ (out.map SignedDelta.contentHash).Nodup ∧
    (∀ d ∈ out, g.get d.contentHash = some d) ∧
    (∀ h, h ∈ out.map SignedDelta.contentHash ↔ g.contains h = true ∧ h ∉ part) ∧
    out.length = {h | g.contains h = true ∧ h ∉ part}.ncard

section Part

variable {g : DeltaDag} {part : Set DeltaHash} {heads : List DeltaHash} {a h p : DeltaHash}

/-- A path that ends outside the part never enters it, so no head of the part cuts it off. -/
theorem ClosedPart.reaches (hpart : g.ClosedPart part) (hheads : g.HeadsOf part heads)
    (habove : g.Above a h) (hnot : h ∉ part) :
    Reaches g.successors (fun x ↦ heads.contains x = true) [a] h := by
  have hclear : ∀ x, x ∉ part → ¬ heads.contains x = true := fun x hx hstop ↦
    hx ((hheads x).mp (List.contains_iff_mem.mp hstop)).1
  induction habove with
  | refl => exact .root (List.mem_singleton_self a) (hclear a hnot)
  | @tail b c _ hstep ih =>
    have hprev : b ∉ part := fun hb ↦ hnot (hpart.closed b hb c hstep)
    exact .step (ih hprev) hstep (hclear c hnot)

theorem ClosedPart.of_forall {l : List DeltaHash} (hheld : ∀ h ∈ l, g.contains h = true)
    (hclosed : ∀ h ∈ l, ∀ p ∈ g.successors h, p ∈ l) : g.ClosedPart {h | h ∈ l} :=
  ⟨hheld, hclosed⟩

/-- The heads of a listed part. -/
theorem headsOf_filter (g : DeltaDag) (l : List DeltaHash) :
    g.HeadsOf {h | h ∈ l} (l.filter fun h ↦ l.all fun other ↦ h ∉ g.successors other) := by
  intro h
  simp

variable [Primitives]

/-- What is reached of the part below a head of the history is reached through a delta outside that
names a hash of the part which is no head of it. -/
theorem exists_around (hg : Exact g)
    (hheads : g.HeadsOf part heads) {head : DeltaHash} (hhead : head ∈ g.frontierSet)
    (hreach : Reaches g.successors (fun x ↦ heads.contains x = true) [head] h) (hin : h ∈ part) :
    ∃ x, g.contains x = true ∧ x ∉ part ∧ ∃ p ∈ g.successors x, p ∈ part ∧ p ∉ heads := by
  induction hreach with
  | root hroot hstop =>
    -- a head of the history that lies in the part is a head of the part
    rw [List.mem_singleton.mp hroot] at hin hstop
    refine absurd (List.contains_iff_mem.mpr ((hheads head).mpr ⟨hin, fun other _ hp ↦ ?_⟩)) hstop
    obtain ⟨d, hget, hp⟩ := mem_successors_iff.mp hp
    exact ((hg.mem_frontierSet_iff head).mp hhead).2 other d hget hp
  | @step x p _ hp hstop ih =>
    by_cases hx : x ∈ part
    · exact ih hx
    · exact ⟨x, contains_of_mem_successors hp, hx, p, hp, hin, fun hmem ↦
        hstop (List.contains_iff_mem.mpr hmem)⟩

/-- Assumes: the parents of held deltas are held. The answer to a frontier does not fail, repeats
nothing, and has what the heads reach around the frontier. -/
theorem deltasForPeer_spec (hg : Exact g) (hheld : ParentsHeld g) (stop : List DeltaHash) :
    ∃ out, g.deltasForPeer stop = .ok out ∧ (out.map SignedDelta.contentHash).Nodup ∧
      (∀ d ∈ out, g.get d.contentHash = some d) ∧
      ∀ h, h ∈ out.map SignedDelta.contentHash ↔ ∃ head ∈ g.frontierSet,
        Reaches g.successors (fun x ↦ stop.contains x = true) [head] h := by
  have hstart : ∀ head, head ∈ g.frontier.filter (fun head ↦ !stop.contains head) ↔
      head ∈ g.frontierSet ∧ head ∉ stop := by
    intro head
    simp
  have hvisited : ∀ head ∈ g.frontier.filter (fun head ↦ !stop.contains head),
      ∀ a ∈ g.visits (fun h ↦ stop.contains h) [head], g.contains a = true := fun head hhead a ha ↦
    contains_of_mem_visits hheld ((hg.frontier_iff head).mp ((hstart head).mp hhead).1).1 ha
  obtain ⟨out, hok, hsource, _, hbelow⟩ := g.collectHeads_spec stop _ hvisited []
  have hget : ∀ d ∈ out, ∃ head ∈ g.frontierSet, g.get d.contentHash = some d ∧
      d.contentHash ∈ g.visits (fun h ↦ stop.contains h) [head] := by
    intro d hd
    obtain ⟨head, hhead, a, ha, hget⟩ := (hsource d hd).resolve_left List.not_mem_nil
    rw [hg.keyed a d hget]
    exact ⟨head, ((hstart head).mp hhead).1, hget, ha⟩
  refine ⟨out, hok, nodup_collectHeads _ _ _ [] out List.nodup_nil hok, fun d hd ↦ ?_, fun h ↦ ?_⟩
  · obtain ⟨_, _, hget, _⟩ := hget d hd
    exact hget
  · constructor
    · rintro hh
      obtain ⟨d, hd, rfl⟩ := List.mem_map.mp hh
      obtain ⟨head, hhead, _, hvisit⟩ := hget d hd
      exact ⟨head, hhead, (g.mem_visits_iff _ _ _).mp hvisit⟩
    · rintro ⟨head, hhead, hreach⟩
      obtain ⟨root, hroot, hclear⟩ := hreach.exists_root
      rw [List.mem_singleton.mp hroot, List.contains_iff_mem] at hclear
      have hmem := (hstart head).mpr ⟨hhead, hclear⟩
      have hvisit := (g.mem_visits_iff _ _ h).mpr hreach
      obtain ⟨d, hfound⟩ := (g.contains_iff h).mp (hvisited head hmem h hvisit)
      rw [← hg.keyed h d hfound]
      exact hbelow head hmem h hvisit d hfound

end Part

/-- Assumes: the parents of held deltas are held, no delta is among its own ancestors (as for honest
content hashes), and the peer holds a closed part of the history and advertises its heads. The answer
does not fail, repeats nothing, and has every held delta outside the part. It has exactly these if and
only if the held deltas outside the part name no hash of the part but its heads. -/
theorem deltasForPeer_exact_iff [Primitives] (log : List SignedDelta)
    (hheld : ParentsHeld (.rebuild log)) (hacyclic : Acyclic (NamesParent (members log)))
    {part : Set DeltaHash} (hpart : (rebuild log).ClosedPart part) {peerFrontier : List DeltaHash}
    (hheads : (rebuild log).HeadsOf part peerFrontier) :
    let g := rebuild log
    (∃ out, g.deltasForPeer peerFrontier = .ok out ∧ (out.map SignedDelta.contentHash).Nodup ∧
      ∀ h, g.contains h = true → h ∉ part → h ∈ out.map SignedDelta.contentHash) ∧
    (g.AnswersExactly part (g.deltasForPeer peerFrontier) ↔
      ∀ h, g.contains h = true → h ∉ part → ∀ p ∈ g.successors h, p ∈ part → p ∈ peerFrontier) := by
  intro g
  have hexact : Exact g := .rebuild log
  have hwithin : Within (members log) g := .rebuild fun d hd ↦ hd
  obtain ⟨out, hok, hnodup, hget, hmem⟩ := deltasForPeer_spec hexact hheld peerFrontier
  have houtside : ∀ h, g.contains h = true → h ∉ part → h ∈ out.map SignedDelta.contentHash := by
    intro h hh hnot
    obtain ⟨head, hhead, habove⟩ := hexact.exists_head_above (hwithin.acyclic hacyclic) hh
    exact (hmem h).mpr ⟨head, hhead, hpart.reaches hheads habove hnot⟩
  refine ⟨⟨out, hok, hnodup, houtside⟩, ?_, fun hcut ↦ ⟨out, hok, hnodup, hget, ?_⟩⟩
  · rintro ⟨out', hok', _, _, hmem', _⟩ h hh hnot p hp hin
    rw [hok] at hok'
    obtain rfl := Except.ok.inj hok'
    by_contra haround
    -- the answer goes on from the delta outside to the hash of the part
    obtain ⟨head, hhead, hreach⟩ := (hmem h).mp (houtside h hh hnot)
    have hstep := hreach.step hp fun hstop ↦ haround (List.contains_iff_mem.mp hstop)
    exact ((hmem' p).mp ((hmem p).mpr ⟨head, hhead, hstep⟩)).2 hin
  · have hiff : ∀ h, h ∈ out.map SignedDelta.contentHash ↔ g.contains h = true ∧ h ∉ part := by
      refine fun h ↦ ⟨fun hh ↦ ⟨?_, fun hin ↦ ?_⟩, fun hh ↦ houtside h hh.1 hh.2⟩
      · obtain ⟨d, hd, rfl⟩ := List.mem_map.mp hh
        exact (g.contains_iff _).mpr ⟨d, hget d hd⟩
      · obtain ⟨head, hhead, hreach⟩ := (hmem h).mp hh
        obtain ⟨x, hx, hnot, p, hp, hin, hheadless⟩ := exists_around hexact hheads hhead hreach hin
        exact hheadless (hcut x hx hnot p hp hin)
    have hset : {h | g.contains h = true ∧ h ∉ part} =
        ((out.map SignedDelta.contentHash).toFinset : Set DeltaHash) := by
      ext h
      rw [Set.mem_ofPred_eq, ← hiff, Finset.mem_coe, List.mem_toFinset]
    refine ⟨hiff, ?_⟩
    rw [hset, Set.ncard_coe_finset, List.toFinset_card_of_nodup hnodup, List.length_map]

section Readable

attribute [local instance] Primitives.readable

/-- The hashes of the shared deltas. -/
def sharedHashes : List DeltaHash := [⟨"1.0.55"⟩, ⟨"2.0.55"⟩]

/-- A peer that lacks one delta above its head gets that delta alone. -/
theorem deltasForPeer_exact_iff_chain :
    (rebuild (sharedLog ++ [furtherDelta "2.0.55"])).AnswersExactly {h | h ∈ sharedHashes}
      ((rebuild (sharedLog ++ [furtherDelta "2.0.55"])).deltasForPeer [⟨"2.0.55"⟩]) := by
  have hcut : ∀ d ∈ sharedLog ++ [furtherDelta "2.0.55"], d.contentHash ∉ sharedHashes →
      ∀ p ∈ (rebuild (sharedLog ++ [furtherDelta "2.0.55"])).successors d.contentHash,
        p ∈ sharedHashes → p ∈ [DeltaHash.mk "2.0.55"] := by decide
  refine (deltasForPeer_exact_iff (sharedLog ++ [furtherDelta "2.0.55"]) (.of_forall (by decide))
    (acyclic_of_listed [⟨"1.0.55"⟩, ⟨"2.0.55"⟩, ⟨"3.0.55"⟩] (by decide))
    (ClosedPart.of_forall (by decide) (by decide)) (headsOf_filter _ sharedHashes)).2.mpr ?_
  intro h hh hnot
  obtain ⟨d, hd, rfl⟩ := (contains_rebuild _ h).mp hh
  exact hcut d hd hnot

/-- A peer that lacks one delta concurrent to its head gets the creation delta with it. -/
theorem deltasForPeer_repeats_root :
    let g := rebuild (sharedLog ++ [furtherDelta "1.0.55"])
    ParentsHeld g ∧ Acyclic (NamesParent (members (sharedLog ++ [furtherDelta "1.0.55"]))) ∧
      g.ClosedPart {h | h ∈ sharedHashes} ∧ g.HeadsOf {h | h ∈ sharedHashes} [⟨"2.0.55"⟩] ∧
      ((g.deltasForPeer [⟨"2.0.55"⟩]).map fun out ↦ out.map SignedDelta.contentHash) =
        .ok [⟨"3.0.55"⟩, ⟨"1.0.55"⟩] ∧
      ¬ g.AnswersExactly {h | h ∈ sharedHashes} (g.deltasForPeer [⟨"2.0.55"⟩]) := by
  intro g
  have hanswer : ((g.deltasForPeer [⟨"2.0.55"⟩]).map fun out ↦ out.map SignedDelta.contentHash) =
      .ok [⟨"3.0.55"⟩, ⟨"1.0.55"⟩] := by decide
  refine ⟨.of_forall (by decide),
    acyclic_of_listed [⟨"1.0.55"⟩, ⟨"2.0.55"⟩, ⟨"3.0.55"⟩] (by decide),
    .of_forall (by decide) (by decide), headsOf_filter _ sharedHashes, hanswer, ?_⟩
  rintro ⟨out, hok, _, _, hmem, _⟩
  rw [hok] at hanswer
  have hhashes : out.map SignedDelta.contentHash = [⟨"3.0.55"⟩, ⟨"1.0.55"⟩] := Except.ok.inj hanswer
  have hroot := (hmem ⟨"1.0.55"⟩).mp (by simp [hhashes])
  exact hroot.2 (by simp [sharedHashes])

end Readable

end DeltaDag

end DidCrdt
