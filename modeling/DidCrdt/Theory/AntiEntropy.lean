import DidCrdt.Core.Recon
import DidCrdt.Theory.History

/-!
# Anti-entropy
-/

set_option autoImplicit false
set_option relaxedAutoImplicit false

namespace DidCrdt

section

variable [Primitives]

/-! ### The answer of a replica -/

section Answer

variable {root : SignedDelta} {log : List SignedDelta}

/-- The heads of a history are the hashes that no delta of it names as a parent. -/
theorem mem_frontier_of_history (hlog : History root log) (h : DeltaHash) :
    h ∈ (DeltaDag.rebuild log).frontierSet ↔
      h ∈ log.map SignedDelta.contentHash ∧ ∀ e ∈ log, h ∉ e.parents := by
  have hexact := DeltaDag.Exact.rebuild log
  rw [hexact.frontier_iff, hexact.referenced_iff, DeltaDag.contains_rebuild, List.mem_map]
  refine and_congr_right fun _ ↦ ?_
  constructor
  · intro hnot e he hp
    exact hnot ⟨e.contentHash, e, (get_of_history hlog _ e).mpr ⟨he, rfl⟩, hp⟩
  · rintro hnot ⟨_, e, hget, hp⟩
    exact hnot e ((get_of_history hlog _ e).mp hget).1 hp

theorem NamesParent.mono {deltas others : Set SignedDelta} (hsub : deltas ⊆ others)
    {h p : DeltaHash} (hnames : NamesParent deltas h p) : NamesParent others h p := by
  obtain ⟨d, hd, hkey, hp⟩ := hnames
  exact ⟨d, hsub hd, hkey, hp⟩

/-- Every hash of a history is reached from a head. The last delta is a head, and takes the place of
the heads it names. -/
theorem exists_head_of_history (hlog : History root log) {h : DeltaHash}
    (hh : h ∈ log.map SignedDelta.contentHash) :
    ∃ head ∈ (DeltaDag.rebuild log).frontierSet,
      Relation.ReflTransGen (NamesParent (members log)) head h := by
  induction hlog with
  | start hroot =>
    refine ⟨h, ?_, .refl⟩
    rw [mem_frontier_of_history (.start hroot)]
    refine ⟨hh, fun e he ↦ ?_⟩
    rw [List.mem_singleton.mp he, hroot]
    exact List.not_mem_nil
  | @snoc log d hlog hgrounded hnew hparents ih =>
    have hnext := History.snoc hlog hgrounded hnew hparents
    have hmono : ∀ a b, NamesParent (members log) a b → NamesParent (members (log ++ [d])) a b :=
      fun a b ↦ NamesParent.mono fun e he ↦ List.mem_append_left _ he
    have hlast : d.contentHash ∈ (DeltaDag.rebuild (log ++ [d])).frontierSet := by
      rw [mem_frontier_of_history hnext]
      refine ⟨by simp, fun e he hp ↦ hnew ?_⟩
      rcases List.mem_append.mp he with he | he
      · exact (mem_hashes_iff log _).mpr (hlog.parentClosed e he _ hp)
      · rw [List.mem_singleton.mp he] at hp
        exact hparents _ hp
    rw [List.map_append, List.mem_append, List.map_singleton, List.mem_singleton] at hh
    rcases hh with hh | rfl
    · obtain ⟨head, hhead, hreach⟩ := ih hh
      have hreach' := Relation.ReflTransGen.mono hmono head h hreach
      by_cases hnamed : head ∈ d.parents
      · exact ⟨_, hlast, .head ⟨d, by simp, rfl, hnamed⟩ hreach'⟩
      · refine ⟨head, ?_, hreach'⟩
        rw [mem_frontier_of_history hlog] at hhead
        rw [mem_frontier_of_history hnext]
        refine ⟨by simp [hhead.1], fun e he ↦ ?_⟩
        rcases List.mem_append.mp he with he | he
        · exact hhead.2 e he
        · rwa [List.mem_singleton.mp he]
    · exact ⟨_, hlast, .refl⟩

/-- A path along parents that meets no stop is followed by the traversal. -/
theorem reaches_of_path (hlog : History root log) {stop : DeltaHash → Prop} {a b : DeltaHash}
    (hpath : Relation.ReflTransGen (NamesParent (members log)) a b)
    (hclear : ∀ x, Relation.ReflTransGen (NamesParent (members log)) x b → ¬ stop x) :
    DepthFirst.Reaches (DeltaDag.rebuild log).successors stop [a] b := by
  induction hpath with
  | refl => exact .root (List.mem_singleton_self a) (hclear a .refl)
  | @tail c b _ hstep ih =>
    have hprev := ih fun x hx ↦ hclear x (hx.tail hstep)
    obtain ⟨d, hd, hkey, hp⟩ := hstep
    refine .step hprev ?_ (hclear b .refl)
    rw [DeltaDag.successors, (get_of_history hlog c d).mpr ⟨hd, hkey⟩]
    exact hp

/-- The answer to a peer: it does not fail, holds deltas of the history only, and holds every hash
of the history that is not in the past of the frontier of the peer. -/
theorem deltasForPeer_of_history (hlog : History root log) (peerFrontier : List DeltaHash) :
    ∃ out, (DeltaDag.rebuild log).deltasForPeer peerFrontier = .ok out ∧
      (∀ d ∈ out, d ∈ log) ∧
      ∀ h ∈ log.map SignedDelta.contentHash, ¬ Past (members log) peerFrontier h →
        h ∈ out.map SignedDelta.contentHash := by
  have hheads : ∀ head, head ∈ (DeltaDag.rebuild log).frontier.filter
      (fun head ↦ !peerFrontier.contains head) ↔
      head ∈ (DeltaDag.rebuild log).frontierSet ∧ head ∉ peerFrontier := by
    intro head
    simp
  obtain ⟨out, hok, hsource, _, hbelow⟩ := (DeltaDag.rebuild log).collectHeads_spec peerFrontier
    ((DeltaDag.rebuild log).frontier.filter fun head ↦ !peerFrontier.contains head)
    (by
      intro head hhead h hh
      rw [DeltaDag.mem_visits_iff] at hh
      have hstart := ((mem_frontier_of_history hlog head).mp ((hheads head).mp hhead).1).1
      have hin : h ∈ log.map SignedDelta.contentHash := by
        refine hh.closed (fun a ha ↦ List.mem_singleton.mp ha ▸ hstart) fun a ha b hb ↦ ?_
        rw [DeltaDag.successors] at hb
        cases hget : (DeltaDag.rebuild log).get a with
        | none => simp [hget] at hb
        | some d =>
          rw [hget] at hb
          exact (mem_hashes_iff log b).mpr
            (hlog.parentClosed d ((get_of_history hlog a d).mp hget).1 b hb)
      rw [DeltaDag.contains_rebuild]
      exact List.mem_map.mp hin) []
  refine ⟨out, hok, fun d hd ↦ ?_, fun h hh hnot ↦ ?_⟩
  · obtain ⟨_, _, h, _, hget⟩ := (hsource d hd).resolve_left List.not_mem_nil
    exact ((get_of_history hlog h d).mp hget).1
  · obtain ⟨head, hhead, hpath⟩ := exists_head_of_history hlog hh
    have hclear : ∀ x, Relation.ReflTransGen (NamesParent (members log)) x h →
        ¬ peerFrontier.contains x = true := by
      intro x hx hstop
      exact hnot ⟨x, by simpa using hstop, hx⟩
    have hvisit : h ∈ (DeltaDag.rebuild log).visits (fun h ↦ peerFrontier.contains h) [head] :=
      (DeltaDag.mem_visits_iff _ _ _ _).mpr (reaches_of_path hlog hpath hclear)
    obtain ⟨d, hd, rfl⟩ := List.mem_map.mp hh
    refine hbelow head ((hheads head).mpr ⟨hhead, fun hmem ↦ ?_⟩) _ hvisit d
      ((get_of_history hlog _ d).mpr ⟨hd, rfl⟩)
    exact hclear head hpath (by simpa using hmem)

end Answer

end

end DidCrdt
