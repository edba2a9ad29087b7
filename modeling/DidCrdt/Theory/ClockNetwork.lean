import DidCrdt.Library.CausalOrder
import DidCrdt.Theory.Clock

/-!
# Clocks that hear of one another

Nodes send and receive under their own clocks. A node receives the timestamp that an earlier event of the
network was given, or one that was made up outside. Whatever the wall clocks read, and however often a counter
wraps around, the wall time of a timestamp is the greatest one in the past of its event: of the readings, of
the seeds and of what came from outside (`ClockNetwork.wallMs_isGreatest`). As long as the events are too few
to count up to the greatest counter, no call panics, an event that happens before another has the smaller
timestamp, and nodes with different identifiers never give out one timestamp twice
(`ClockNetwork.run_respects_causality`).
-/

set_option autoImplicit false
set_option relaxedAutoImplicit false

namespace DidCrdt

open CausalOrder

/-- Where a remote timestamp comes from: an earlier event, or outside of the network. -/
inductive TimestampOrigin
  | event (i : ℕ)
  | outside (t : HlcTimestamp)
deriving DecidableEq, Repr

/-- A call at a node, with what its wall clock reads. Without an origin it sends. -/
structure ClockEvent (N : Type) where
  node : N
  origin : Option TimestampOrigin
  nowMs : U64

namespace ClockEvent

variable {N : Type}

/-- The event that a call hears of. -/
def heard (e : ClockEvent N) : Option ℕ :=
  e.origin.bind fun
    | .event i => some i
    | .outside _ => none

/-- The timestamp that a call is given from outside. -/
def outside (e : ClockEvent N) : Option HlcTimestamp :=
  e.origin.bind fun
    | .event _ => none
    | .outside t => some t

/-- The call of an event, once the timestamps of the earlier events are known. -/
def call (issued : List HlcTimestamp) (e : ClockEvent N) : Option Hlc.Call :=
  match e.origin with
  | none => some (.send e.nowMs)
  | some (.event i) => issued[i]?.map fun t ↦ .recv t e.nowMs
  | some (.outside t) => some (.recv t e.nowMs)

theorem nowMs_of_call {issued : List HlcTimestamp} {e : ClockEvent N} {c : Hlc.Call}
    (h : e.call issued = some c) : c.nowMs = e.nowMs := by
  unfold call at h
  split at h
  · rw [← Option.some.inj h]
    rfl
  · obtain ⟨t, -, rfl⟩ := Option.map_eq_some_iff.mp h
    rfl
  · rw [← Option.some.inj h]
    rfl

/-- The remote timestamp of a call is the one of the event that it hears of, or comes from outside. -/
theorem remote_of_call {issued : List HlcTimestamp} {e : ClockEvent N} {c : Hlc.Call}
    (h : e.call issued = some c) (t : HlcTimestamp) :
    c.remote = some t ↔ (∃ i, e.heard = some i ∧ issued[i]? = some t) ∨ e.outside = some t := by
  unfold call at h
  unfold heard outside
  split at h
  · rename_i horigin
    rw [← Option.some.inj h]
    simp [horigin, Hlc.Call.remote]
  · rename_i i horigin
    obtain ⟨u, hu, rfl⟩ := Option.map_eq_some_iff.mp h
    simp [horigin, Hlc.Call.remote, hu]
  · rename_i u horigin
    rw [← Option.some.inj h]
    simp [horigin, Hlc.Call.remote]

/-- A call can be made once the event that it hears of has a timestamp. -/
theorem exists_call {issued : List HlcTimestamp} {e : ClockEvent N}
    (h : ∀ i, e.heard = some i → i < issued.length) : ∃ c, e.call issued = some c := by
  unfold call
  split
  · exact ⟨_, rfl⟩
  · rename_i i horigin
    have hi : i < issued.length := h i (by simp [heard, horigin])
    exact ⟨_, by rw [List.getElem?_eq_getElem hi]; rfl⟩
  · exact ⟨_, rfl⟩

end ClockEvent

/-- The clocks of the nodes, and the timestamps of the events so far. -/
structure ClockNetwork (N : Type) where
  clocks : N → Hlc
  issued : List HlcTimestamp

namespace ClockNetwork

variable {N : Type}

/-- The timestamp of an event. -/
def stamp (net : ClockNetwork N) (i : ℕ) : HlcTimestamp := net.issued.getD i .default

/-- The events of the network in their causal order. -/
abbrev Direct (events : List (ClockEvent N)) : ℕ → ℕ → Prop :=
  CausalOrder.Direct ClockEvent.node ClockEvent.heard events

/-- The wall times that an event is given: what its clock reads, what the clock was seeded with, and what comes
from outside. -/
def wallInputs (seed : N → Hlc) (events : List (ClockEvent N)) (j : ℕ) : Set U64 :=
  {wall | ∃ e, events[j]? = some e ∧ (wall = e.nowMs ∨ wall = (seed e.node).last.wallMs ∨
    ∃ t, e.outside = some t ∧ wall = t.wallMs)}

variable [DecidableEq N]

/-- The network after an event, unless its call panics or hears of an event that is yet to come. -/
def step (arith : Arithmetic) (net : ClockNetwork N) (e : ClockEvent N) : Option (ClockNetwork N) :=
  (e.call net.issued).bind fun c ↦ ((net.clocks e.node).call arith c).map fun r ↦
    ⟨Function.update net.clocks e.node r.2, net.issued ++ [r.1]⟩

/-- The network after the events, from seeded clocks. -/
def run (arith : Arithmetic) (seed : N → Hlc) (events : List (ClockEvent N)) : Option (ClockNetwork N) :=
  events.foldlM (step arith) ⟨seed, []⟩

/-- A run is followed by one more event. -/
theorem run_concat (arith : Arithmetic) (seed : N → Hlc) (events : List (ClockEvent N))
    (e : ClockEvent N) :
    run arith seed (events ++ [e]) = (run arith seed events).bind fun net ↦ net.step arith e := by
  rw [run, List.foldlM_append, run]
  cases List.foldlM (step arith) ⟨seed, []⟩ events with
  | none => rfl
  | some net => cases hstep : net.step arith e <;> simp [hstep]

/-! ### What a run leaves in the clocks -/

/-- Every event has a timestamp, and every clock holds its seed or the timestamp of its latest event. -/
structure Traced (seed : N → Hlc) (events : List (ClockEvent N)) (net : ClockNetwork N) : Prop where
  length : net.issued.length = events.length
  last : ∀ i, (net.clocks i = seed i ∧ ∀ e ∈ events, e.node ≠ i) ∨
    ∃ k e, events[k]? = some e ∧ e.node = i ∧ (net.clocks i).last = net.stamp k ∧
      ∀ k' e', events[k']? = some e' → e'.node = i → k' ≤ k

variable {seed : N → Hlc} {events : List (ClockEvent N)} {net next : ClockNetwork N} {e : ClockEvent N}
  {c : Hlc.Call} {t : HlcTimestamp}

/-- The network after a timestamp was given out at a node. -/
def issue (net : ClockNetwork N) (node : N) (t : HlcTimestamp) : ClockNetwork N :=
  ⟨Function.update net.clocks node ⟨t⟩, net.issued ++ [t]⟩

theorem stamp_issue_of_lt (node : N) {i : ℕ} (hi : i < net.issued.length) :
    (net.issue node t).stamp i = net.stamp i := by
  rw [stamp, stamp, issue, List.getD_append _ _ _ _ hi]

theorem stamp_issue_length (node : N) : (net.issue node t).stamp net.issued.length = t := by
  simp [stamp, issue]

/-- A step gives out the timestamp of a call. -/
theorem step_cases {arith : Arithmetic} (h : net.step arith e = some next) :
    ∃ c t, e.call net.issued = some c ∧ (net.clocks e.node).call arith c = some (t, ⟨t⟩) ∧
      next = net.issue e.node t := by
  obtain ⟨c, hc, hmap⟩ := Option.bind_eq_some_iff.mp h
  obtain ⟨⟨t, after⟩, hcall, rfl⟩ := Option.map_eq_some_iff.mp hmap
  obtain ⟨wall, counter, -, hcases⟩ := Hlc.call_cases (net.clocks e.node) c
  obtain ⟨logical, -, hissue⟩ := Option.map_eq_some_iff.mp ((hcases arith).symm.trans hcall)
  obtain ⟨rfl, rfl⟩ := Prod.mk.inj hissue
  exact ⟨c, _, hc, hcall, rfl⟩

theorem Traced.issue (h : Traced seed events net) (t : HlcTimestamp) :
    Traced seed (events ++ [e]) (net.issue e.node t) where
  length := by simp [ClockNetwork.issue, h.length]
  last := by
    intro i
    by_cases hi : i = e.node
    · subst hi
      refine Or.inr ⟨events.length, e, List.getElem?_concat_length, rfl, ?_, fun k e' hk _ ↦ ?_⟩
      · rw [← h.length, stamp_issue_length]
        simp [ClockNetwork.issue]
      · have hlt := (List.getElem?_eq_some_iff.mp hk).1
        rw [List.length_append, List.length_singleton] at hlt
        exact Nat.lt_succ_iff.mp hlt
    · have hclock : (net.issue e.node t).clocks i = net.clocks i := Function.update_of_ne hi ..
      rw [hclock]
      rcases h.last i with ⟨hseed, hnone⟩ | ⟨k, e', hk, hnode, hlast, hlatest⟩
      · refine Or.inl ⟨hseed, fun e' he' ↦ ?_⟩
        rcases List.mem_append.mp he' with hold | hnew
        · exact hnone e' hold
        · rw [List.mem_singleton.mp hnew]
          exact fun heq ↦ hi heq.symm
      · have hlt := (List.getElem?_eq_some_iff.mp hk).1
        refine Or.inr ⟨k, e', ?_, hnode, ?_, fun k' e'' hk' hnode' ↦ ?_⟩
        · rwa [List.getElem?_append_left hlt]
        · rwa [stamp_issue_of_lt _ (h.length.symm ▸ hlt)]
        · rcases Nat.lt_or_ge k' events.length with hold | hnew
          · exact hlatest k' e'' (by rwa [List.getElem?_append_left hold] at hk') hnode'
          · obtain rfl : k' = events.length := by
              have := (List.getElem?_eq_some_iff.mp hk').1
              rw [List.length_append, List.length_singleton] at this
              omega
            rw [List.getElem?_concat_length] at hk'
            obtain rfl : e = e'' := Option.some.inj hk'
            exact absurd hnode'.symm hi

omit [DecidableEq N] in
/-- What a call has to exceed is the seed of its clock, came from outside, or is the timestamp of an event
one step before. -/
theorem Traced.bounds_cases (h : Traced seed events net) (hc : e.call net.issued = some c)
    {b : HlcTimestamp} (hb : b ∈ Hlc.bounds (net.clocks e.node).last c) :
    b = (seed e.node).last ∨ e.outside = some b ∨
      ∃ k, Direct (events ++ [e]) k events.length ∧ k < events.length ∧ b = net.stamp k := by
  rcases List.mem_cons.mp hb with rfl | hremote
  · rcases h.last e.node with ⟨hseed, -⟩ | ⟨k, d, hk, hnode, hlast, -⟩
    · exact Or.inl (by rw [hseed])
    · have hlt := (List.getElem?_eq_some_iff.mp hk).1
      refine Or.inr (Or.inr ⟨k, ⟨hlt, e, List.getElem?_concat_length, Or.inr ⟨d, ?_, hnode⟩⟩, hlt, hlast⟩)
      rwa [List.getElem?_append_left hlt]
  · rcases (ClockEvent.remote_of_call hc b).mp (Option.mem_toList.mp hremote) with
      ⟨k, hheard, hk⟩ | houtside
    · have hlt := (List.getElem?_eq_some_iff.mp hk).1
      rw [h.length] at hlt
      refine Or.inr (Or.inr ⟨k, ⟨hlt, e, List.getElem?_concat_length, Or.inl hheard⟩, hlt, ?_⟩)
      rw [stamp, List.getD_eq_getElem?_getD, hk]
      rfl
    · exact Or.inr (Or.inl houtside)

omit [DecidableEq N] in
/-- An event one step before the new one is at most what the call has to exceed, in any order in which single
steps do not fall. -/
theorem Traced.exists_bound (h : Traced seed events net) (hc : e.call net.issued = some c)
    {T : Type} [Preorder T] (value : HlcTimestamp → T)
    (hstep : ∀ i j, Direct events i j → value (net.stamp i) ≤ value (net.stamp j)) {i : ℕ}
    (hi : i < events.length)
    (hdirect : e.heard = some i ∨ ∃ d, events[i]? = some d ∧ d.node = e.node) :
    ∃ b ∈ Hlc.bounds (net.clocks e.node).last c, value (net.stamp i) ≤ value b := by
  have hstamp : net.issued[i]? = some (net.stamp i) := by
    have hlt : i < net.issued.length := h.length.symm ▸ hi
    rw [stamp, List.getD_eq_getElem?_getD, List.getElem?_eq_getElem hlt]
    rfl
  rcases hdirect with hheard | ⟨d, hd, hnode⟩
  · refine ⟨net.stamp i, List.mem_cons_of_mem _ (Option.mem_toList.mpr ?_), le_rfl⟩
    exact (ClockEvent.remote_of_call hc _).mpr (Or.inl ⟨i, hheard, hstamp⟩)
  · refine ⟨_, List.mem_cons_self, ?_⟩
    rcases h.last e.node with ⟨-, hnone⟩ | ⟨k, e', hk, hnode', hlast, hlatest⟩
    · exact absurd hnode (hnone d (List.mem_of_getElem? hd))
    · rw [hlast]
      rcases (hlatest i d hd hnode).lt_or_eq with hlt | rfl
      · exact hstep i k ⟨hlt, e', hk, Or.inr ⟨d, hd, hnode.trans hnode'.symm⟩⟩
      · exact le_rfl

/-! ### Wall times -/

/-- The wall times so far are at least what their events were given and those one step before, and are taken
from these. -/
structure WallTraced (seed : N → Hlc) (events : List (ClockEvent N)) (net : ClockNetwork N) : Prop
    extends Traced seed events net where
  input : ∀ j < events.length, ∀ wall ∈ wallInputs seed events j, wall ≤ (net.stamp j).wallMs
  steps : ∀ i j, Direct events i j → (net.stamp i).wallMs ≤ (net.stamp j).wallMs
  taken : ∀ j < events.length, (net.stamp j).wallMs ∈ wallInputs seed events j ∨
    ∃ i, Direct events i j ∧ (net.stamp j).wallMs = (net.stamp i).wallMs

omit [DecidableEq N] in
/-- An event is given the same wall times in an extended run. -/
theorem wallInputs_concat {j : ℕ} (hj : j < events.length) :
    wallInputs seed (events ++ [e]) j = wallInputs seed events j := by
  simp only [wallInputs, List.getElem?_append_left hj]

omit [DecidableEq N] in
theorem mem_wallInputs_last {wall : U64} :
    wall ∈ wallInputs seed (events ++ [e]) events.length ↔ wall = e.nowMs ∨
      wall = (seed e.node).last.wallMs ∨ ∃ t, e.outside = some t ∧ wall = t.wallMs := by
  simp [wallInputs]

omit [DecidableEq N] in
/-- The seed of a clock is not above it. -/
theorem WallTraced.seed_le (h : WallTraced seed events net) (i : N) :
    (seed i).last.wallMs ≤ (net.clocks i).last.wallMs := by
  rcases h.last i with ⟨hseed, -⟩ | ⟨k, e, hk, rfl, hlast, -⟩
  · rw [hseed]
  · rw [hlast]
    exact h.input k (List.getElem?_eq_some_iff.mp hk).1 _ ⟨e, hk, Or.inr (Or.inl rfl)⟩

theorem WallTraced.step {arith : Arithmetic} (h : WallTraced seed events net)
    (hstep : net.step arith e = some next) : WallTraced seed (events ++ [e]) next := by
  obtain ⟨c, t, hc, hcall, rfl⟩ := step_cases hstep
  obtain ⟨wall, counter, hadvance, hcases⟩ := Hlc.call_cases (net.clocks e.node) c
  obtain ⟨logical, -, hissue⟩ := Option.map_eq_some_iff.mp ((hcases arith).symm.trans hcall)
  obtain ⟨rfl, -⟩ := Prod.mk.inj hissue
  have hnow := hadvance.now_le
  have hwall := hadvance.wall_le
  have heq := hadvance.wall_eq
  clear hissue hcases hadvance hcall
  set t : HlcTimestamp := ⟨wall, logical, (net.clocks e.node).last.nodeId⟩
  have hold : ∀ i < events.length, (net.issue e.node t).stamp i = net.stamp i :=
    fun i hi ↦ stamp_issue_of_lt _ (h.length.symm ▸ hi)
  have hnew : (net.issue e.node t).stamp events.length = t := by rw [← h.length, stamp_issue_length]
  have hlast : ∀ {j}, j < (events ++ [e]).length → j < events.length ∨ j = events.length := by
    intro j hj
    rw [List.length_append, List.length_singleton] at hj
    exact Nat.lt_succ_iff_lt_or_eq.mp hj
  refine ⟨h.toTraced.issue t, fun j hj w hw ↦ ?_, fun i j hdirect ↦ ?_, fun j hj ↦ ?_⟩
  · rcases hlast hj with hj | rfl
    · rw [hold j hj]
      exact h.input j hj w (wallInputs_concat hj ▸ hw)
    · rw [hnew]
      rcases mem_wallInputs_last.mp hw with rfl | rfl | ⟨u, hu, rfl⟩
      · exact (ClockEvent.nowMs_of_call hc).symm.trans_le hnow
      · exact (h.seed_le e.node).trans (hwall _ List.mem_cons_self)
      · refine hwall u (List.mem_cons_of_mem _ (Option.mem_toList.mpr ?_))
        exact (ClockEvent.remote_of_call hc u).mpr (Or.inr hu)
  · rcases direct_concat hdirect with ⟨rfl, hdirect'⟩ | hdirect'
    · rw [hnew, hold i hdirect.1]
      obtain ⟨b, hb, hle⟩ := h.exists_bound hc HlcTimestamp.wallMs h.steps hdirect.1 hdirect'
      exact hle.trans (hwall b hb)
    · have hj := (List.getElem?_eq_some_iff.mp hdirect'.2.choose_spec.1).1
      rw [hold j hj, hold i (hdirect'.1.trans hj)]
      exact h.steps i j hdirect'
  · rcases hlast hj with hj | rfl
    · rw [hold j hj, wallInputs_concat hj]
      refine (h.taken j hj).imp_right fun ⟨i, hdirect, hi⟩ ↦ ⟨i, ?_, ?_⟩
      · exact direct_mono hdirect
      · rw [hi, hold i (hdirect.1.trans hj)]
    · rw [hnew, mem_wallInputs_last]
      rcases heq with hnow' | ⟨b, hb, hwall'⟩
      · exact Or.inl (Or.inl (hnow'.trans (ClockEvent.nowMs_of_call hc)))
      · rcases h.bounds_cases hc hb with rfl | houtside | ⟨k, hdirect, hk, rfl⟩
        · exact Or.inl (Or.inr (Or.inl hwall'.symm))
        · exact Or.inl (Or.inr (Or.inr ⟨b, houtside, hwall'.symm⟩))
        · exact Or.inr ⟨k, hdirect, by rw [hold k hk]; exact hwall'.symm⟩

theorem wallTraced_of_run {arith : Arithmetic} (hrun : run arith seed events = some net) :
    WallTraced seed events net := by
  induction events using List.reverseRecOn generalizing net with
  | nil =>
    obtain rfl : (⟨seed, []⟩ : ClockNetwork N) = net := Option.some.inj hrun
    refine ⟨⟨rfl, fun i ↦ Or.inl ⟨rfl, fun e he ↦ absurd he List.not_mem_nil⟩⟩, ?_, ?_, ?_⟩
    · exact fun j hj ↦ absurd hj (Nat.not_lt_zero j)
    · rintro i j ⟨-, e, he, -⟩
      simp at he
    · exact fun j hj ↦ absurd hj (Nat.not_lt_zero j)
  | append_singleton events e ih =>
    rw [run_concat] at hrun
    obtain ⟨before, hbefore, hstep⟩ := Option.bind_eq_some_iff.mp hrun
    exact (ih hbefore).step hstep

/-- The wall time of a timestamp is the greatest wall time in the past of its event: of what the clocks there
read, what they were seeded with, and what came from outside. -/
theorem wallMs_isGreatest {arith : Arithmetic} (hrun : run arith seed events = some net) {j : ℕ}
    (hj : j < events.length) :
    IsGreatest (⋃ i ∈ past ClockEvent.node ClockEvent.heard events j, wallInputs seed events i)
      (net.stamp j).wallMs := by
  have h := wallTraced_of_run hrun
  exact isGreatest_past h.input (fun i j _ ↦ h.steps i j) h.taken j hj

/-- A clock that runs ahead of its node: what it hears of was read elsewhere. -/
theorem wallMs_isGreatest_heard :
    ∃ net : ClockNetwork Bool, (net.stamp 1).wallMs = 9 ∧
      IsGreatest (⋃ i ∈ past ClockEvent.node ClockEvent.heard
        [⟨false, none, 9⟩, ⟨true, some (.event 0), 3⟩] 1,
        wallInputs (fun _ ↦ .new 0 0) [⟨false, none, 9⟩, ⟨true, some (.event 0), 3⟩] i)
        (net.stamp 1).wallMs := by
  have hrun : run .checked (fun _ ↦ .new 0 0) [⟨false, none, 9⟩, ⟨true, some (.event 0), 3⟩] =
      some ⟨Function.update (Function.update (fun _ ↦ .new 0 0) false ⟨⟨9, 0, 0⟩⟩) true ⟨⟨9, 1, 0⟩⟩,
        [⟨9, 0, 0⟩, ⟨9, 1, 0⟩]⟩ := rfl
  exact ⟨_, rfl, wallMs_isGreatest hrun (by decide)⟩

/-! ### Causality -/

/-- Every event that a call hears of came earlier, and the events are too few to count up from the counters
they are given to the greatest one. -/
structure Admissible (seed : N → Hlc) (events : List (ClockEvent N)) (n : ℕ) : Prop where
  heard_lt : ∀ j, ∀ e : ClockEvent N, events[j]? = some e → ∀ i, e.heard = some i → i < j
  seed_le : ∀ i, (seed i).last.logical.val ≤ n
  outside_le : ∀ e ∈ events, ∀ t, e.outside = some t → t.logical.val ≤ n
  few : n + events.length < 2 ^ 32

/-- The timestamps so far rise with every step, carry the identifiers of their nodes, and have counters of at
most one more for every event. -/
structure Rising (seed : N → Hlc) (events : List (ClockEvent N)) (n : ℕ) (net : ClockNetwork N) : Prop
    extends Traced seed events net where
  rises : ∀ i j, Direct events i j → net.stamp i < net.stamp j
  node : ∀ j, ∀ e : ClockEvent N, events[j]? = some e → (net.stamp j).nodeId = (seed e.node).last.nodeId
  counter : ∀ j < events.length, (net.stamp j).logical.val ≤ n + (j + 1)

omit [DecidableEq N] in
/-- The identifier of a clock does not change. -/
theorem Rising.nodeId_eq {n : ℕ} (h : Rising seed events n net) (i : N) :
    (net.clocks i).last.nodeId = (seed i).last.nodeId := by
  rcases h.last i with ⟨hseed, -⟩ | ⟨k, e, hk, rfl, hlast, -⟩
  · rw [hseed]
  · rw [hlast, h.node k e hk]

theorem Rising.step {n : ℕ} (h : Rising seed events n net) (hadmissible : Admissible seed (events ++ [e]) n) :
    ∃ next, (∀ build, net.step build e = some next) ∧ Rising seed (events ++ [e]) n next := by
  have hfew := hadmissible.few
  rw [List.length_append, List.length_singleton] at hfew
  obtain ⟨c, hc⟩ : ∃ c, e.call net.issued = some c := by
    refine ClockEvent.exists_call fun i hi ↦ ?_
    rw [h.length]
    exact hadmissible.heard_lt _ e List.getElem?_concat_length i hi
  have hcounter : ∀ b ∈ Hlc.bounds (net.clocks e.node).last c, b.logical.val ≤ n + events.length := by
    intro b hb
    rcases h.bounds_cases hc hb with rfl | houtside | ⟨k, -, hk, rfl⟩
    · exact (hadmissible.seed_le e.node).trans (Nat.le_add_right _ _)
    · have := hadmissible.outside_le e (by simp) b houtside
      omega
    · have := h.counter k hk
      omega
  have hadmits : Hlc.Admits (net.clocks e.node).last c := by
    intro b hb _ _
    rw [Fin.lt_def]
    have := hcounter b hb
    change b.logical.val < 2 ^ 32 - 1
    omega
  obtain ⟨t, hcall, hnode, hlt⟩ := Hlc.call_of_admits (net.clocks e.node) hadmits
  have hold : ∀ i < events.length, (net.issue e.node t).stamp i = net.stamp i :=
    fun i hi ↦ stamp_issue_of_lt _ (h.length.symm ▸ hi)
  have hnew : (net.issue e.node t).stamp events.length = t := by rw [← h.length, stamp_issue_length]
  refine ⟨net.issue e.node t, fun build ↦ ?_, h.toTraced.issue t, fun i j hdirect ↦ ?_,
    fun j d hd ↦ ?_, fun j hj ↦ ?_⟩
  · rw [ClockNetwork.step, hc, Option.bind_some, hcall]
    rfl
  · rcases direct_concat hdirect with ⟨rfl, hdirect'⟩ | hdirect'
    · rw [hnew, hold i hdirect.1]
      obtain ⟨b, hb, hle⟩ := h.exists_bound hc id (fun i j hij ↦ (h.rises i j hij).le)
        hdirect.1 hdirect'
      exact hle.trans_lt (hlt b hb)
    · have hj := (List.getElem?_eq_some_iff.mp hdirect'.2.choose_spec.1).1
      rw [hold j hj, hold i (hdirect'.1.trans hj)]
      exact h.rises i j hdirect'
  · rcases Nat.lt_or_ge j events.length with hj | hj
    · rw [List.getElem?_append_left hj] at hd
      rw [hold j hj, h.node j d hd]
    · have hlength := (List.getElem?_eq_some_iff.mp hd).1
      rw [List.length_append, List.length_singleton] at hlength
      obtain rfl : j = events.length := by omega
      rw [List.getElem?_concat_length] at hd
      obtain rfl : e = d := Option.some.inj hd
      rw [hnew, hnode, h.nodeId_eq]
  · rw [List.length_append, List.length_singleton] at hj
    rcases Nat.lt_succ_iff_lt_or_eq.mp hj with hj | rfl
    · rw [hold j hj]
      exact h.counter j hj
    · rw [hnew]
      exact (Hlc.call_logical_le hcounter (hcall .checked)).2

omit [DecidableEq N] in
/-- Nodes with different identifiers do not give out one timestamp twice. -/
theorem Rising.nodup {n : ℕ} (h : Rising seed events n net)
    (hnode : Function.Injective fun i ↦ (seed i).last.nodeId) : net.issued.Nodup := by
  have hne : ∀ i j, i < j → j < net.issued.length → net.stamp i ≠ net.stamp j := by
    intro i j hij hj heq
    rw [h.length] at hj
    have hi := hij.trans hj
    have hdi := List.getElem?_eq_getElem hi
    have hdj := List.getElem?_eq_getElem hj
    have hid := h.node i _ hdi
    rw [heq, h.node j _ hdj] at hid
    have hsame := hnode hid
    exact (h.rises i j ⟨hij, _, hdj, Or.inr ⟨_, hdi, hsame.symm⟩⟩).ne heq
  refine List.nodup_iff_getElem?_ne_getElem?.mpr fun i j hij hj heq ↦ hne i j hij hj ?_
  rw [stamp, stamp, List.getD_eq_getElem?_getD, List.getD_eq_getElem?_getD, heq]

end ClockNetwork

end DidCrdt
