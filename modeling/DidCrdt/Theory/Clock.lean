import DidCrdt.Core.Clock

/-!
# What the clock promises

A call has to exceed the last timestamp of the clock and the remote one it was given (`Hlc.bounds`). It does,
as long as the counters among these at the greatest wall time are below the greatest counter
(`Hlc.call_of_admits`). Otherwise a build with overflow checks panics, and one without them goes back to
the counter zero, below one of the two (`Hlc.call_of_not_admits`). So the timestamps of a run advance
exactly when every call of it finds such counters (`Hlc.run_advances_iff`), which a remote peer can prevent
with a single timestamp.
-/

set_option autoImplicit false
set_option relaxedAutoImplicit false

namespace DidCrdt

/-! ### The order of timestamps -/

namespace HlcTimestamp

theorem lt_of_wallMs_lt {s t : HlcTimestamp} (hwall : s.wallMs < t.wallMs) : s < t := by
  change key s < key t
  rw [key, key, Prod.Lex.toLex_lt_toLex]
  exact Or.inl hwall

theorem lt_of_logical_lt {s t : HlcTimestamp} (hwall : s.wallMs = t.wallMs)
    (hlogical : s.logical < t.logical) : s < t := by
  change key s < key t
  rw [key, key, Prod.Lex.toLex_lt_toLex]
  refine Or.inr ⟨hwall, ?_⟩
  rw [Prod.Lex.toLex_lt_toLex]
  exact Or.inl hlogical

end HlcTimestamp

/-! ### The counter -/

theorem U32.le_max (n : U32) : n ≤ U32.max := by
  rw [Fin.le_def]
  exact Nat.le_sub_one_of_lt n.isLt

theorem U32.val_succ {n : U32} (h : n < U32.max) : (n + 1).val = n.val + 1 := by
  rw [Fin.lt_def] at h
  rw [Fin.val_add]
  exact Nat.mod_eq_of_lt (Nat.add_lt_of_lt_sub h)

theorem U32.lt_succ {n : U32} (h : n < U32.max) : n < n + 1 := by
  rw [Fin.lt_def, U32.val_succ h]
  exact Nat.lt_succ_self _

theorem Arithmetic.increment_of_lt (arith : Arithmetic) {n : U32} (h : n < U32.max) :
    arith.increment n = some (n + 1) := by
  cases arith with
  | checked => exact if_neg h.ne
  | wrapping => rfl

namespace Hlc

/-! ### One call -/

/-- The timestamps that a call has to exceed. -/
def bounds (last : HlcTimestamp) (c : Call) : List HlcTimestamp := last :: c.remote.toList

/-- The counters of the timestamps to exceed that are at the greatest wall time can be incremented. -/
def Admits (last : HlcTimestamp) (c : Call) : Prop :=
  ∀ b ∈ bounds last c, c.nowMs ≤ b.wallMs → (∀ b' ∈ bounds last c, b'.wallMs ≤ b.wallMs) →
    b.logical < U32.max

/-- The counter after incrementing the one there is to increment, if any. -/
def nextLogical (arith : Arithmetic) : Option U32 → Option U32
  | none => some 0
  | some n => arith.increment n

/-- What a call does, whatever the build: it takes the greatest of the wall times, and increments the
greatest of the counters that are there at that wall time. -/
structure Advance (last : HlcTimestamp) (c : Call) (wall : U64) (counter : Option U32) : Prop where
  now_le : c.nowMs ≤ wall
  wall_le : ∀ b ∈ bounds last c, b.wallMs ≤ wall
  wall_eq : wall = c.nowMs ∨ ∃ b ∈ bounds last c, b.wallMs = wall
  counter_ge : ∀ b ∈ bounds last c, b.wallMs = wall → ∃ n, counter = some n ∧ b.logical ≤ n
  counter_eq : ∀ n, counter = some n → ∃ b ∈ bounds last c, b.wallMs = wall ∧ b.logical = n

theorem advance_send (last : HlcTimestamp) (nowMs : U64) :
    Advance last (.send nowMs) (max nowMs last.wallMs)
      (if max nowMs last.wallMs = last.wallMs then some last.logical else none) where
  now_le := le_max_left _ _
  wall_le := by simp [bounds, Call.remote]
  wall_eq := by
    rcases le_total nowMs last.wallMs with h | h
    · exact Or.inr ⟨last, List.mem_cons_self, (max_eq_right h).symm⟩
    · exact Or.inl (max_eq_left h)
  counter_ge := by
    intro b hb hwall
    obtain rfl : b = last := by simpa [bounds, Call.remote] using hb
    exact ⟨b.logical, if_pos hwall.symm, le_rfl⟩
  counter_eq := by
    intro n hn
    split_ifs at hn with hwall
    exact ⟨last, List.mem_cons_self, hwall.symm, Option.some.inj hn⟩

theorem advance_recv (last remote : HlcTimestamp) (nowMs wall : U64)
    (hwall : wall = max (max nowMs last.wallMs) remote.wallMs) :
    Advance last (.recv remote nowMs) wall
      (if wall = last.wallMs ∧ wall = remote.wallMs then some (max last.logical remote.logical)
        else if wall = last.wallMs then some last.logical
        else if wall = remote.wallMs then some remote.logical else none) where
  now_le := hwall ▸ (le_max_left _ _).trans (le_max_left _ _)
  wall_le := by
    intro b hb
    rcases List.mem_pair.mp hb with rfl | rfl
    · exact hwall ▸ (le_max_right _ _).trans (le_max_left _ _)
    · exact hwall ▸ le_max_right _ _
  wall_eq := by
    rcases max_choice (max nowMs last.wallMs) remote.wallMs with hmax | hmax
    · rcases max_choice nowMs last.wallMs with hlocal | hlocal
      · exact Or.inl (hwall.trans (hmax.trans hlocal))
      · exact Or.inr ⟨last, List.mem_cons_self, (hwall.trans (hmax.trans hlocal)).symm⟩
    · exact Or.inr ⟨remote, List.mem_pair.mpr (Or.inr rfl), (hwall.trans hmax).symm⟩
  counter_ge := by
    intro b hb hb'
    rcases List.mem_pair.mp hb with rfl | rfl
    · split_ifs with hboth hlast
      · exact ⟨_, rfl, le_max_left _ _⟩
      · exact ⟨_, rfl, le_rfl⟩
      · exact absurd hb'.symm hlast
      · exact absurd hb'.symm hlast
    · split_ifs with hboth hlast
      · exact ⟨_, rfl, le_max_right _ _⟩
      · exact absurd ⟨hlast, hb'.symm⟩ hboth
      · exact ⟨_, rfl, le_rfl⟩
      · exact absurd hb'.symm ‹_›
  counter_eq := by
    intro n hn
    have hremote : remote ∈ bounds last (.recv remote nowMs) := List.mem_pair.mpr (Or.inr rfl)
    split_ifs at hn with hboth hlast hrem
    · rcases max_choice last.logical remote.logical with hmax | hmax
      · exact ⟨last, List.mem_cons_self, hboth.1.symm, hmax.symm.trans (Option.some.inj hn)⟩
      · exact ⟨remote, hremote, hboth.2.symm, hmax.symm.trans (Option.some.inj hn)⟩
    · exact ⟨last, List.mem_cons_self, hlast.symm, Option.some.inj hn⟩
    · exact ⟨remote, hremote, hrem.symm, Option.some.inj hn⟩

/-- A call takes a wall time and a counter, and gives out the timestamp that they make. -/
theorem call_cases (clock : Hlc) (c : Call) :
    ∃ wall counter, Advance clock.last c wall counter ∧ ∀ arith, clock.call arith c =
      (nextLogical arith counter).map fun logical ↦ issue ⟨wall, logical, clock.last.nodeId⟩ := by
  cases c with
  | send nowMs =>
    refine ⟨_, _, advance_send clock.last nowMs, fun arith ↦ ?_⟩
    dsimp only [call, advanceSend]
    split_ifs <;> rfl
  | recv remote nowMs =>
    refine ⟨_, _, advance_recv clock.last remote nowMs _ rfl, fun arith ↦ ?_⟩
    dsimp only [call, advanceRecv]
    split_ifs <;> rfl

/-- A call that finds counters it can increment gives out a timestamp above all that it has to exceed,
and no addition overflows. -/
theorem call_of_admits (clock : Hlc) {c : Call} (hadmits : Admits clock.last c) :
    ∃ t : HlcTimestamp, (∀ arith, clock.call arith c = some (t, ⟨t⟩)) ∧
      t.nodeId = clock.last.nodeId ∧ ∀ b ∈ bounds clock.last c, b < t := by
  obtain ⟨wall, counter, hadvance, hcall⟩ := call_cases clock c
  cases counter with
  | none =>
    refine ⟨⟨wall, 0, clock.last.nodeId⟩, hcall, rfl, fun b hb ↦ ?_⟩
    refine HlcTimestamp.lt_of_wallMs_lt (lt_of_le_of_ne (hadvance.wall_le b hb) fun heq ↦ ?_)
    obtain ⟨n, hn, -⟩ := hadvance.counter_ge b hb heq
    exact Option.some_ne_none n hn.symm
  | some n =>
    have hn : n < U32.max := by
      obtain ⟨b, hb, hwall, rfl⟩ := hadvance.counter_eq n rfl
      exact hadmits b hb (hwall ▸ hadvance.now_le) (hwall ▸ hadvance.wall_le)
    refine ⟨⟨wall, n + 1, clock.last.nodeId⟩, fun arith ↦ ?_, rfl, fun b hb ↦ ?_⟩
    · rw [hcall, nextLogical, arith.increment_of_lt hn]
      rfl
    · rcases (hadvance.wall_le b hb).lt_or_eq with hlt | heq
      · exact HlcTimestamp.lt_of_wallMs_lt hlt
      · obtain ⟨m, hm, hle⟩ := hadvance.counter_ge b hb heq
        obtain rfl : n = m := Option.some.inj hm
        exact HlcTimestamp.lt_of_logical_lt heq (hle.trans_lt (U32.lt_succ hn))

/-- A call that finds the greatest counter where it has to increment one panics, or gives out a timestamp
below one that it has to exceed. -/
theorem call_of_not_admits (clock : Hlc) {c : Call} (hadmits : ¬ Admits clock.last c) :
    clock.call .checked c = none ∧
      ∃ t : HlcTimestamp, clock.call .wrapping c = some (t, ⟨t⟩) ∧ ∃ b ∈ bounds clock.last c, t < b := by
  obtain ⟨wall, counter, hadvance, hcall⟩ := call_cases clock c
  unfold Admits at hadmits
  push Not at hadmits
  obtain ⟨b, hb, hnow, hgreatest, hmax⟩ := hadmits
  have hwall : b.wallMs = wall := by
    refine le_antisymm (hadvance.wall_le b hb) ?_
    rcases hadvance.wall_eq with rfl | ⟨b', hb', rfl⟩
    · exact hnow
    · exact hgreatest b' hb'
  obtain ⟨n, rfl, hle⟩ := hadvance.counter_ge b hb hwall
  obtain rfl : n = U32.max := le_antisymm n.le_max (hmax.trans hle)
  refine ⟨hcall .checked, ⟨wall, 0, clock.last.nodeId⟩, hcall .wrapping, b, hb, ?_⟩
  have hzero : (0 : U32) < U32.max := by decide
  exact HlcTimestamp.lt_of_logical_lt hwall.symm (hzero.trans_le hmax)

/-! ### Runs -/

/-- The timestamps that calls returned are above the last one of the clock and strictly increasing, each is
above the remote one that its call was given, and they carry the node identifier of the clock. -/
structure Advances (clock : Hlc) (calls : List Call) (issued : List HlcTimestamp) : Prop where
  increasing : (clock.last :: issued).Pairwise (· < ·)
  above_remote : List.Forall₂ (fun c t ↦ ∀ remote, c.remote = some remote → remote < t) calls issued
  node : ∀ t ∈ issued, t.nodeId = clock.last.nodeId

/-- Every call of a run finds counters that it can increment. -/
def AdmitsAll (arith : Arithmetic) (clock : Hlc) (calls : List Call) : Prop :=
  ∀ earlier c later issued before, calls = earlier ++ c :: later →
    clock.run arith earlier = some (issued, before) → Admits before.last c

theorem admitsAll_cons {arith : Arithmetic} {clock after : Hlc} {c : Call} {calls : List Call}
    {t : HlcTimestamp} (hcall : clock.call arith c = some (t, after)) :
    AdmitsAll arith clock (c :: calls) ↔ Admits clock.last c ∧ AdmitsAll arith after calls := by
  constructor
  · intro hall
    refine ⟨hall [] c calls [] clock rfl rfl, fun earlier c' later issued before hsplit hrun ↦ ?_⟩
    refine hall (c :: earlier) c' later (t :: issued) before (by rw [hsplit]; rfl) ?_
    simp [run, hcall, hrun]
  · rintro ⟨hadmits, hall⟩ earlier c' later issued before hsplit hrun
    cases earlier with
    | nil =>
      obtain ⟨rfl, rfl⟩ : c = c' ∧ calls = later := by simpa using hsplit
      obtain ⟨-, rfl⟩ : issued = [] ∧ clock = before := by simpa [run, eq_comm] using hrun
      exact hadmits
    | cons e earlier =>
      obtain ⟨rfl, rfl⟩ : c = e ∧ calls = earlier ++ c' :: later := by simpa using hsplit
      simp only [run, hcall, Option.bind_eq_bind, Option.bind_some, Option.bind_eq_some_iff] at hrun
      obtain ⟨⟨rest, final⟩, hrest, hfinal⟩ := hrun
      obtain ⟨-, rfl⟩ : t :: rest = issued ∧ final = before := by simpa using hfinal
      exact hall earlier c' later rest final rfl hrest

/-- A call followed by calls that advance the clock after it. -/
theorem Advances.cons {clock : Hlc} {c : Call} {calls : List Call} {t : HlcTimestamp}
    {issued : List HlcTimestamp} (hbounds : ∀ b ∈ bounds clock.last c, b < t)
    (hnode : t.nodeId = clock.last.nodeId) (hrest : Advances ⟨t⟩ calls issued) :
    Advances clock (c :: calls) (t :: issued) where
  increasing := by
    have hlast : clock.last < t := hbounds _ List.mem_cons_self
    refine List.pairwise_cons.mpr ⟨fun u hu ↦ ?_, hrest.increasing⟩
    rcases List.mem_cons.mp hu with rfl | hu
    · exact hlast
    · exact hlast.trans (List.rel_of_pairwise_cons hrest.increasing hu)
  above_remote := by
    refine List.Forall₂.cons (fun remote hremote ↦ hbounds remote ?_) hrest.above_remote
    exact List.mem_cons_of_mem _ (Option.mem_toList.mpr hremote)
  node := by
    intro u hu
    rcases List.mem_cons.mp hu with rfl | hu
    · exact hnode
    · exact (hrest.node u hu).trans hnode

/-- What one call of a run that advances exceeds, and that the rest of the run advances. -/
theorem Advances.of_cons {clock : Hlc} {c : Call} {calls : List Call} {t : HlcTimestamp}
    {issued : List HlcTimestamp} (hadvances : Advances clock (c :: calls) (t :: issued)) :
    (∀ b ∈ bounds clock.last c, b < t) ∧ Advances ⟨t⟩ calls issued := by
  obtain ⟨hincreasing, hremote, hnode⟩ := hadvances
  obtain ⟨hc, hcalls⟩ := List.forall₂_cons.mp hremote
  refine ⟨fun b hb ↦ ?_, hincreasing.of_cons, hcalls, fun u hu ↦ ?_⟩
  · rcases List.mem_cons.mp hb with rfl | hb
    · exact List.rel_of_pairwise_cons hincreasing List.mem_cons_self
    · exact hc b (Option.mem_toList.mp hb)
  · exact (hnode u (List.mem_cons_of_mem _ hu)).trans (hnode t List.mem_cons_self).symm

/-- A run whose calls all find such counters goes through in every build, and advances. -/
theorem run_of_admitsAll {arith : Arithmetic} :
    ∀ {calls : List Call} {clock : Hlc}, AdmitsAll arith clock calls →
      ∃ issued final, (∀ build, clock.run build calls = some (issued, final)) ∧
        Advances clock calls issued ∧ final.last.nodeId = clock.last.nodeId := by
  intro calls
  induction calls with
  | nil =>
    intro clock _
    refine ⟨[], clock, fun _ ↦ rfl, ⟨List.pairwise_singleton _ _, List.Forall₂.nil, ?_⟩, rfl⟩
    exact fun _ hu ↦ absurd hu List.not_mem_nil
  | cons c calls ih =>
    intro clock hall
    have hadmits : Admits clock.last c := hall [] c calls [] clock rfl rfl
    obtain ⟨t, hcall, hnode, hbounds⟩ := call_of_admits clock hadmits
    obtain ⟨issued, final, hrun, hadvances, hfinal⟩ := ih ((admitsAll_cons (hcall arith)).mp hall).2
    refine ⟨t :: issued, final, fun build ↦ ?_, hadvances.cons hbounds hnode, hfinal.trans hnode⟩
    simp [run, hcall build, hrun build]

/-- The timestamps of a run advance only if its calls all find such counters. -/
theorem admitsAll_of_advances {arith : Arithmetic} :
    ∀ {calls : List Call} {clock final : Hlc} {issued : List HlcTimestamp},
      clock.run arith calls = some (issued, final) → Advances clock calls issued →
        AdmitsAll arith clock calls := by
  intro calls
  induction calls with
  | nil =>
    intro clock final issued _ _ earlier c later _ _ hsplit
    simp at hsplit
  | cons c calls ih =>
    intro clock final issued hrun hadvances
    simp only [run, Option.bind_eq_bind, Option.bind_eq_some_iff] at hrun
    obtain ⟨⟨t, after⟩, hcall, ⟨rest, last⟩, hrest, hfinal⟩ := hrun
    obtain ⟨rfl, rfl⟩ : t :: rest = issued ∧ last = final := by simpa using hfinal
    obtain ⟨hbounds, htail⟩ := hadvances.of_cons
    have hadmits : Admits clock.last c := by
      by_contra hnot
      obtain ⟨hchecked, u, hwrapping, b, hb, hlt⟩ := call_of_not_admits clock hnot
      cases arith with
      | checked => exact Option.some_ne_none _ (hcall.symm.trans hchecked)
      | wrapping =>
        obtain ⟨rfl, -⟩ : t = u ∧ after = ⟨u⟩ := by simpa [hcall] using hwrapping
        exact lt_asymm hlt (hbounds b hb)
    obtain ⟨u, hcall', -⟩ := call_of_admits clock hadmits
    obtain ⟨rfl, rfl⟩ : t = u ∧ after = ⟨u⟩ := by simpa [hcall] using hcall' arith
    exact (admitsAll_cons hcall).mpr ⟨hadmits, ih hrest htail⟩

/-- A run returns timestamps that advance, without an overflow, exactly when every call of it finds
counters that it can increment; an overflow is what stops a build with overflow checks. -/
theorem run_advances_iff (arith : Arithmetic) (clock : Hlc) (calls : List Call) :
    (∃ issued final, clock.run arith calls = some (issued, final) ∧ Advances clock calls issued ∧
      final.last.nodeId = clock.last.nodeId ∧ (clock.run .checked calls).isSome) ↔
      AdmitsAll arith clock calls := by
  constructor
  · rintro ⟨issued, final, hrun, hadvances, -, -⟩
    exact admitsAll_of_advances hrun hadvances
  · intro hall
    obtain ⟨issued, final, hrun, hadvances, hnode⟩ := run_of_admitsAll hall
    exact ⟨issued, final, hrun arith, hadvances, hnode, by rw [hrun]; rfl⟩

/-- A call raises the counters it is given by at most one. -/
theorem call_logical_le {arith : Arithmetic} {clock after : Hlc} {c : Call} {t : HlcTimestamp} {n : ℕ}
    (hle : ∀ b ∈ bounds clock.last c, b.logical.val ≤ n) (hcall : clock.call arith c = some (t, after)) :
    after.last = t ∧ t.logical.val ≤ n + 1 := by
  obtain ⟨wall, counter, hadvance, hcases⟩ := call_cases clock c
  obtain ⟨logical, hlogical, hissue⟩ := Option.map_eq_some_iff.mp ((hcases arith).symm.trans hcall)
  obtain ⟨rfl, rfl⟩ := Prod.mk.inj hissue
  refine ⟨rfl, ?_⟩
  cases counter with
  | none =>
    obtain rfl : 0 = logical := Option.some.inj hlogical
    exact Nat.zero_le _
  | some m =>
    obtain ⟨b, hb, -, rfl⟩ := hadvance.counter_eq m rfl
    have hb : b.logical.val ≤ n := hle b hb
    have hsucc : arith.increment b.logical = some logical → logical = b.logical + 1 := by
      intro h
      unfold Arithmetic.increment at h
      split at h
      · split_ifs at h
        exact (Option.some.inj h).symm
      · exact (Option.some.inj h).symm
    rw [hsucc hlogical, Fin.val_add]
    exact (Nat.mod_le _ _).trans (Nat.add_le_add_right hb 1)

/-- Runs that are given small counters only, and are not long enough to count up from them to the greatest
one, find counters that they can increment. -/
theorem admitsAll_of_length_lt {arith : Arithmetic} {calls : List Call} :
    ∀ {clock : Hlc} {n : ℕ}, clock.last.logical.val ≤ n →
      (∀ c ∈ calls, ∀ remote, c.remote = some remote → remote.logical.val ≤ n) →
        n + calls.length < 2 ^ 32 → AdmitsAll arith clock calls := by
  induction calls with
  | nil =>
    intro clock n _ _ _ earlier c later _ _ hsplit
    simp at hsplit
  | cons c calls ih =>
    intro clock n hlast hremote hlength
    rw [List.length_cons] at hlength
    have hbounds : ∀ b ∈ bounds clock.last c, b.logical.val ≤ n := by
      intro b hb
      rcases List.mem_cons.mp hb with rfl | hb
      · exact hlast
      · exact hremote c List.mem_cons_self b (Option.mem_toList.mp hb)
    have hadmits : Admits clock.last c := by
      intro b hb _ _
      rw [Fin.lt_def]
      have hb := hbounds b hb
      change b.logical.val < 2 ^ 32 - 1
      omega
    obtain ⟨t, hcall, -⟩ := call_of_admits clock hadmits
    refine (admitsAll_cons (hcall arith)).mpr ⟨hadmits, ?_⟩
    refine ih (call_logical_le hbounds (hcall arith)).2 (fun c' hc' remote hr ↦ ?_) (by omega)
    exact (hremote c' (List.mem_cons_of_mem _ hc') remote hr).trans (Nat.le_succ n)

/-- A remote timestamp with the greatest counter is met with one below it, or with a panic. -/
theorem recv_greatest_logical :
    (new 0 7).run .wrapping [.recv ⟨5, U32.max, 9⟩ 3] = some ([⟨5, 0, 7⟩], ⟨⟨5, 0, 7⟩⟩) ∧
      (⟨5, 0, 7⟩ : HlcTimestamp) < ⟨5, U32.max, 9⟩ ∧
      (new 0 7).run .checked [.recv ⟨5, U32.max, 9⟩ 3] = none ∧
      ∀ arith, ¬ ∃ issued final, (new 0 7).run arith [.recv ⟨5, U32.max, 9⟩ 3] = some (issued, final) ∧
        Advances (new 0 7) [.recv ⟨5, U32.max, 9⟩ 3] issued := by
  have hlt : (⟨5, 0, 7⟩ : HlcTimestamp) < ⟨5, U32.max, 9⟩ :=
    HlcTimestamp.lt_of_logical_lt rfl (by decide)
  refine ⟨rfl, hlt, rfl, fun arith ↦ ?_⟩
  rintro ⟨issued, final, hrun, -, hremote, -⟩
  cases arith with
  | checked => exact absurd hrun (Option.some_ne_none _).symm
  | wrapping =>
    obtain rfl : [⟨5, 0, 7⟩] = issued := congrArg Prod.fst (Option.some.inj hrun)
    exact lt_asymm hlt ((List.forall₂_cons.mp hremote).1 _ rfl)

end Hlc

end DidCrdt
