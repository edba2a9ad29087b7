import Mathlib.Data.Set.Image
import Mathlib.Data.Set.Insert
import Mathlib.Logic.Function.Basic
import Mathlib.Logic.Relation

/-!
# Broadcast networks

Parties react to messages: each reaction changes the state of a party and broadcasts messages to the
others. In a `Network` any message that was broadcast may be delivered to anyone but its sender, at any
time and any number of times, or never (`Network.deliver`): messages are lost, delayed, duplicated and
reordered.

A `Transit` is a network from which nothing is lost any more: it knows the deliveries that are owed,
and every broadcast adds those to the others. In a phase that ends with nothing owed, what was owed was
delivered (`Transit.exists_delivery`), whatever each reaction keeps is kept (`Transit.keeps`), and
whatever changed was changed by a delivery (`Transit.exists_change`).
-/

set_option autoImplicit false
set_option relaxedAutoImplicit false

namespace Broadcast

variable {N σ μ : Type*}

/-- The states of the parties, and everything that was broadcast, with the senders. -/
structure Network (N σ μ : Type*) where
  parties : N → σ
  sent : Set (N × μ)

/-- The deliveries of messages to everyone but their senders. -/
def toOthers (msgs : Set (N × μ)) : Set (N × μ) :=
  {delivery | ∃ sender, sender ≠ delivery.1 ∧ (sender, delivery.2) ∈ msgs}

theorem mem_toOthers {msgs : Set (N × μ)} {receiver : N} {msg : μ} :
    (receiver, msg) ∈ toOthers msgs ↔ ∃ sender, sender ≠ receiver ∧ (sender, msg) ∈ msgs := Iff.rfl

theorem toOthers_mono {msgs more : Set (N × μ)} (hsub : msgs ⊆ more) : toOthers msgs ⊆ toOthers more :=
  fun _ ⟨sender, hne, hmem⟩ ↦ ⟨sender, hne, hsub hmem⟩

namespace Network

/-- The network after some broadcasts. -/
def broadcast (net : Network N σ μ) (msgs : Set (N × μ)) : Network N σ μ :=
  { net with sent := net.sent ∪ msgs }

variable [DecidableEq N] (receive : N → σ → μ → σ × List μ)

/-- The network after a party changed its state. -/
def update (net : Network N σ μ) (party : N) (state : σ) : Network N σ μ :=
  { net with parties := Function.update net.parties party state }

/-- What a party broadcasts in response to a message. -/
def responses (net : Network N σ μ) (receiver : N) (msg : μ) : Set (N × μ) :=
  {response | response.1 = receiver ∧ response.2 ∈ (receive receiver (net.parties receiver) msg).2}

/-- The network after the delivery of a message. -/
def deliver (net : Network N σ μ) (receiver : N) (msg : μ) : Network N σ μ :=
  (net.update receiver (receive receiver (net.parties receiver) msg).1).broadcast
    (net.responses receive receiver msg)

section Deliver

variable (net : Network N σ μ) (receiver : N) (msg : μ)

@[simp] theorem parties_deliver :
    (net.deliver receive receiver msg).parties =
      Function.update net.parties receiver (receive receiver (net.parties receiver) msg).1 := rfl

theorem parties_deliver_self : (net.deliver receive receiver msg).parties receiver =
    (receive receiver (net.parties receiver) msg).1 :=
  Function.update_self ..

theorem parties_deliver_of_ne {party : N} (hne : party ≠ receiver) :
    (net.deliver receive receiver msg).parties party = net.parties party :=
  Function.update_of_ne hne ..

theorem mem_sent_deliver {sender : N} {sent : μ} :
    (sender, sent) ∈ (net.deliver receive receiver msg).sent ↔ (sender, sent) ∈ net.sent ∨
      sender = receiver ∧ sent ∈ (receive receiver (net.parties receiver) msg).2 := Iff.rfl

end Deliver

/-! A network whose messages are encoded: as it was, when parties react alike to encoded messages. -/

section Encoded

variable {ν : Type*} (encode : μ → ν) (net : Network N σ μ)

/-- The network with what was broadcast encoded. -/
def encoded : Network N σ ν :=
  ⟨net.parties, Set.image (Prod.map id encode) net.sent⟩

omit [DecidableEq N] in
theorem mem_sent_encoded {sender : N} {e : ν} :
    (sender, e) ∈ (net.encoded encode).sent ↔ ∃ msg, (sender, msg) ∈ net.sent ∧ encode msg = e := by
  constructor
  · rintro ⟨⟨i, msg⟩, hsent, heq⟩
    obtain ⟨rfl, rfl⟩ := Prod.mk.inj heq
    exact ⟨msg, hsent, rfl⟩
  · rintro ⟨msg, hsent, rfl⟩
    exact ⟨(sender, msg), hsent, rfl⟩

omit [DecidableEq N] in
/-- What a party broadcasts, encoded. -/
theorem image_from (sender : N) (msgs : List μ) :
    Set.image (Prod.map id encode) {sent | sent.1 = sender ∧ sent.2 ∈ msgs} =
      {sent | sent.1 = sender ∧ sent.2 ∈ msgs.map encode} := by
  ext ⟨i, e⟩
  constructor
  · rintro ⟨⟨j, msg⟩, ⟨hsender, hmem⟩, heq⟩
    obtain ⟨rfl, rfl⟩ := Prod.mk.inj heq
    exact ⟨hsender, List.mem_map_of_mem hmem⟩
  · rintro ⟨hsender, hmem⟩
    obtain ⟨msg, hmsg, rfl⟩ := List.mem_map.mp hmem
    exact ⟨(i, msg), ⟨hsender, hmsg⟩, rfl⟩

omit [DecidableEq N] in
theorem encoded_broadcast (msgs : Set (N × μ)) : (net.broadcast msgs).encoded encode =
    (net.encoded encode).broadcast (Set.image (Prod.map id encode) msgs) :=
  congrArg (Network.mk net.parties) (Set.image_union ..)

theorem encoded_deliver {receive : N → σ → μ → σ × List μ} {react : N → σ → ν → σ × List ν}
    {receiver : N} {msg : μ} (h : react receiver (net.parties receiver) (encode msg) =
      ((receive receiver (net.parties receiver) msg).1,
        (receive receiver (net.parties receiver) msg).2.map encode)) :
    (net.deliver receive receiver msg).encoded encode =
      (net.encoded encode).deliver react receiver (encode msg) := by
  have hreact : react receiver ((net.encoded encode).parties receiver) (encode msg) = _ := h
  have hresponses : Set.image (Prod.map id encode) (net.responses receive receiver msg) =
      (net.encoded encode).responses react receiver (encode msg) := by
    rw [responses, image_from, responses, hreact]
  rw [deliver, encoded_broadcast, hresponses, deliver, hreact]
  rfl

end Encoded

end Network

/-! ### Phases without loss -/

/-- A network, and the deliveries that are owed. -/
structure Transit (N σ μ : Type*) where
  net : Network N σ μ
  owed : Set (N × μ)

namespace Transit

variable [DecidableEq N] (receive : N → σ → μ → σ × List μ)

/-- A delivery settles what it owes, and owes its responses to the others. -/
def deliver (t : Transit N σ μ) (receiver : N) (msg : μ) : Transit N σ μ where
  net := t.net.deliver receive receiver msg
  owed := t.owed \ {(receiver, msg)} ∪ toOthers (t.net.responses receive receiver msg)

/-- Some message that was broadcast, now or long ago, is delivered. -/
inductive Step : Transit N σ μ → Transit N σ μ → Prop
  | deliver {t : Transit N σ μ} {receiver : N} {msg : μ} :
      (receiver, msg) ∈ toOthers t.net.sent → Step t (t.deliver receive receiver msg)

/-- Deliveries, one after the other. -/
abbrev Phase : Transit N σ μ → Transit N σ μ → Prop := Relation.ReflTransGen (Step receive)

variable {receive} {t last : Transit N σ μ}

/-- What every delivery keeps is kept. -/
theorem keeps {P : Network N σ μ → Prop}
    (hdeliver : ∀ net receiver msg, P net → (receiver, msg) ∈ toOthers net.sent →
      P (net.deliver receive receiver msg))
    (hphase : Phase receive t last) (hstart : P t.net) : P last.net := by
  induction hphase with
  | refl => exact hstart
  | tail _ hstep ih =>
    cases hstep with
    | deliver hsent => exact hdeliver _ _ _ ih hsent

/-- A delivery that is owed is made in a phase that ends with nothing owed. The induction is on the
phase, from its start. -/
theorem exists_delivery {receiver : N} {msg : μ} (hphase : Phase receive t last)
    (hnone : last.owed = ∅) (howed : (receiver, msg) ∈ t.owed) :
    ∃ mid, Phase receive t mid ∧ (receiver, msg) ∈ toOthers mid.net.sent ∧
      Phase receive (mid.deliver receive receiver msg) last := by
  induction hphase using Relation.ReflTransGen.head_induction_on with
  | refl =>
    rw [hnone] at howed
    exact absurd howed (Set.notMem_empty _)
  | @head t next hstep hrest ih =>
    cases hstep with
    | @deliver other sent hsent =>
      by_cases hsame : (other, sent) = (receiver, msg)
      · obtain ⟨rfl, rfl⟩ := Prod.mk.inj hsame
        exact ⟨t, .refl, hsent, hrest⟩
      · have hstill : (receiver, msg) ∈ (t.deliver receive other sent).owed :=
          Or.inl ⟨howed, fun heq ↦ hsame (Set.mem_singleton_iff.mp heq).symm⟩
        obtain ⟨mid, hbefore, hmid, hafter⟩ := ih hstill
        exact ⟨mid, .head (.deliver hsent) hbefore, hmid, hafter⟩

/-- What does not hold at the start and holds at the end was brought about by a delivery. -/
theorem exists_change {P : Network N σ μ → Prop} (hphase : Phase receive t last)
    (hstart : ¬ P t.net) (hend : P last.net) :
    ∃ mid receiver msg, Phase receive t mid ∧ (receiver, msg) ∈ toOthers mid.net.sent ∧
      ¬ P mid.net ∧ P (mid.deliver receive receiver msg).net ∧
      Phase receive (mid.deliver receive receiver msg) last := by
  induction hphase using Relation.ReflTransGen.head_induction_on with
  | refl => exact absurd hend hstart
  | @head t next hstep hrest ih =>
    cases hstep with
    | @deliver receiver msg hsent =>
      by_cases hnext : P (t.deliver receive receiver msg).net
      · exact ⟨t, receiver, msg, .refl, hsent, hstart, hnext, hrest⟩
      · obtain ⟨mid, other, sent, hbefore, hmid, hnot, hyes, hafter⟩ := ih hnext
        exact ⟨mid, other, sent, .head (.deliver hsent) hbefore, hmid, hnot, hyes, hafter⟩

/-- A response is owed to everyone but its sender. -/
theorem owed_response (t : Transit N σ μ) {sender receiver : N} {msg response : μ}
    (hne : sender ≠ receiver)
    (hresponse : response ∈ (receive sender (t.net.parties sender) msg).2) :
    (receiver, response) ∈ (t.deliver receive sender msg).owed :=
  Or.inr ⟨sender, hne, rfl, hresponse⟩

/-! A queue of deliveries is a phase. -/

section Drain

variable (receive) (others : N → List N)

/-- Delivers what is queued, first in, first out, and queues every response for the others. -/
def drain : ℕ → (N → σ) → List (N × μ) → Option (N → σ)
  | _, parties, [] => some parties
  | 0, _, _ :: _ => none
  | fuel + 1, parties, (receiver, msg) :: queue =>
    let reaction := receive receiver (parties receiver) msg
    drain fuel (Function.update parties receiver reaction.1)
      (queue ++ reaction.2.flatMap fun response ↦ (others receiver).map fun other ↦ (other, response))

/-- What the drained queue leaves is what a phase that ends with nothing owed leaves. -/
theorem exists_phase_of_drain (hothers : ∀ i j, j ∈ others i ↔ j ≠ i) {fuel : ℕ} {queue : List (N × μ)}
    {parties : N → σ} (howed : ∀ delivery ∈ t.owed, delivery ∈ queue)
    (hsent : ∀ delivery ∈ queue, delivery ∈ toOthers t.net.sent)
    (hdrain : drain receive others fuel t.net.parties queue = some parties) :
    ∃ last, Phase receive t last ∧ last.owed = ∅ ∧ last.net.parties = parties := by
  induction fuel generalizing t queue with
  | zero =>
    cases queue with
    | nil => exact ⟨t, .refl, Set.eq_empty_of_forall_notMem fun d hd ↦ List.not_mem_nil (howed d hd),
        Option.some.inj hdrain⟩
    | cons delivery queue => exact absurd hdrain (by simp [drain])
  | succ fuel ih =>
    cases queue with
    | nil => exact ⟨t, .refl, Set.eq_empty_of_forall_notMem fun d hd ↦ List.not_mem_nil (howed d hd),
        Option.some.inj hdrain⟩
    | cons delivery queue =>
      obtain ⟨receiver, msg⟩ := delivery
      have hstep : Step receive t (t.deliver receive receiver msg) :=
        .deliver (hsent _ List.mem_cons_self)
      have hresponse : ∀ other response, (other, response) ∈
          (receive receiver (t.net.parties receiver) msg).2.flatMap (fun response ↦
            (others receiver).map fun other ↦ (other, response)) ↔
          (other, response) ∈ toOthers (t.net.responses receive receiver msg) := by
        intro other response
        simp [mem_toOthers, Network.responses, hothers, and_comm, eq_comm]
      have howed' : ∀ d ∈ (t.deliver receive receiver msg).owed,
          d ∈ queue ++ (receive receiver (t.net.parties receiver) msg).2.flatMap (fun response ↦
            (others receiver).map fun other ↦ (other, response)) := by
        rintro d (⟨hold, hne⟩ | hnew)
        · exact List.mem_append_left _ ((List.mem_cons.mp (howed d hold)).resolve_left hne)
        · exact List.mem_append_right _ ((hresponse d.1 d.2).mpr hnew)
      have hsent' : ∀ d ∈ queue ++ (receive receiver (t.net.parties receiver) msg).2.flatMap
          (fun response ↦ (others receiver).map fun other ↦ (other, response)),
          d ∈ toOthers (t.deliver receive receiver msg).net.sent := by
        intro d hd
        rcases List.mem_append.mp hd with hold | hnew
        · exact toOthers_mono Set.subset_union_left (hsent d (List.mem_cons_of_mem _ hold))
        · exact toOthers_mono Set.subset_union_right ((hresponse d.1 d.2).mp hnew)
      obtain ⟨last, hphase, hnone, hlast⟩ := ih howed' hsent' hdrain
      exact ⟨last, .head hstep hphase, hnone, hlast⟩

end Drain

end Transit

end Broadcast
