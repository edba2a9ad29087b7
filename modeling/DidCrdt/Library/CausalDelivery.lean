import Mathlib

/-!
# Delivery in causal order

Items carry a key and depend on the keys of their parents. A delivery adds the key of an item when
the item is acceptable and the keys of its parents are held (`deliver`); otherwise it changes
nothing, so an item may be delivered too early, or twice, without effect.

`Deliverable` is what the deliveries of a set of items can reach at most: the least set of keys that
contains the held ones and the key of every acceptable item whose parents are in it. A run of
deliveries stays within it (`deliverAll_subset`). A run reaches all of it when it contains, among
other deliveries, the items in an order that puts an item after its parents
(`deliverable_subset_deliverAll`), and so does any set of keys within it to which no delivery of an
item can add (`eq_deliverable_of_closed`). Two runs of the same items therefore end with the same
keys, whatever else was delivered in between.
-/

set_option autoImplicit false
set_option relaxedAutoImplicit false

namespace CausalDelivery

variable {K I : Type*}

/-- The key of an item, the keys it depends on, and whether the item is acceptable. -/
structure Rule (K I : Type*) where
  key : I → K
  parents : I → List K
  accepts : I → Prop

variable (rule : Rule K I)

/-- The keys that deliveries of the items can add to the held ones. -/
inductive Deliverable (held : Set K) (items : Set I) : K → Prop
  | held {k : K} : k ∈ held → Deliverable held items k
  | item {i : I} : i ∈ items → rule.accepts i →
      (∀ p ∈ rule.parents i, Deliverable held items p) → Deliverable held items (rule.key i)

/-- The keys held after the delivery of an item. -/
def deliver (held : Set K) (i : I) : Set K :=
  {k | k ∈ held ∨ (k = rule.key i ∧ rule.accepts i ∧ ∀ p ∈ rule.parents i, p ∈ held)}

/-- The keys held after a run of deliveries. -/
def deliverAll (held : Set K) (run : List I) : Set K :=
  run.foldl (deliver rule) held

variable {rule}

theorem subset_deliver (held : Set K) (i : I) : held ⊆ deliver rule held i :=
  fun _ hk ↦ Or.inl hk

theorem subset_deliverAll (held : Set K) (run : List I) : held ⊆ deliverAll rule held run := by
  induction run generalizing held with
  | nil => exact subset_rfl
  | cons i run ih => exact (subset_deliver held i).trans (ih (deliver rule held i))

/-- A delivery of one of the items stays within what is deliverable. -/
theorem deliver_subset {start held : Set K} {items : Set I} {i : I} (hi : i ∈ items)
    (hheld : ∀ k ∈ held, Deliverable rule start items k) :
    ∀ k ∈ deliver rule held i, Deliverable rule start items k := by
  rintro k (hk | ⟨rfl, haccepts, hparents⟩)
  · exact hheld k hk
  · exact .item hi haccepts fun p hp ↦ hheld p (hparents p hp)

/-- A run over the items stays within what is deliverable. -/
theorem deliverAll_subset {start : Set K} {items : Set I} (run : List I) :
    ∀ held : Set K, (∀ i ∈ run, i ∈ items) → (∀ k ∈ held, Deliverable rule start items k) →
      ∀ k ∈ deliverAll rule held run, Deliverable rule start items k := by
  induction run with
  | nil => exact fun held _ hheld ↦ hheld
  | cons i run ih =>
    intro held hrun hheld
    refine ih (deliver rule held i) (fun j hj ↦ hrun j (List.mem_cons_of_mem _ hj)) ?_
    exact deliver_subset (hrun i List.mem_cons_self) hheld

/-- Assumes: the key of an item determines its parents. A deliverable key that was not held at the
start is not the parent of an item with that key. -/
theorem not_mem_parents_of_deliverable {start : Set K} {items : Set I}
    (hparents : ∀ i ∈ items, ∀ j ∈ items, rule.key i = rule.key j → rule.parents i = rule.parents j)
    {k : K} (hk : Deliverable rule start items k) :
    k ∉ start → ∀ i ∈ items, rule.key i = k → k ∉ rule.parents i := by
  induction hk with
  | held hk => exact fun hstart ↦ absurd hk hstart
  | @item j hj _ _ ih =>
    intro hstart i hi hkey hmem
    rw [hparents i hi j hj hkey] at hmem
    exact ih _ hmem hstart i hi hkey (hparents i hi j hj hkey ▸ hmem)

/-- A run that goes through an order of the items with every item after its parents reaches an
item of the order as soon as its parents are deliverable. The induction is on the run; the items of
the order met so far are `done`. -/
theorem key_mem_deliverAll {start : Set K} {items : Set I}
    (hparents : ∀ i ∈ items, ∀ j ∈ items, rule.key i = rule.key j → rule.parents i = rule.parents j)
    {order run : List I} (hsub : order.Sublist run) :
    ∀ (done : Set I) (held : Set K), start ⊆ held → (∀ i, i ∈ items ↔ i ∈ done ∨ i ∈ order) →
      order.Pairwise (fun i j ↦ rule.key j ∉ rule.parents i) →
      (∀ i ∈ done, rule.accepts i → (∀ p ∈ rule.parents i, Deliverable rule start items p) →
        rule.key i ∈ held) →
      ∀ i ∈ items, rule.accepts i → (∀ p ∈ rule.parents i, Deliverable rule start items p) →
        rule.key i ∈ deliverAll rule held run := by
  induction hsub with
  | slnil =>
    intro done held _ hcover _ hdone i hi haccepts hpast
    exact hdone i (((hcover i).mp hi).resolve_right List.not_mem_nil) haccepts hpast
  | cons extra _ ih =>
    intro done held hstart hcover horder hdone
    refine ih done (deliver rule held extra) (hstart.trans (subset_deliver held extra)) hcover
      horder fun i hi haccepts hpast ↦ ?_
    exact subset_deliver held extra (hdone i hi haccepts hpast)
  | @cons_cons order run next _ ih =>
    intro done held hstart hcover horder hdone
    obtain ⟨hnext, hrest⟩ := List.pairwise_cons.mp horder
    refine ih (insert next done) (deliver rule held next)
      (hstart.trans (subset_deliver held next)) (fun i ↦ ?_) hrest fun i hi haccepts hpast ↦ ?_
    · rw [hcover i, List.mem_cons, Set.mem_insert_iff]
      tauto
    rcases hi with rfl | hi
    · refine Or.inr ⟨rfl, haccepts, fun p hp ↦ ?_⟩
      by_cases hheld : p ∈ start
      · exact hstart hheld
      have hmem : i ∈ items := (hcover i).mpr (Or.inr List.mem_cons_self)
      cases hpast p hp with
      | held hp' => exact absurd hp' hheld
      | @item j hj hjaccepts hjpast =>
        rcases (hcover j).mp hj with hjdone | hjorder
        · exact hdone j hjdone hjaccepts hjpast
        · rcases List.mem_cons.mp hjorder with rfl | hjlater
          · exact absurd hp (not_mem_parents_of_deliverable hparents (hpast _ hp) hheld j hj rfl)
          · exact absurd hp (hnext j hjlater)
    · exact subset_deliver held next (hdone i hi haccepts hpast)

/-- Assumes: the key of an item determines its parents; the run goes through an order of the items
with every item after its parents. The run reaches everything deliverable. -/
theorem deliverable_subset_deliverAll {start : Set K} {items : Set I}
    (hparents : ∀ i ∈ items, ∀ j ∈ items, rule.key i = rule.key j → rule.parents i = rule.parents j)
    {order run : List I} (hsub : order.Sublist run) (hcover : ∀ i, i ∈ items ↔ i ∈ order)
    (horder : order.Pairwise fun i j ↦ rule.key j ∉ rule.parents i) {k : K}
    (hk : Deliverable rule start items k) : k ∈ deliverAll rule start run := by
  cases hk with
  | held hk => exact subset_deliverAll start run hk
  | item hi haccepts hpast =>
    refine key_mem_deliverAll hparents hsub ∅ start subset_rfl (fun i ↦ ?_) horder
      (fun i hdone ↦ absurd hdone (Set.notMem_empty i)) _ hi haccepts hpast
    rw [hcover i, Set.mem_empty_iff_false, false_or]

/-- Keys that contain the held ones, are deliverable, and to which no delivery of an item can add
are exactly the deliverable ones. -/
theorem eq_deliverable_of_closed {start held : Set K} {items : Set I} (hstart : start ⊆ held)
    (hheld : ∀ k ∈ held, Deliverable rule start items k)
    (hclosed : ∀ i ∈ items, rule.accepts i → (∀ p ∈ rule.parents i, p ∈ held) →
      rule.key i ∈ held) (k : K) : k ∈ held ↔ Deliverable rule start items k := by
  refine ⟨hheld k, fun hk ↦ ?_⟩
  induction hk with
  | held hk => exact hstart hk
  | item hi haccepts _ ih => exact hclosed _ hi haccepts ih

end CausalDelivery
