import Mathlib

/-!
# Depth-first traversal with a worklist

A traversal pops the top of a stack, skips it when it is a stop or was visited before, and otherwise
visits it and pushes its successors that are not visited yet, the last one on top. `order` is the
list of visits, in order, and takes an iteration bound. `bound` is a bound that suffices over a
finite graph: every iteration pops one element, and an element of the graph pushes its successors
once.

`Reaches` is the declarative side: what can be reached from the roots without entering a stop.
`mem_order_iff` says that the traversal visits exactly that. `Reaches.congr` compares two graphs that
agree on what is reached, and `foldl_gathers` reads a loop over the visits that accumulates a
condition.

`walk` is the loop of a program that traverses a graph and does something at every visit, which may end
the loop early. It runs out of iterations or it ends; `walk_eq` says that it ends over a finite graph,
with what it does at the visits one after the other.
-/

set_option autoImplicit false
set_option relaxedAutoImplicit false

namespace DepthFirst

variable {α : Type*}

/-! ### Reachability -/

/-- Reachable from the roots along successors, without entering a stop. -/
inductive Reaches (succ : α → List α) (stop : α → Prop) (roots : List α) : α → Prop
  | root {a : α} : a ∈ roots → ¬ stop a → Reaches succ stop roots a
  | step {a b : α} : Reaches succ stop roots a → b ∈ succ a → ¬ stop b →
      Reaches succ stop roots b

/-- Reachability only reads the successors of what is reached. -/
theorem Reaches.congr {succ succ' : α → List α} {stop : α → Prop} {roots : List α}
    (h : ∀ a, Reaches succ stop roots a → ∀ b ∈ succ a, b ∈ succ' a) {a : α}
    (ha : Reaches succ stop roots a) : Reaches succ' stop roots a := by
  induction ha with
  | root hroot hstop => exact .root hroot hstop
  | step hprev hsucc hstop ih => exact .step ih (h _ hprev _ hsucc) hstop

/-- What is reached from reached roots is reached. -/
theorem Reaches.trans {succ : α → List α} {stop : α → Prop} {roots roots' : List α}
    (h : ∀ a ∈ roots', ¬ stop a → Reaches succ stop roots a) {a : α}
    (ha : Reaches succ stop roots' a) : Reaches succ stop roots a := by
  induction ha with
  | root hroot hstop => exact h _ hroot hstop
  | step _ hsucc hstop ih => exact .step ih hsucc hstop

/-- Reachability grows with the roots. -/
theorem Reaches.mono_roots {succ : α → List α} {stop : α → Prop} {roots roots' : List α}
    (h : ∀ a ∈ roots, a ∈ roots') {a : α} (ha : Reaches succ stop roots a) :
    Reaches succ stop roots' a :=
  ha.trans fun _ hroot hstop ↦ .root (h _ hroot) hstop

/-- Nothing is reached unless some root is entered. -/
theorem Reaches.exists_root {succ : α → List α} {stop : α → Prop} {roots : List α} {a : α}
    (ha : Reaches succ stop roots a) : ∃ root ∈ roots, ¬ stop root := by
  induction ha with
  | root hroot hstop => exact ⟨_, hroot, hstop⟩
  | step _ _ _ ih => exact ih

/-- A property of the roots that successors inherit holds of everything reached. -/
theorem Reaches.closed {succ : α → List α} {stop : α → Prop} {roots : List α} {P : α → Prop}
    (hroots : ∀ a ∈ roots, P a) (hsucc : ∀ a, P a → ∀ b ∈ succ a, P b) {a : α}
    (ha : Reaches succ stop roots a) : P a := by
  induction ha with
  | root hroot _ => exact hroots _ hroot
  | step _ hmem _ ih => exact hsucc _ ih _ hmem

/-! ### The traversal -/

section Traversal

variable [DecidableEq α] (succ : α → List α) (stop : α → Bool)

/-- The elements visited, in order, within a bound on the number of iterations. The head of the
list is the top of the stack. -/
def order : ℕ → List α → List α → List α
  | 0, _, _ => []
  | _ + 1, [], _ => []
  | fuel + 1, a :: stack, visited =>
    if stop a = true ∨ a ∈ visited then order fuel stack visited
    else a :: order fuel (((succ a).filter (· ∉ a :: visited)).reverse ++ stack) (a :: visited)

/-- The elements of the graph not visited yet, with the number of successors of each. -/
def pendingPushes (graph : List α) (visited : List α) : ℕ :=
  ((graph.filter (· ∉ visited)).map fun a ↦ (succ a).length).sum

/-- Enough iterations to empty a stack over a graph. -/
def bound (graph roots : List α) : ℕ :=
  roots.length + pendingPushes succ graph []

/-- Visiting an element takes its successors off the pending pushes. -/
theorem pendingPushes_cons (graph : List α) (hgraph : ∀ a, a ∉ graph → succ a = [])
    (visited : List α) (a : α) (ha : a ∉ visited) :
    (succ a).length + pendingPushes succ graph (a :: visited) ≤
      pendingPushes succ graph visited := by
  by_cases hmem : a ∈ graph
  · clear hgraph
    induction graph with
    | nil => exact absurd hmem List.not_mem_nil
    | cons b graph ih =>
      have hdrop : pendingPushes succ graph (a :: visited) ≤ pendingPushes succ graph visited := by
        refine List.Sublist.sum_le_sum (List.Sublist.map _ ?_) (fun _ _ ↦ Nat.zero_le _)
        refine List.monotone_filter_right graph fun c hc ↦ ?_
        simp only [List.mem_cons, not_or, decide_eq_true_eq] at hc ⊢
        exact hc.2
      by_cases hba : b = a
      · subst hba
        simp only [pendingPushes, List.filter_cons, List.mem_cons, true_or, not_true_eq_false,
          decide_false, Bool.false_eq_true, ↓reduceIte, ha, not_false_eq_true, decide_true,
          List.map_cons, List.sum_cons] at hdrop ⊢
        omega
      · have htail := ih ((List.mem_cons.mp hmem).resolve_left fun h ↦ hba h.symm)
        by_cases hbv : b ∈ visited
        · simpa [pendingPushes, List.filter_cons, hba, hbv] using htail
        · simp only [pendingPushes, List.filter_cons, List.mem_cons, hba, hbv, or_self,
            not_false_eq_true, decide_true, ↓reduceIte, List.map_cons, List.sum_cons] at htail ⊢
          omega
  · rw [hgraph a hmem, List.length_nil, Nat.zero_add]
    refine List.Sublist.sum_le_sum (List.Sublist.map _ ?_) (fun _ _ ↦ Nat.zero_le _)
    refine List.monotone_filter_right graph fun c hc ↦ ?_
    simp only [List.mem_cons, not_or, decide_eq_true_eq] at hc ⊢
    exact hc.2

variable {succ stop}

/-- The pushes of a visit fit in the bound that the visit leaves. -/
theorem visit_within_bound {graph : List α} (hgraph : ∀ a, a ∉ graph → succ a = []) {fuel : ℕ}
    {a : α} {stack visited : List α} (ha : a ∉ visited)
    (hfuel : (a :: stack).length + pendingPushes succ graph visited ≤ fuel + 1) :
    (((succ a).filter (· ∉ a :: visited)).reverse ++ stack).length +
      pendingPushes succ graph (a :: visited) ≤ fuel := by
  have hpush := pendingPushes_cons succ graph hgraph visited a ha
  have hfilter := List.length_filter_le (fun b ↦ decide (b ∉ a :: visited)) (succ a)
  rw [List.length_cons] at hfuel
  rw [List.length_append, List.length_reverse]
  omega

/-- Every visit is reachable from the stack and is not a stop. -/
theorem reaches_of_mem_order (fuel : ℕ) : ∀ (stack visited : List α) {a : α},
    a ∈ order succ stop fuel stack visited → Reaches succ (stop · = true) stack a := by
  induction fuel with
  | zero => intro stack visited a ha; simp [order] at ha
  | succ fuel ih =>
    intro stack visited a ha
    cases stack with
    | nil => simp [order] at ha
    | cons b stack =>
      rw [order] at ha
      split_ifs at ha with hskip
      · exact (ih stack visited ha).mono_roots fun _ hc ↦ List.mem_cons_of_mem _ hc
      · have hb : Reaches succ (stop · = true) (b :: stack) b :=
          .root List.mem_cons_self fun hstop ↦ hskip (Or.inl hstop)
        rcases List.mem_cons.mp ha with rfl | ha
        · exact hb
        · -- an element of the extended stack is a successor of `b` or was on the stack
          refine (ih _ _ ha).trans fun c hc hstop ↦ ?_
          rcases List.mem_append.mp hc with hpushed | hstack
          · exact .step hb (List.mem_filter.mp (List.mem_reverse.mp hpushed)).1 hstop
          · exact .root (List.mem_cons_of_mem _ hstack) hstop

/-- Within the bound the stack is exhausted: its elements are stops, were visited before or are
visited, and a visit has its successors visited as well. -/
theorem order_exhausts {graph : List α} (hgraph : ∀ a, a ∉ graph → succ a = []) (fuel : ℕ) :
    ∀ stack visited : List α, stack.length + pendingPushes succ graph visited ≤ fuel →
      (∀ a ∈ stack, ¬ stop a = true → a ∈ visited ∨ a ∈ order succ stop fuel stack visited) ∧
      ∀ a ∈ order succ stop fuel stack visited, ∀ b ∈ succ a, ¬ stop b = true →
        b ∈ visited ∨ b ∈ order succ stop fuel stack visited := by
  induction fuel with
  | zero =>
    intro stack visited hfuel
    have hempty : stack = [] := List.length_eq_zero_iff.mp (by omega)
    subst hempty
    simp [order]
  | succ fuel ih =>
    intro stack visited hfuel
    cases stack with
    | nil => simp [order]
    | cons a stack =>
      rw [order]
      split_ifs with hskip
      · obtain ⟨hstack, hsucc⟩ := ih stack visited (by rw [List.length_cons] at hfuel; omega)
        refine ⟨fun b hb hstop ↦ ?_, hsucc⟩
        rcases List.mem_cons.mp hb with rfl | hb
        · exact Or.inl (hskip.resolve_left hstop)
        · exact hstack b hb hstop
      · have ha : a ∉ visited := fun hv ↦ hskip (Or.inr hv)
        obtain ⟨hstack, hsucc⟩ := ih _ (a :: visited) (visit_within_bound hgraph ha hfuel)
        set rest := order succ stop fuel
          (((succ a).filter (· ∉ a :: visited)).reverse ++ stack) (a :: visited)
        have hmove : ∀ b, b ∈ a :: visited ∨ b ∈ rest → b ∈ visited ∨ b ∈ a :: rest := by
          intro b hb
          simp only [List.mem_cons] at hb ⊢
          tauto
        refine ⟨fun b hb hstop ↦ ?_, fun b hb c hc hstop ↦ ?_⟩
        · rcases List.mem_cons.mp hb with rfl | hb
          · exact Or.inr List.mem_cons_self
          · exact hmove b (hstack b (List.mem_append_right _ hb) hstop)
        · rcases List.mem_cons.mp hb with rfl | hb
          · by_cases hknown : c ∈ b :: visited
            · exact hmove c (Or.inl hknown)
            · refine hmove c (hstack c (List.mem_append_left _ ?_) hstop)
              exact List.mem_reverse.mpr (List.mem_filter.mpr ⟨hc, decide_eq_true hknown⟩)
          · exact hmove c (hsucc b hb c hc hstop)

/-- The traversal from the roots visits exactly what can be reached. -/
theorem mem_order_iff {graph roots : List α} (hgraph : ∀ a, a ∉ graph → succ a = []) {fuel : ℕ}
    (hfuel : bound succ graph roots ≤ fuel) {stack : List α} (hstack : stack = roots.reverse)
    (a : α) : a ∈ order succ stop fuel stack [] ↔ Reaches succ (stop · = true) roots a := by
  subst hstack
  constructor
  · intro ha
    exact (reaches_of_mem_order fuel _ _ ha).mono_roots fun _ hb ↦ List.mem_reverse.mp hb
  · intro ha
    obtain ⟨hroots, hsucc⟩ := @order_exhausts _ _ _ stop _ hgraph fuel roots.reverse []
      (by rw [List.length_reverse]; exact hfuel)
    induction ha with
    | root hroot hstop => simpa using hroots _ (List.mem_reverse.mpr hroot) hstop
    | step _ hmem hstop ih => simpa using hsucc _ ih _ hmem hstop

end Traversal

/-! ### The loop of a program -/

section Walk

variable [DecidableEq α] {σ ρ : Type*} (succ : α → List α) (stop : α → Bool)
  (visit : σ → α → Except ρ σ)

/-- The loop over a stack that visits what it pops, within a bound on the number of iterations. A visit
changes the state of the loop or ends it. -/
def walk : ℕ → List α → List α → σ → Option (Except ρ σ)
  | 0, _, _, _ => none
  | _ + 1, [], _, s => some (.ok s)
  | fuel + 1, a :: stack, visited, s =>
    if stop a = true ∨ a ∈ visited then walk fuel stack visited s
    else
      match visit s a with
      | .error r => some (.error r)
      | .ok s => walk fuel (((succ a).filter (· ∉ a :: visited)).reverse ++ stack) (a :: visited) s

variable {succ stop}

/-- Within the bound the loop ends, after the visits of the traversal one after the other. -/
theorem walk_eq {graph : List α} (hgraph : ∀ a, a ∉ graph → succ a = []) (fuel : ℕ) :
    ∀ (stack visited : List α) (s : σ), stack.length + pendingPushes succ graph visited ≤ fuel →
      walk succ stop visit (fuel + 1) stack visited s =
        some ((order succ stop fuel stack visited).foldlM visit s) := by
  induction fuel with
  | zero =>
    intro stack visited s hfuel
    have hempty : stack = [] := List.length_eq_zero_iff.mp (by omega)
    subst hempty
    rfl
  | succ fuel ih =>
    intro stack visited s hfuel
    cases stack with
    | nil => rfl
    | cons a stack =>
      rw [walk, order]
      by_cases hskip : stop a = true ∨ a ∈ visited
      · rw [if_pos hskip, if_pos hskip]
        exact ih stack visited s (by rw [List.length_cons] at hfuel; omega)
      · have ha : a ∉ visited := fun hv ↦ hskip (Or.inr hv)
        rw [if_neg hskip, if_neg hskip, List.foldlM_cons]
        cases hvisit : visit s a with
        | error r => rfl
        | ok next => exact ih _ _ next (visit_within_bound hgraph ha hfuel)

/-- A loop that ends takes no notice of further iterations. -/
theorem walk_mono {fuel : ℕ} : ∀ {more : ℕ} {stack visited : List α} {s : σ} {r : Except ρ σ},
    fuel ≤ more → walk succ stop visit fuel stack visited s = some r →
      walk succ stop visit more stack visited s = some r := by
  induction fuel with
  | zero => exact fun _ hends ↦ absurd hends (by simp [walk])
  | succ fuel ih =>
    intro more stack visited s r hmore hends
    obtain ⟨more, rfl⟩ := Nat.exists_eq_add_of_le' (Nat.succ_le_of_lt hmore)
    have hle : fuel ≤ fuel + more := Nat.le_add_right fuel more
    rw [show more + (fuel + 1) = fuel + more + 1 by omega]
    cases stack with
    | nil => exact hends
    | cons a stack =>
      rw [walk] at hends ⊢
      split_ifs at hends ⊢ with hskip
      · exact ih hle hends
      · cases hvisit : visit s a with
        | error e => rwa [hvisit] at hends
        | ok next =>
          rw [hvisit] at hends
          exact ih hle hends

end Walk

/-! ### What a pass over the visits gathers -/

/-- A condition that every step of a loop adds to holds at the end when it held at the start or some
step added to it. -/
theorem foldl_gathers {σ : Type*} {f : σ → α → σ} {P : σ → Prop} {Q : α → Prop}
    (hstep : ∀ s a, P (f s a) ↔ P s ∨ Q a) (l : List α) (s : σ) :
    P (l.foldl f s) ↔ P s ∨ ∃ a ∈ l, Q a := by
  induction l generalizing s with
  | nil => simp
  | cons a l ih =>
    rw [List.foldl_cons, ih, hstep, or_assoc, List.exists_mem_cons_iff]

end DepthFirst
