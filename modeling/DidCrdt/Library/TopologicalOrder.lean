import DidCrdt.Library.Reconciliation

/-!
# Topological order by counting

Kahn's algorithm pops an element none of whose parents is outstanding, and counts for every child how
many of its edges lead to elements that are still outstanding (`waiting`). `Stage` is its invariant: the
ready elements are those of the outstanding ones that wait for nothing. Popping one keeps it
(`Stage.pop`), and when nothing is ready any more and the edges have no cycle, everything was popped
(`Stage.covers`).

An edge is a pair of a child and a parent; edges may be repeated.
-/

set_option autoImplicit false
set_option relaxedAutoImplicit false

namespace TopologicalOrder

open Reconciliation (Acyclic)
open scoped List

variable {α : Type*}

/-! ### Orders -/

/-- The parents of every element come before it, or were there before the order. -/
def ParentsFirst (parent : α → α → Prop) : List α → List α → Prop
  | _, [] => True
  | done, a :: rest => (∀ p, parent a p → p ∈ done) ∧ ParentsFirst parent (done ++ [a]) rest

theorem ParentsFirst.imp {parent weaker : α → α → Prop} (himp : ∀ a p, weaker a p → parent a p)
    (order : List α) : ∀ done : List α, ParentsFirst parent done order →
      ParentsFirst weaker done order := by
  induction order with
  | nil => exact fun _ _ ↦ trivial
  | cons a order ih => exact fun done h ↦ ⟨fun p hp ↦ h.1 p (himp a p hp), ih _ h.2⟩

/-- A parent has a smaller position than its child. The induction moves the position at which the order
starts. -/
theorem ParentsFirst.idxOf_lt [DecidableEq α] {parent : α → α → Prop} {a p : α} (hparent : parent a p)
    (order : List α) : ∀ done : List α, ParentsFirst parent done order → a ∉ done → a ∈ order →
      (done ++ order).idxOf p < (done ++ order).idxOf a := by
  induction order with
  | nil => exact fun done _ _ ha ↦ absurd ha List.not_mem_nil
  | cons b order ih =>
    intro done hordered hnot ha
    by_cases hhead : a = b
    · subst hhead
      have hearlier := hordered.1 p hparent
      rw [List.idxOf_append_of_mem hearlier, List.idxOf_append_of_notMem hnot]
      exact Nat.lt_add_right _ (List.idxOf_lt_length_of_mem hearlier)
    · have hrest := ih (done ++ [b]) hordered.2 (by simp [hnot, hhead])
        ((List.mem_cons.mp ha).resolve_left hhead)
      rwa [List.append_assoc, List.singleton_append] at hrest

/-! ### Counting edges -/

variable [DecidableEq α] {edges : List (α × α)} {keys out ready : List α} {a c p : α}

/-- The children of a parent, once for each edge. -/
def childrenOf (edges : List (α × α)) (p : α) : List α :=
  (edges.filter fun e ↦ e.2 = p).map Prod.fst

/-- The edges of a child that lead to elements which were not popped. -/
def waiting (edges : List (α × α)) (out : List α) (c : α) : ℕ :=
  edges.countP fun e ↦ e.1 = c ∧ e.2 ∉ out

theorem mem_childrenOf : c ∈ childrenOf edges p ↔ (c, p) ∈ edges := by
  simp [childrenOf]

theorem waiting_eq_zero_iff : waiting edges out c = 0 ↔ ∀ p, (c, p) ∈ edges → p ∈ out := by
  rw [waiting, List.countP_eq_zero]
  constructor
  · intro h p hp
    by_contra hnot
    exact h (c, p) hp (by simp [hnot])
  · rintro h ⟨child, p⟩ he hwait
    obtain ⟨rfl, hnot⟩ := of_decide_eq_true hwait
    exact hnot (h p he)

/-- Popping an element takes its edges off the counts of its children. -/
theorem waiting_concat (edges : List (α × α)) (c : α) (hp : p ∉ out) :
    waiting edges (out ++ [p]) c + (childrenOf edges p).count c = waiting edges out c := by
  induction edges with
  | nil => rfl
  | cons e edges ih =>
    unfold waiting childrenOf at ih ⊢
    rw [List.countP_cons, List.countP_cons, ← ih, List.filter_cons]
    by_cases hparent : e.2 = p
    · subst hparent
      by_cases hchild : e.1 = c
      · simp [hchild, hp]
        omega
      · simp [hchild]
    · by_cases hchild : e.1 = c
      · by_cases hout : e.2 ∈ out
        · simp [hparent, hchild, hout]
        · simp [hparent, hchild, hout]
          omega
      · simp [hparent, hchild]

/-! ### Stages -/

/-- The algorithm under way: some elements were popped, each after its parents, and the ready elements
are the outstanding ones that wait for nothing. -/
structure Stage (keys : List α) (edges : List (α × α)) (out ready : List α) : Prop where
  nodup : (out ++ ready).Nodup
  sub : ∀ a ∈ out, a ∈ keys
  closed : ∀ a ∈ out, ∀ p, (a, p) ∈ edges → p ∈ out
  ready : ∀ a, a ∈ ready ↔ a ∈ keys ∧ a ∉ out ∧ waiting edges out a = 0

namespace Stage

/-- A ready element has its parents popped. -/
theorem parents (h : Stage keys edges out (a :: ready)) (hp : (a, p) ∈ edges) : p ∈ out :=
  waiting_eq_zero_iff.mp ((h.ready a).mp List.mem_cons_self).2.2 p hp

/-- Assumes: children are among the elements. Popping a ready element, with the children that wait for
nothing from then on as further ready elements. -/
theorem pop (h : Stage keys edges out (a :: ready)) (hkeys : ∀ e ∈ edges, e.1 ∈ keys)
    {unlocked next : List α} (hunlocked : ∀ c, c ∈ unlocked ↔
      c ∈ childrenOf edges a ∧ waiting edges (out ++ [a]) c = 0)
    (hnodup : unlocked.Nodup) (hnext : next.Perm (unlocked ++ ready)) :
    Stage keys edges (out ++ [a]) next := by
  obtain ⟨hout, hready, hdisjoint⟩ := List.nodup_append.mp h.nodup
  have hnew : a ∉ out := fun hmem ↦ hdisjoint a hmem a List.mem_cons_self rfl
  -- a child of the popped element waited for it
  have hwaited : ∀ c, c ∈ childrenOf edges a → waiting edges out c ≠ 0 := fun c hc hzero ↦
    hnew (waiting_eq_zero_iff.mp hzero a (mem_childrenOf.mp hc))
  have hfresh : ∀ c ∈ unlocked, c ∉ out ∧ c ∉ a :: ready := by
    intro c hc
    obtain ⟨hchild, _⟩ := (hunlocked c).mp hc
    refine ⟨fun hmem ↦ hnew (h.closed c hmem a (mem_childrenOf.mp hchild)), fun hmem ↦ ?_⟩
    exact hwaited c hchild ((h.ready c).mp hmem).2.2
  refine ⟨?_, fun b hb ↦ ?_, fun b hb p hp ↦ ?_, fun b ↦ ?_⟩
  · have hrest : (unlocked ++ (out ++ a :: ready)).Nodup := by
      refine List.nodup_append.mpr ⟨hnodup, h.nodup, fun c hc b hb heq ↦ ?_⟩
      subst heq
      exact (List.mem_append.mp hb).elim (hfresh c hc).1 (hfresh c hc).2
    refine (List.Perm.nodup_iff ?_).mp hrest
    calc unlocked ++ (out ++ a :: ready)
      _ ~ (out ++ a :: ready) ++ unlocked := List.perm_append_comm
      _ = (out ++ [a]) ++ (ready ++ unlocked) := by simp
      _ ~ (out ++ [a]) ++ next := (List.perm_append_comm.trans hnext.symm).append_left _
  · rcases List.mem_append.mp hb with hb | hb
    · exact h.sub b hb
    · rw [List.mem_singleton.mp hb]
      exact ((h.ready a).mp List.mem_cons_self).1
  · rcases List.mem_append.mp hb with hb | hb
    · exact List.mem_append_left _ (h.closed b hb p hp)
    · rw [List.mem_singleton.mp hb] at hp
      exact List.mem_append_left _ (h.parents hp)
  · rw [hnext.mem_iff, List.mem_append]
    have hcount := waiting_concat edges b hnew
    constructor
    · rintro (hb | hb)
      · obtain ⟨hchild, hzero⟩ := (hunlocked b).mp hb
        obtain ⟨hnotOut, hnotReady⟩ := hfresh b hb
        have hne : b ≠ a := fun heq ↦ hnotReady (heq ▸ List.mem_cons_self)
        exact ⟨hkeys _ (mem_childrenOf.mp hchild), by simp [hnotOut, hne], hzero⟩
      · obtain ⟨hkey, hnotOut, hzero⟩ := (h.ready b).mp (List.mem_cons_of_mem a hb)
        have hne : b ≠ a := fun heq ↦ (List.nodup_cons.mp hready).1 (heq ▸ hb)
        exact ⟨hkey, by simp [hnotOut, hne], by omega⟩
    · rintro ⟨hkey, hnotOut, hzero⟩
      rw [List.mem_append, List.mem_singleton, not_or] at hnotOut
      by_cases hchild : b ∈ childrenOf edges a
      · exact Or.inl ((hunlocked b).mpr ⟨hchild, hzero⟩)
      · rw [List.count_eq_zero_of_not_mem hchild, hzero] at hcount
        have hmem := (h.ready b).mpr ⟨hkey, hnotOut.1, hcount.symm⟩
        exact Or.inr ((List.mem_cons.mp hmem).resolve_left hnotOut.2)

/-- Assumes: parents are among the elements and the edges have no cycle. When nothing is ready, every
element was popped. -/
theorem covers (h : Stage keys edges out []) (hkeys : ∀ e ∈ edges, e.2 ∈ keys)
    (hacyclic : Acyclic fun c p ↦ (c, p) ∈ edges) : ∀ a ∈ keys, a ∈ out := by
  by_contra hnot
  push Not at hnot
  have hfinite : {a | a ∈ keys ∧ a ∉ out}.Finite := keys.finite_toSet.subset fun a ha ↦ ha.1
  obtain ⟨a, ⟨ha, hleft⟩, hlast⟩ := hacyclic.swap.exists_top hfinite hnot
  have hwaits : waiting edges out a ≠ 0 := fun hzero ↦
    List.not_mem_nil ((h.ready a).mpr ⟨ha, hleft, hzero⟩)
  apply hwaits
  rw [waiting_eq_zero_iff]
  intro p hp
  by_contra hwaiting
  exact hlast p ⟨hkeys _ hp, hwaiting⟩ hp

end Stage

end TopologicalOrder
