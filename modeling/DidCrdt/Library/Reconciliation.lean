import Mathlib

/-!
# Reconciliation over an acyclic relation

Elements name others as their parents. A collection is pulled from a source when everything that came
in has its parents in it (`Pulled`); what was there before may still lack parents. `Pulled.covers`
says when a collection pulled from a finite source without cycles holds all of it: when it holds the
tops of the source, which no element of the source names, and the elements of the source that were
named and absent before.
-/

set_option autoImplicit false
set_option relaxedAutoImplicit false

namespace Reconciliation

variable {α : Type*} {parent : α → α → Prop}

/-- No element is among its own ancestors. -/
def Acyclic (parent : α → α → Prop) : Prop :=
  ∀ a, ¬ Relation.TransGen parent a a

/-- Parents of a lower rank make no cycle. -/
theorem Acyclic.of_rank (rank : α → ℕ) (hlower : ∀ a b, parent a b → rank b < rank a) :
    Acyclic parent := by
  have hancestor : ∀ a b, Relation.TransGen parent a b → rank b < rank a := by
    intro a b hab
    induction hab with
    | single hab => exact hlower _ _ hab
    | tail _ hbc ih => exact (hlower _ _ hbc).trans ih
  exact fun a ha ↦ (hancestor a a ha).false

/-- A finite collection has an element that no element of it names. -/
theorem Acyclic.exists_top {s : Set α} (hacyclic : Acyclic parent) (hfinite : s.Finite)
    (hne : s.Nonempty) : ∃ a ∈ s, ∀ b ∈ s, ¬ parent b a := by
  obtain ⟨a, ha⟩ := hne
  have hwf : WellFounded fun x y : s ↦ Relation.TransGen parent x.1 y.1 := by
    have : Finite s := hfinite
    have : IsTrans s fun x y ↦ Relation.TransGen parent x.1 y.1 := ⟨fun _ _ _ ↦ .trans⟩
    have : Std.Irrefl fun x y : s ↦ Relation.TransGen parent x.1 y.1 := ⟨fun x ↦ hacyclic x.1⟩
    exact Finite.wellFounded_of_trans_of_irrefl _
  obtain ⟨⟨top, htop⟩, _, hleast⟩ := hwf.has_min Set.univ ⟨⟨a, ha⟩, trivial⟩
  exact ⟨top, htop, fun b hb hparent ↦ hleast ⟨b, hb⟩ trivial (.single hparent)⟩

theorem Acyclic.mono {weaker : α → α → Prop} (hacyclic : Acyclic parent)
    (himp : ∀ a b, weaker a b → parent a b) : Acyclic weaker :=
  fun a ha ↦ hacyclic a (Relation.TransGen.mono himp a a ha)

theorem Acyclic.swap (hacyclic : Acyclic parent) : Acyclic (Function.swap parent) :=
  fun a ha ↦ hacyclic a (Relation.transGen_swap.mp ha)

/-- The new collection extends the old one, and what came in has its parents in it. -/
structure Pulled (parent : α → α → Prop) (old new : Set α) : Prop where
  sub : old ⊆ new
  filled : ∀ a ∈ new, a ∉ old → ∀ b, parent a b → b ∈ new

namespace Pulled

variable {old new more source : Set α}

theorem refl (old : Set α) : Pulled parent old old :=
  ⟨subset_rfl, fun _ ha hnot ↦ absurd ha hnot⟩

/-- Further elements, whose parents are in the collection or among them. -/
theorem extend (h : Pulled parent old new)
    (hmore : ∀ a ∈ more, ∀ b, parent a b → b ∈ new ∪ more) : Pulled parent old (new ∪ more) where
  sub := h.sub.trans Set.subset_union_left
  filled a ha hnot b hb := by
    rcases ha with ha | ha
    · exact Or.inl (h.filled a ha hnot b hb)
    · exact hmore a ha b hb

/-- Assumes: a finite source without cycles. A collection pulled from an old one holds the source when
it holds its tops, and every element of the source that an old element names. -/
theorem covers (h : Pulled parent old new) (hfinite : source.Finite) (hacyclic : Acyclic parent)
    (htops : ∀ a ∈ source, (∀ b ∈ source, ¬ parent b a) → a ∈ new)
    (hgaps : ∀ b ∈ old, ∀ a ∈ source, parent b a → a ∈ new) : source ⊆ new := by
  by_contra hnot
  have hlost : {a | a ∈ source ∧ a ∉ new}.Nonempty := Set.not_subset.mp hnot
  -- a missing element that no missing element names
  obtain ⟨top, ⟨htop, hmissing⟩, hunnamed⟩ :=
    hacyclic.exists_top (hfinite.subset fun a ha ↦ ha.1) hlost
  apply hmissing
  by_cases hnamed : ∃ b ∈ source, parent b top
  · obtain ⟨b, hb, hparent⟩ := hnamed
    have hheld : b ∈ new := by
      by_contra hlost
      exact hunnamed b ⟨hb, hlost⟩ hparent
    by_cases hold : b ∈ old
    · exact hgaps b hold top htop hparent
    · exact h.filled b hheld hold top hparent
  · push Not at hnamed
    exact htops top htop hnamed

end Pulled

end Reconciliation
