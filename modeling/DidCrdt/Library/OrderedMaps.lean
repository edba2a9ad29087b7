import Mathlib

/-!
# Ordered maps over a linear order

Extensional tree maps and sets, keyed by a linear order, are the finite maps and sets of the
development: they iterate in key order, and two of them with the same entries are equal. This module
states their lookups with the key test written as an equation, and adds one operation, `absorb`: the
loop over the entries of one map that updates the entry of the same key in another.
`getElem?_absorb` reads that loop pointwise. Lists of insertions into a set and of erasures from one
are `insertAll` and `eraseAll`, and `sortDedup` lists the elements of a list in ascending order.
-/

set_option autoImplicit false
set_option relaxedAutoImplicit false

namespace OrderedMaps

open Std (ExtTreeMap ExtTreeSet TransOrd LawfulEqOrd LawfulEqCmp)

/-- The comparison of a linear order answers `eq` on equal elements only. -/
instance (priority := low) lawfulEqOrd {α : Type*} [LinearOrder α] : LawfulEqOrd α where
  eq_of_compare {a b} h := by
    rw [LinearOrder.compare_eq_compareOfLessAndEq] at h
    exact (compareOfLessAndEq_eq_eq le_refl not_le).mp h

section Lookups

variable {α β : Type*} [Ord α] [TransOrd α] [LawfulEqOrd α]

theorem getElem?_insert [DecidableEq α] (m : ExtTreeMap α β compare) (k a : α) (v : β) :
    (m.insert k v)[a]? = if k = a then some v else m[a]? := by
  rw [ExtTreeMap.getElem?_insert]
  exact if_congr LawfulEqCmp.compare_eq_iff_eq rfl rfl

theorem getElem?_erase [DecidableEq α] (m : ExtTreeMap α β compare) (k a : α) :
    (m.erase k)[a]? = if k = a then none else m[a]? := by
  rw [ExtTreeMap.getElem?_erase]
  exact if_congr LawfulEqCmp.compare_eq_iff_eq rfl rfl

theorem getElem?_alter [DecidableEq α] (m : ExtTreeMap α β compare) (k a : α)
    (f : Option β → Option β) : (m.alter k f)[a]? = if k = a then f m[a]? else m[a]? := by
  rw [ExtTreeMap.getElem?_alter]
  by_cases h : k = a
  · rw [if_pos (LawfulEqCmp.compare_eq_iff_eq.mpr h), if_pos h, h]
  · rw [if_neg fun hcmp ↦ h (LawfulEqCmp.compare_eq_iff_eq.mp hcmp), if_neg h]

theorem getElem?_modify [DecidableEq α] (m : ExtTreeMap α β compare) (k a : α) (f : β → β) :
    (m.modify k f)[a]? = if k = a then m[a]?.map f else m[a]? := by
  rw [ExtTreeMap.getElem?_modify]
  by_cases h : k = a
  · rw [if_pos (LawfulEqCmp.compare_eq_iff_eq.mpr h), if_pos h, h]
  · rw [if_neg fun hcmp ↦ h (LawfulEqCmp.compare_eq_iff_eq.mp hcmp), if_neg h]

omit [LawfulEqOrd α] in
theorem contains_iff (m : ExtTreeMap α β compare) (a : α) :
    m.contains a = true ↔ ∃ v, m[a]? = some v := by
  rw [ExtTreeMap.contains_eq_isSome_getElem?, Option.isSome_iff_exists]

theorem mem_toList_iff (m : ExtTreeMap α β compare) (a : α) (v : β) :
    (a, v) ∈ m.toList ↔ m[a]? = some v :=
  ExtTreeMap.mem_toList_iff_getElem?_eq_some

theorem mem_keys_iff (m : ExtTreeMap α β compare) (a : α) :
    a ∈ m.keys ↔ ∃ v, m[a]? = some v := by
  rw [ExtTreeMap.mem_keys, ← ExtTreeMap.contains_iff_mem, contains_iff]

theorem mem_values_iff (m : ExtTreeMap α β compare) (v : β) :
    v ∈ m.toList.map Prod.snd ↔ ∃ a : α, m[a]? = some v := by
  simp only [List.mem_map, Prod.exists, exists_eq_right, mem_toList_iff]

theorem set_mem_insert (s : ExtTreeSet α compare) (k a : α) :
    a ∈ s.insert k ↔ a = k ∨ a ∈ s := by
  rw [ExtTreeSet.mem_insert, LawfulEqCmp.compare_eq_iff_eq, eq_comm]

theorem set_mem_erase (s : ExtTreeSet α compare) (k a : α) :
    a ∈ s.erase k ↔ a ≠ k ∧ a ∈ s := by
  rw [ExtTreeSet.mem_erase, ne_eq, ne_eq, LawfulEqCmp.compare_eq_iff_eq, eq_comm (a := k)]

end Lookups

section SetLoops

variable {α : Type*} [Ord α] [TransOrd α] [LawfulEqOrd α]

/-- Inserts every element of a list into a set, in order. -/
def insertAll (s : ExtTreeSet α compare) (l : List α) : ExtTreeSet α compare :=
  l.foldl (fun t a ↦ t.insert a) s

/-- Erases every element of a list from a set, in order. -/
def eraseAll (s : ExtTreeSet α compare) (l : List α) : ExtTreeSet α compare :=
  l.foldl (fun t a ↦ t.erase a) s

@[simp] theorem mem_insertAll (s : ExtTreeSet α compare) (l : List α) (a : α) :
    a ∈ insertAll s l ↔ a ∈ l ∨ a ∈ s := by
  induction l generalizing s with
  | nil => simp [insertAll]
  | cons b l ih =>
    have hstep : insertAll s (b :: l) = insertAll (s.insert b) l := rfl
    rw [hstep, ih, set_mem_insert, List.mem_cons]
    tauto

@[simp] theorem mem_eraseAll (s : ExtTreeSet α compare) (l : List α) (a : α) :
    a ∈ eraseAll s l ↔ a ∉ l ∧ a ∈ s := by
  induction l generalizing s with
  | nil => simp [eraseAll]
  | cons b l ih =>
    have hstep : eraseAll s (b :: l) = eraseAll (s.erase b) l := rfl
    rw [hstep, ih, set_mem_erase, List.mem_cons]
    tauto

end SetLoops

section Sorting

variable {α : Type*} [LinearOrder α]

/-- The elements of a list in ascending order, without repetition. -/
def sortDedup (l : List α) : List α :=
  (l.insertionSort (· ≤ ·)).destutter (· ≠ ·)

@[simp] theorem mem_sortDedup (l : List α) (a : α) : a ∈ sortDedup l ↔ a ∈ l := by
  rw [sortDedup, (List.pairwise_insertionSort (· ≤ ·) l).destutter_eq_dedup, List.mem_dedup,
    List.mem_insertionSort]

@[simp] theorem sortDedup_eq_nil_iff (l : List α) : sortDedup l = [] ↔ l = [] := by
  simp only [List.eq_nil_iff_forall_not_mem, mem_sortDedup]

theorem pairwise_sortDedup (l : List α) : (sortDedup l).Pairwise (· < ·) := by
  have hsorted := List.pairwise_insertionSort (· ≤ ·) l
  rw [sortDedup, hsorted.destutter_eq_dedup]
  have hle := hsorted.sublist (List.dedup_sublist (l.insertionSort (· ≤ ·)))
  exact (hle.and (List.nodup_dedup _)).imp fun hpair ↦ lt_of_le_of_ne hpair.1 hpair.2

theorem nodup_sortDedup (l : List α) : (sortDedup l).Nodup :=
  (pairwise_sortDedup l).imp ne_of_lt

/-- The elements alone determine the sorted list. -/
theorem sortDedup_congr {l l' : List α} (h : ∀ a, a ∈ l ↔ a ∈ l') : sortDedup l = sortDedup l' := by
  refine (pairwise_sortDedup l).eq_of_mem_iff (pairwise_sortDedup l') fun a ↦ ?_
  rw [mem_sortDedup, mem_sortDedup, h]

/-- Sorting forgets the order. -/
theorem insertionSort_congr {l l' : List α} (h : l.Perm l') :
    l.insertionSort (· ≤ ·) = l'.insertionSort (· ≤ ·) := by
  refine List.Perm.eq_of_pairwise' (List.pairwise_insertionSort (· ≤ ·) l)
    (List.pairwise_insertionSort (· ≤ ·) l') ?_
  exact (List.perm_insertionSort _ l).trans (h.trans (List.perm_insertionSort _ l').symm)

end Sorting

section Absorb

variable {α β γ : Type*} [Ord α] [TransOrd α] [LawfulEqOrd α]

/-- The loop over the entries of `source` that updates the entry of the same key in `target`: the
update sees the key, the entry of `source` and the entry of `target` if there is one. -/
def absorb (update : α → β → Option γ → Option γ) (target : ExtTreeMap α γ compare)
    (source : ExtTreeMap α β compare) : ExtTreeMap α γ compare :=
  source.toList.foldl (fun m entry ↦ m.alter entry.1 (update entry.1 entry.2)) target

/-- The loop leaves alone a key that no entry of the list carries. -/
theorem getElem?_foldl_alter_of_not_mem (update : α → β → Option γ → Option γ)
    (l : List (α × β)) (a : α) (hl : ∀ entry ∈ l, entry.1 ≠ a) :
    ∀ m : ExtTreeMap α γ compare,
      (l.foldl (fun m entry ↦ m.alter entry.1 (update entry.1 entry.2)) m)[a]? = m[a]? := by
  classical
  induction l with
  | nil => intro m; rfl
  | cons entry l ih =>
    intro m
    rw [List.foldl_cons, ih fun e he ↦ hl e (List.mem_cons_of_mem _ he), getElem?_alter,
      if_neg (hl entry List.mem_cons_self)]

/-- The loop updates the key of an entry of the list once, when the keys of the list are
distinct. -/
theorem getElem?_foldl_alter_of_mem (update : α → β → Option γ → Option γ)
    (l : List (α × β)) (hl : l.Pairwise fun x y ↦ x.1 ≠ y.1) (a : α) (v : β) (hv : (a, v) ∈ l) :
    ∀ m : ExtTreeMap α γ compare,
      (l.foldl (fun m entry ↦ m.alter entry.1 (update entry.1 entry.2)) m)[a]? =
        update a v m[a]? := by
  classical
  induction l with
  | nil => exact absurd hv List.not_mem_nil
  | cons entry l ih =>
    intro m
    obtain ⟨hhead, htail⟩ := List.pairwise_cons.mp hl
    rw [List.foldl_cons]
    rcases List.mem_cons.mp hv with hhere | hlater
    · subst hhere
      rw [getElem?_foldl_alter_of_not_mem update l a (fun e he heq ↦ hhead e he heq.symm),
        getElem?_alter, if_pos rfl]
    · rw [ih htail hlater, getElem?_alter, if_neg (hhead (a, v) hlater)]

/-- The loop read pointwise. -/
theorem getElem?_absorb (update : α → β → Option γ → Option γ) (target : ExtTreeMap α γ compare)
    (source : ExtTreeMap α β compare) (a : α) :
    (absorb update target source)[a]? =
      match source[a]? with
      | some v => update a v target[a]?
      | none => target[a]? := by
  have hdistinct : source.toList.Pairwise fun x y ↦ x.1 ≠ y.1 :=
    ExtTreeMap.distinct_keys_toList.imp fun hne heq ↦ hne (LawfulEqCmp.compare_eq_iff_eq.mpr heq)
  cases hsource : source[a]? with
  | some v =>
    exact getElem?_foldl_alter_of_mem update _ hdistinct a v
      ((mem_toList_iff source a v).mpr hsource) target
  | none =>
    refine getElem?_foldl_alter_of_not_mem update _ a (fun entry hentry heq ↦ ?_) target
    have hfound := (mem_toList_iff source entry.1 entry.2).mp hentry
    rw [heq, hsource] at hfound
    exact absurd hfound (by simp)

/-- Inserting the entries of a map into the empty map gives the map back. -/
theorem foldl_insert_toList (m : ExtTreeMap α β compare) :
    m.toList.foldl (fun t entry ↦ t.insert entry.1 entry.2) ∅ = m := by
  classical
  have hinsert : ∀ (t : ExtTreeMap α β compare) (entry : α × β),
      t.insert entry.1 entry.2 = t.alter entry.1 fun _ ↦ some entry.2 := by
    intro t entry
    refine ExtTreeMap.ext_getElem? fun {a} ↦ ?_
    rw [getElem?_insert, getElem?_alter]
  have habsorb : m.toList.foldl (fun t entry ↦ t.insert entry.1 entry.2) ∅ =
      absorb (fun _ v _ ↦ some v) ∅ m := by
    simp only [hinsert]
    rfl
  refine ExtTreeMap.ext_getElem? fun {a} ↦ ?_
  rw [habsorb, getElem?_absorb]
  cases m[a]? with
  | none => simp
  | some v => rfl

end Absorb

end OrderedMaps
