import Mathlib.Data.List.Induction
import Mathlib.Data.List.Nodup
import Mathlib.Order.Lattice

/-!
# Records and maps

A record is written member by member, without the parts that are left out (`written`), so that its names are
among those of its parts (`names_written_sublist`).

A map is written as the list of its entries with ascending keys. Entries are collected into one with the last
value of every key (`ofEntries`), which leaves a list with ascending keys as it is.
-/

set_option autoImplicit false
set_option relaxedAutoImplicit false

namespace Records

variable {V : Type*}

/-! ### Records of which parts are left out -/

/-- The members that have a value. -/
def written (parts : List (String × Option V)) : List (String × V) :=
  parts.filterMap fun p ↦ p.2.map fun v ↦ (p.1, v)

theorem mem_written {parts : List (String × Option V)} {name : String} {v : V} :
    (name, v) ∈ written parts ↔ (name, some v) ∈ parts := by
  rw [written, List.mem_filterMap]
  constructor
  · rintro ⟨⟨name', v'⟩, hp, hv⟩
    obtain ⟨w, rfl, heq⟩ := Option.map_eq_some_iff.mp hv
    obtain ⟨rfl, rfl⟩ := Prod.mk.inj heq
    exact hp
  · intro h
    exact ⟨_, h, rfl⟩

theorem forall_mem_written {parts : List (String × Option V)} {P : V → Prop} :
    (∀ m ∈ written parts, P m.2) ↔ ∀ p ∈ parts, ∀ v ∈ p.2, P v := by
  constructor
  · intro h p hp v hv
    exact h (p.1, v) (mem_written.mpr (hv ▸ hp))
  · intro h m hm
    exact h _ (mem_written.mp hm) m.2 rfl

theorem names_written_sublist (parts : List (String × Option V)) :
    ((written parts).map Prod.fst).Sublist (parts.map Prod.fst) := by
  induction parts with
  | nil => exact List.Sublist.refl []
  | cons p parts ih =>
    obtain ⟨name, v⟩ := p
    cases v with
    | none => exact ih.cons name
    | some v => exact ih.cons_cons name

/-! ### Maps -/

variable {K : Type*} [LinearOrder K]

/-- The keys are ascending. -/
def Ascending (entries : List (K × V)) : Prop := entries.Pairwise fun m n ↦ m.1 < n.1

/-- An entry is put in its place, in place of one with the same key. -/
def insertEntry (k : K) (v : V) : List (K × V) → List (K × V)
  | [] => [(k, v)]
  | m :: entries =>
    if k < m.1 then (k, v) :: m :: entries
    else if k = m.1 then (k, v) :: entries
    else m :: insertEntry k v entries

/-- The map of some entries, with the last value of every key. -/
def ofEntries (entries : List (K × V)) : List (K × V) :=
  entries.foldl (fun map m ↦ insertEntry m.1 m.2 map) []

theorem mem_insertEntry {k : K} {v : V} {entries : List (K × V)} {m : K × V}
    (h : m ∈ insertEntry k v entries) : m = (k, v) ∨ m ∈ entries := by
  induction entries with
  | nil => exact Or.inl (List.mem_singleton.mp h)
  | cons n entries ih =>
    rw [insertEntry] at h
    split_ifs at h
    · exact List.mem_cons.mp h
    · exact (List.mem_cons.mp h).imp_right (List.mem_cons_of_mem n)
    · rcases List.mem_cons.mp h with rfl | h
      · exact Or.inr List.mem_cons_self
      · exact (ih h).imp_right (List.mem_cons_of_mem n)

theorem ascending_insertEntry (k : K) (v : V) {entries : List (K × V)} (h : Ascending entries) :
    Ascending (insertEntry k v entries) := by
  induction entries with
  | nil => exact List.pairwise_singleton _ _
  | cons n entries ih =>
    obtain ⟨hfirst, hrest⟩ := List.pairwise_cons.mp h
    rw [insertEntry]
    split_ifs with hlt heq
    · refine List.pairwise_cons.mpr ⟨fun m hm ↦ ?_, h⟩
      rcases List.mem_cons.mp hm with rfl | hm
      · exact hlt
      · exact hlt.trans (hfirst m hm)
    · exact List.pairwise_cons.mpr ⟨fun m hm ↦ heq ▸ hfirst m hm, hrest⟩
    · refine List.pairwise_cons.mpr ⟨fun m hm ↦ ?_, ih hrest⟩
      rcases mem_insertEntry hm with rfl | hm
      · exact lt_of_le_of_ne (not_lt.mp hlt) (Ne.symm heq)
      · exact hfirst m hm

theorem insertEntry_of_lt {k : K} {v : V} {entries : List (K × V)} (h : ∀ m ∈ entries, m.1 < k) :
    insertEntry k v entries = entries ++ [(k, v)] := by
  induction entries with
  | nil => rfl
  | cons n entries ih =>
    have hn := h n List.mem_cons_self
    rw [insertEntry, if_neg hn.asymm, if_neg hn.ne', ih fun m hm ↦ h m (List.mem_cons_of_mem n hm)]
    rfl

theorem ascending_ofEntries (entries : List (K × V)) : Ascending (ofEntries entries) := by
  induction entries using List.reverseRecOn with
  | nil => exact List.Pairwise.nil
  | append_singleton entries n ih =>
    rw [ofEntries, List.foldl_append, List.foldl_cons, List.foldl_nil]
    exact ascending_insertEntry n.1 n.2 ih

/-- Entries with ascending keys are the entries of a map. -/
theorem ofEntries_of_ascending {entries : List (K × V)} (h : Ascending entries) :
    ofEntries entries = entries := by
  induction entries using List.reverseRecOn with
  | nil => rfl
  | append_singleton entries n ih =>
    obtain ⟨hrest, -, hlt⟩ := List.pairwise_append.mp h
    have hstep : ofEntries (entries ++ [n]) = insertEntry n.1 n.2 (ofEntries entries) := by
      rw [ofEntries, List.foldl_append, List.foldl_cons, List.foldl_nil, ofEntries]
    rw [hstep, ih hrest, insertEntry_of_lt fun m hm ↦ hlt m hm n (List.mem_singleton_self n)]

end Records
