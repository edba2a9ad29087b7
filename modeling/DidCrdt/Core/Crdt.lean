import DidCrdt.Core.Delta
import DidCrdt.Library.LastWriter
import DidCrdt.Library.ObservedRemove

/-!
# The typed fields of a document

Each field of a document wraps one replicated type: grow-only sets, last-writer-wins registers, a
map of such registers, a latch, and the observed-remove set of service endpoints. This module states
the operations of each as the source computes them, with what an operation does to the entries.

The service endpoints keep the live additions by dot and, for every node, the greatest dot seen.
`getElem?_context_observe` and `getElem?_context_merge` say that the context is a maximum, and
`live_merge` that the merge of two live maps is the rule of an observed-remove join.
-/

set_option autoImplicit false
set_option relaxedAutoImplicit false

namespace DidCrdt

open Std (ExtTreeMap ExtTreeSet)
open LastWriter (LWWReg)

/-! ### Grow-only sets -/

/-- A grow-only set. -/
abbrev GSet (α : Type) [LinearOrder α] : Type := ExtTreeSet α compare

namespace GSet

variable {α : Type} [LinearOrder α]

/-- The elements in ascending order. -/
def entries (s : GSet α) : List α := s.toList

/-- Set union. -/
def merge (s t : GSet α) : GSet α := OrderedMaps.insertAll s (entries t)

@[simp] theorem mem_entries (s : GSet α) (a : α) : a ∈ entries s ↔ a ∈ s := by
  rw [entries, ExtTreeSet.mem_toList]

@[simp] theorem mem_merge (s t : GSet α) (a : α) : a ∈ merge s t ↔ a ∈ s ∨ a ∈ t := by
  rw [merge, OrderedMaps.mem_insertAll, mem_entries, or_comm]

end GSet

/-! ### Verification methods -/

/-- A verification method of the document. -/
structure VerificationMethodEntry where
  id : String
  publicKeyMultibase : String
  suiteType : SuiteType
  relationships : List VerificationRelationship
deriving DecidableEq, Repr

namespace VerificationMethodEntry

/-- The fields in the order in which entries are compared. -/
def key (e : VerificationMethodEntry) :
    String ×ₗ String ×ₗ SuiteType ×ₗ List VerificationRelationship :=
  toLex (e.id, toLex (e.publicKeyMultibase, toLex (e.suiteType, e.relationships)))

theorem key_injective : Function.Injective key := by
  rintro ⟨i, p, s, r⟩ ⟨i', p', s', r'⟩ h
  simp only [key, toLex_inj, Prod.mk.injEq] at h
  obtain ⟨rfl, rfl, rfl, rfl⟩ := h
  rfl

instance : LinearOrder VerificationMethodEntry := LinearOrder.lift' key key_injective

instance transOrd : Std.TransOrd VerificationMethodEntry := inferInstance

end VerificationMethodEntry

/-- The verification methods: whole entries, so that several may carry one id. -/
abbrev VerificationMethods : Type := GSet VerificationMethodEntry

namespace VerificationMethods

/-- Whether an entry has the id. -/
def containsId (s : VerificationMethods) (id : String) : Bool :=
  (GSet.entries s).any fun e ↦ e.id = id

/-- The least entry with the id. -/
def findId (s : VerificationMethods) (id : String) : Option VerificationMethodEntry :=
  (GSet.entries s).find? fun e ↦ e.id = id

theorem containsId_iff (s : VerificationMethods) (id : String) :
    containsId s id = true ↔ ∃ e ∈ s, e.id = id := by
  simp [containsId]

/-- The entry found is an entry with the id, and no entry with the id is less. -/
theorem findId_eq_some_iff (s : VerificationMethods) (id : String) (e : VerificationMethodEntry) :
    findId s id = some e ↔ e ∈ s ∧ e.id = id ∧ ∀ e' ∈ s, e'.id = id → e ≤ e' := by
  have hsorted : (GSet.entries s).Pairwise (· < ·) := by
    have hcmp := ExtTreeSet.ordered_toList (t := s)
    exact hcmp.imp fun h ↦ compare_lt_iff_lt.mp h
  rw [findId, List.find?_eq_some_iff_append]
  constructor
  · rintro ⟨hid, before, after, hsplit, hbefore⟩
    have hid' : e.id = id := by simpa using hid
    refine ⟨(GSet.mem_entries s e).mp (by rw [hsplit]; simp), hid', fun e' he' hid'' ↦ ?_⟩
    have hmem := (GSet.mem_entries s e').mpr he'
    rw [hsplit, List.mem_append, List.mem_cons] at hmem
    rw [hsplit] at hsorted
    rcases hmem with hmem | rfl | hmem
    · exact absurd hid'' (by simpa using hbefore e' hmem)
    · exact le_rfl
    · exact ((List.pairwise_cons.mp (List.pairwise_append.mp hsorted).2.1).1 e' hmem).le
  · rintro ⟨hmem, hid, hleast⟩
    obtain ⟨before, after, hsplit⟩ := List.append_of_mem ((GSet.mem_entries s e).mpr hmem)
    refine ⟨by simpa using hid, before, after, hsplit, fun e' he' ↦ ?_⟩
    rw [hsplit] at hsorted
    have hlt := (List.pairwise_append.mp hsorted).2.2 e' he' e List.mem_cons_self
    have hmem' : e' ∈ s := (GSet.mem_entries s e').mp (by rw [hsplit]; simp [he'])
    have hne : e'.id ≠ id := fun h ↦ absurd hlt (not_lt.mpr (hleast e' hmem' h))
    simpa using hne

theorem findId_eq_none_iff (s : VerificationMethods) (id : String) :
    findId s id = none ↔ ∀ e ∈ s, e.id ≠ id := by
  simp [findId]

end VerificationMethods

/-! ### Service endpoints -/

/-- A service endpoint. -/
structure ServiceEntry where
  id : String
  serviceType : String
  endpoint : String
deriving DecidableEq, Repr

/-- The tag of an addition: the timestamp of its delta. -/
abbrev Dot : Type := HlcTimestamp

/-- The live additions by dot, and the greatest dot seen of every node. -/
@[ext]
structure ServiceEndpoints where
  live : ExtTreeMap Dot ServiceEntry compare
  context : ExtTreeMap U64 Dot compare

namespace ServiceEndpoints

/-- The empty set. -/
def new : ServiceEndpoints := ⟨∅, ∅⟩

/-- The slot of a node after a dot of the node is seen. -/
def raise (dot : Dot) : Option Dot → Option Dot
  | none => some dot
  | some high => if high < dot then some dot else some high

/-- Records that a dot was seen. -/
def observe (s : ServiceEndpoints) (dot : Dot) : ServiceEndpoints :=
  { s with context := s.context.alter dot.nodeId (raise dot) }

/-- Whether a context has seen a dot. -/
def seen (context : ExtTreeMap U64 Dot compare) (dot : Dot) : Bool :=
  match context[dot.nodeId]? with
  | some high => dot ≤ high
  | none => false

/-- The addition of an entry under a dot. -/
def applyAdd (s : ServiceEndpoints) (entry : ServiceEntry) (dot : Dot) : ServiceEndpoints :=
  let s := s.observe dot
  { s with live := s.live.insert dot entry }

/-- The removal of the observed dots. -/
def applyRemove (s : ServiceEndpoints) (dots : List Dot) (witness : Dot) : ServiceEndpoints :=
  dots.foldl (fun s dot ↦
    let s := s.observe dot
    { s with live := s.live.erase dot }) (s.observe witness)

/-- Whether a live entry has the id. -/
def containsId (s : ServiceEndpoints) (id : String) : Bool :=
  (s.live.toList.map Prod.snd).any fun e ↦ e.id = id

/-- The live entries without repetition, sorted by id. -/
def entries (s : ServiceEndpoints) : List ServiceEntry :=
  let distinct := (s.live.toList.map Prod.snd).foldl
    (fun v e ↦ if e ∈ v then v else v ++ [e]) []
  distinct.insertionSort (fun a b ↦ a.id ≤ b.id)

/-- The dots of `kept` that are live on the other side too or that its context has not seen. -/
def survivors (kept other : ServiceEndpoints) (merged : ExtTreeMap Dot ServiceEntry compare) :
    ExtTreeMap Dot ServiceEntry compare :=
  kept.live.toList.foldl (fun m entry ↦
    if other.live.contains entry.1 || !seen other.context entry.1 then m.insert entry.1 entry.2
    else m) merged

/-- The join: the survivors of both sides, and the pointwise greatest context. -/
def merge (s other : ServiceEndpoints) : ServiceEndpoints where
  live := survivors other s (survivors s other ∅)
  context := OrderedMaps.absorb (fun _ dot ↦ raise dot) s.context other.context

/-! ### What the operations do to the entries -/

section Lookups

variable (s other : ServiceEndpoints) (dot d : Dot)

theorem seen_iff (context : ExtTreeMap U64 Dot compare) :
    seen context dot = true ↔ ∃ high, context[dot.nodeId]? = some high ∧ dot ≤ high := by
  unfold seen
  cases hslot : context[dot.nodeId]? with
  | none => simp
  | some high => simp

@[simp] theorem live_observe : (s.observe dot).live = s.live := rfl

theorem getElem?_context_observe (n : U64) :
    (s.observe dot).context[n]? =
      if dot.nodeId = n then raise dot s.context[n]? else s.context[n]? :=
  OrderedMaps.getElem?_alter s.context dot.nodeId n (raise dot)

theorem getElem?_live_applyAdd (entry : ServiceEntry) :
    (s.applyAdd entry dot).live[d]? = if dot = d then some entry else s.live[d]? :=
  OrderedMaps.getElem?_insert s.live dot d entry

@[simp] theorem context_applyAdd (entry : ServiceEntry) :
    (s.applyAdd entry dot).context = (s.observe dot).context := rfl

theorem getElem?_live_applyRemove (dots : List Dot) :
    (s.applyRemove dots dot).live[d]? = if d ∈ dots then none else s.live[d]? := by
  have hloop : ∀ (l : List Dot) (t : ServiceEndpoints),
      (l.foldl (fun s e ↦
        let s := s.observe e
        { s with live := s.live.erase e }) t).live[d]? = if d ∈ l then none else t.live[d]? := by
    intro l
    induction l with
    | nil => intro t; simp
    | cons e l ih =>
      intro t
      rw [List.foldl_cons, ih]
      change (if d ∈ l then none else (t.live.erase e)[d]?) = _
      rw [OrderedMaps.getElem?_erase]
      by_cases hl : d ∈ l
      · simp [hl]
      · by_cases he : e = d
        · simp [he]
        · simp [hl, he, Ne.symm he]
  exact hloop dots (s.observe dot)

/-- The survivors of a side, read pointwise. -/
theorem getElem?_survivors (merged : ExtTreeMap Dot ServiceEntry compare) :
    (survivors s other merged)[d]? =
      match s.live[d]? with
      | some entry =>
        if other.live.contains d || !seen other.context d then some entry else merged[d]?
      | none => merged[d]? := by
  have hdistinct : s.live.toList.Pairwise fun x y ↦ x.1 ≠ y.1 :=
    ExtTreeMap.distinct_keys_toList.imp fun hne heq ↦
      hne (Std.LawfulEqCmp.compare_eq_iff_eq.mpr heq)
  have hkept : ∀ (l : List (Dot × ServiceEntry)) (m : ExtTreeMap Dot ServiceEntry compare),
      l.Pairwise (fun x y ↦ x.1 ≠ y.1) →
      (l.foldl (fun m entry ↦
        if other.live.contains entry.1 || !seen other.context entry.1 then
          m.insert entry.1 entry.2 else m) m)[d]? =
      match l.find? (fun x ↦ x.1 = d) with
      | some entry =>
        if other.live.contains d || !seen other.context d then some entry.2 else m[d]?
      | none => m[d]? := by
    intro l
    induction l with
    | nil => intro m _; rfl
    | cons x l ih =>
      intro m hl
      obtain ⟨hhead, htail⟩ := List.pairwise_cons.mp hl
      rw [List.foldl_cons, ih _ htail]
      by_cases hx : x.1 = d
      · have hlater : l.find? (fun y ↦ y.1 = d) = none := by
          simp only [List.find?_eq_none, decide_eq_true_eq]
          exact fun y hy heq ↦ hhead y hy (hx.trans heq.symm)
        rw [hlater, List.find?_cons_of_pos (by simpa using hx)]
        simp only [hx]
        split_ifs with hcond
        · rw [OrderedMaps.getElem?_insert, if_pos rfl]
        · rfl
      · have hsame : (if other.live.contains x.1 || !seen other.context x.1 then
            m.insert x.1 x.2 else m)[d]? = m[d]? := by
          split_ifs with hcond
          · rw [OrderedMaps.getElem?_insert, if_neg hx]
          · rfl
        rw [List.find?_cons_of_neg (by simpa using hx), hsame]
  rw [survivors, hkept _ _ hdistinct]
  cases hlive : s.live[d]? with
  | none =>
    have hnone : s.live.toList.find? (fun x ↦ x.1 = d) = none := by
      simp only [List.find?_eq_none, decide_eq_true_eq]
      intro x hx heq
      have hfound := (OrderedMaps.mem_toList_iff s.live x.1 x.2).mp hx
      rw [heq, hlive] at hfound
      exact absurd hfound (by simp)
    rw [hnone]
  | some entry =>
    have hsome : s.live.toList.find? (fun x ↦ x.1 = d) = some (d, entry) := by
      have hex : (s.live.toList.find? (fun x ↦ x.1 = d)).isSome := by
        rw [List.find?_isSome]
        exact ⟨(d, entry), (OrderedMaps.mem_toList_iff s.live d entry).mpr hlive, by simp⟩
      obtain ⟨x, hx⟩ := Option.isSome_iff_exists.mp hex
      have hkey : x.1 = d := by simpa using List.find?_some hx
      have hmem := List.mem_of_find?_eq_some hx
      have hval := (OrderedMaps.mem_toList_iff s.live x.1 x.2).mp hmem
      rw [hkey, hlive, Option.some.injEq] at hval
      rw [hx, hval, ← hkey]
    rw [hsome]

/-- The merge of the live maps is the rule of an observed-remove join. -/
theorem live_merge :
    (s.merge other).live[d]? = ObservedRemove.survivor s.live[d]? (seen s.context d)
      other.live[d]? (seen other.context d) := by
  change (survivors other s (survivors s other ∅))[d]? = _
  rw [getElem?_survivors, getElem?_survivors]
  have hcontains : ∀ t : ServiceEndpoints, t.live.contains d = t.live[d]?.isSome :=
    fun t ↦ ExtTreeMap.contains_eq_isSome_getElem?
  rw [hcontains s, hcontains other]
  cases s.live[d]? <;> cases other.live[d]? <;> cases seen s.context d <;>
    cases seen other.context d <;> simp [ObservedRemove.survivor]

theorem getElem?_context_merge (n : U64) :
    (s.merge other).context[n]? =
      match other.context[n]? with
      | some dot => raise dot s.context[n]?
      | none => s.context[n]? := by
  change (OrderedMaps.absorb (fun _ dot ↦ raise dot) s.context other.context)[n]? = _
  rw [OrderedMaps.getElem?_absorb]
  cases other.context[n]? <;> rfl

end Lookups

/-! ### The context as a maximum -/

/-- The context holds, for every node, the greatest of the witnessed dots of the node. -/
structure Witnesses (witnessed : Set Dot) (context : ExtTreeMap U64 Dot compare) : Prop where
  upper : ∀ t ∈ witnessed, ∃ high, context[t.nodeId]? = some high ∧ t ≤ high
  source : ∀ n high, context[n]? = some high → high ∈ witnessed ∧ high.nodeId = n

namespace Witnesses

variable {witnessed witnessed' : Set Dot} {context context' : ExtTreeMap U64 Dot compare}

theorem nothing : Witnesses ∅ (∅ : ExtTreeMap U64 Dot compare) where
  upper t ht := absurd ht (Set.notMem_empty t)
  source n high h := by simp at h

theorem seen_iff (h : Witnesses witnessed context) (dot : Dot) :
    seen context dot = true ↔ ∃ t ∈ witnessed, t.nodeId = dot.nodeId ∧ dot ≤ t := by
  rw [ServiceEndpoints.seen_iff]
  constructor
  · rintro ⟨high, hslot, hle⟩
    obtain ⟨hmem, hnode⟩ := h.source _ _ hslot
    exact ⟨high, hmem, hnode, hle⟩
  · rintro ⟨t, ht, hnode, hle⟩
    obtain ⟨high, hslot, hhigh⟩ := h.upper t ht
    exact ⟨high, hnode ▸ hslot, hle.trans hhigh⟩

/-- The witnessed dots determine the context. -/
theorem unique (h : Witnesses witnessed context) (h' : Witnesses witnessed context') :
    context = context' := by
  have hle : ∀ {left right : ExtTreeMap U64 Dot compare}, Witnesses witnessed left →
      Witnesses witnessed right → ∀ (n : U64) (high : Dot), left[n]? = some high →
        ∃ high', right[n]? = some high' ∧ high ≤ high' := by
    intro left right hleft hright n high hslot
    obtain ⟨hmem, rfl⟩ := hleft.source n high hslot
    exact hright.upper high hmem
  refine ExtTreeMap.ext_getElem? fun {n} ↦ ?_
  cases hslot : context[n]? with
  | none =>
    cases hslot' : context'[n]? with
    | none => rfl
    | some high =>
      obtain ⟨high', hfound, _⟩ := hle h' h n high hslot'
      rw [hslot] at hfound
      exact absurd hfound (by simp)
  | some high =>
    obtain ⟨high', hslot', hup⟩ := hle h h' n high hslot
    obtain ⟨high'', hslot'', hdown⟩ := hle h' h n high' hslot'
    rw [hslot, Option.some.injEq] at hslot''
    rw [hslot', le_antisymm hup (hslot'' ▸ hdown)]

theorem raise_eq_some (dot : Dot) (slot : Option Dot) :
    ∃ high, raise dot slot = some high ∧ dot ≤ high ∧ (∀ t, slot = some t → t ≤ high) ∧
      (high = dot ∨ slot = some high) := by
  cases slot with
  | none => exact ⟨dot, rfl, le_rfl, fun t ht ↦ absurd ht (by simp), Or.inl rfl⟩
  | some high =>
    simp only [raise]
    split_ifs with hlt
    · refine ⟨dot, rfl, le_rfl, fun t ht ↦ ?_, Or.inl rfl⟩
      rw [← Option.some.inj ht]
      exact hlt.le
    · exact ⟨high, rfl, not_lt.mp hlt, fun t ht ↦ (Option.some.inj ht).ge, Or.inr rfl⟩

/-- One more dot. -/
theorem observe {s : ServiceEndpoints} (h : Witnesses witnessed s.context) (dot : Dot) :
    Witnesses (insert dot witnessed) (s.observe dot).context := by
  obtain ⟨top, hraise, hdot, hslot, hsource⟩ := raise_eq_some dot s.context[dot.nodeId]?
  constructor
  · intro t ht
    rw [getElem?_context_observe]
    by_cases hnode : dot.nodeId = t.nodeId
    · rw [if_pos hnode, ← hnode, hraise]
      refine ⟨top, rfl, ?_⟩
      rcases Set.mem_insert_iff.mp ht with rfl | ht
      · exact hdot
      · obtain ⟨high, hhigh, hle⟩ := h.upper t ht
        exact hle.trans (hslot high (hnode ▸ hhigh))
    · rw [if_neg hnode]
      have hne : t ≠ dot := fun heq ↦ hnode (heq ▸ rfl)
      exact h.upper t ((Set.mem_insert_iff.mp ht).resolve_left hne)
  · intro n high hn
    rw [getElem?_context_observe] at hn
    by_cases hnode : dot.nodeId = n
    · rw [if_pos hnode, ← hnode, hraise, Option.some.injEq] at hn
      subst hn
      rcases hsource with rfl | hold
      · exact ⟨Set.mem_insert _ _, hnode⟩
      · obtain ⟨hmem, hnode'⟩ := h.source _ _ hold
        exact ⟨Set.mem_insert_of_mem _ hmem, hnode'.trans hnode⟩
    · rw [if_neg hnode] at hn
      obtain ⟨hmem, hnode'⟩ := h.source n high hn
      exact ⟨Set.mem_insert_of_mem _ hmem, hnode'⟩

/-- Assumes: the removed dots were witnessed. A removal witnesses its own dot only. -/
theorem applyRemove {s : ServiceEndpoints} (h : Witnesses witnessed s.context) (dots : List Dot)
    (dot : Dot) (hdots : ∀ t ∈ dots, t ∈ witnessed) :
    Witnesses (insert dot witnessed) (s.applyRemove dots dot).context := by
  have hloop : ∀ (l : List Dot) (t : ServiceEndpoints) (w : Set Dot), (∀ d ∈ l, d ∈ w) →
      Witnesses w t.context → Witnesses w (l.foldl (fun s e ↦
        let s := s.observe e
        { s with live := s.live.erase e }) t).context := by
    intro l
    induction l with
    | nil => exact fun t w _ ht ↦ ht
    | cons e l ih =>
      intro t w hw ht
      refine ih _ w (fun d hd ↦ hw d (List.mem_cons_of_mem _ hd)) ?_
      have hstep := ht.observe e
      rwa [Set.insert_eq_of_mem (hw e List.mem_cons_self)] at hstep
  exact hloop dots (s.observe dot) _ (fun d hd ↦ Set.mem_insert_of_mem _ (hdots d hd))
    (h.observe dot)

/-- The dots of two sides. -/
theorem merge {s other : ServiceEndpoints} (h : Witnesses witnessed s.context)
    (h' : Witnesses witnessed' other.context) :
    Witnesses (witnessed ∪ witnessed') (s.merge other).context := by
  constructor
  · intro t ht
    rw [getElem?_context_merge]
    cases hother : other.context[t.nodeId]? with
    | none =>
      refine h.upper t (ht.resolve_right fun ht' ↦ ?_)
      obtain ⟨high, hhigh, _⟩ := h'.upper t ht'
      rw [hother] at hhigh
      exact absurd hhigh (by simp)
    | some dot =>
      obtain ⟨top, hraise, hdot, hslot, _⟩ := raise_eq_some dot s.context[t.nodeId]?
      refine ⟨top, hraise, ?_⟩
      rcases ht with ht | ht
      · obtain ⟨high, hhigh, hle⟩ := h.upper t ht
        exact hle.trans (hslot high hhigh)
      · obtain ⟨high, hhigh, hle⟩ := h'.upper t ht
        rw [hother, Option.some.injEq] at hhigh
        exact hle.trans (hhigh ▸ hdot)
  · intro n high hn
    rw [getElem?_context_merge] at hn
    cases hother : other.context[n]? with
    | none =>
      rw [hother] at hn
      obtain ⟨hmem, hnode⟩ := h.source n high hn
      exact ⟨Or.inl hmem, hnode⟩
    | some dot =>
      obtain ⟨hmem', hnode'⟩ := h'.source n dot hother
      obtain ⟨top, hraise, _, _, hsource⟩ := raise_eq_some dot s.context[n]?
      rw [hother] at hn
      simp only [hraise, Option.some.injEq] at hn
      subst hn
      rcases hsource with rfl | hold
      · exact ⟨Or.inr hmem', hnode'⟩
      · obtain ⟨hmem, hnode⟩ := h.source n top hold
        exact ⟨Or.inl hmem, hnode⟩

end Witnesses

end ServiceEndpoints

/-! ### Registers -/

/-- The document data: a register for every key. -/
abbrev DocumentData : Type := ExtTreeMap String (LWWReg Json HlcTimestamp) compare

namespace DocumentData

/-- The register of a key that was never written. -/
def initial : LWWReg Json HlcTimestamp := ⟨.null, .default⟩

/-- Writes a register that may not exist yet. -/
def write (value : Json) (timestamp : HlcTimestamp) (slot : Option (LWWReg Json HlcTimestamp)) :
    Option (LWWReg Json HlcTimestamp) :=
  some ((slot.getD initial).update value timestamp)

/-- Writes the register of a key. -/
def set (m : DocumentData) (key : String) (value : Json) (timestamp : HlcTimestamp) :
    DocumentData :=
  m.alter key (write value timestamp)

/-- The value of a key. -/
def get (m : DocumentData) (key : String) : Option Json := m[key]?.map LWWReg.val

/-- Writes every register of the other map. -/
def merge (m other : DocumentData) : DocumentData :=
  OrderedMaps.absorb (fun _ reg ↦ write reg.val reg.marker) m other

theorem getElem?_set (m : DocumentData) (key k : String) (value : Json)
    (timestamp : HlcTimestamp) :
    (m.set key value timestamp)[k]? = if key = k then write value timestamp m[k]? else m[k]? :=
  OrderedMaps.getElem?_alter m key k (write value timestamp)

theorem getElem?_merge (m other : DocumentData) (k : String) :
    (m.merge other)[k]? =
      match other[k]? with
      | some reg => write reg.val reg.marker m[k]?
      | none => m[k]? := by
  change (OrderedMaps.absorb (fun _ reg ↦ write reg.val reg.marker) m other)[k]? = _
  rw [OrderedMaps.getElem?_absorb]
  cases other[k]? <;> rfl

/-- The map has a register for exactly the keys written, and each holds the latest write. -/
structure Written (writes : String → Json → HlcTimestamp → Prop) (m : DocumentData) : Prop where
  absent : ∀ k, m[k]? = none → ∀ v t, ¬ writes k v t
  present : ∀ (k : String) (reg : LWWReg Json HlcTimestamp), m[k]? = some reg →
    (∃ v t, writes k v t) ∧ LastWriter.Latest initial (writes k) reg

namespace Written

variable {writes writes' writes'' : String → Json → HlcTimestamp → Prop} {m m' : DocumentData}

theorem nothing : Written (fun _ _ _ ↦ False) (∅ : DocumentData) where
  absent _ _ _ _ h := h
  present k reg h := by simp at h

theorem congr (h : Written writes m) (hiff : ∀ k v t, writes' k v t ↔ writes k v t) :
    Written writes' m := by
  have heq : writes' = writes := by
    funext k v t
    exact propext (hiff k v t)
  rwa [heq]

/-- Assumes: a timestamp other than zero determines the value written to a key. The writes determine
the map. -/
theorem unique (hfunctional : ∀ k v v' t, HlcTimestamp.default < t → writes k v t →
      writes k v' t → v = v')
    (h : Written writes m) (h' : Written writes m') : m = m' := by
  refine ExtTreeMap.ext_getElem? fun {k} ↦ ?_
  cases hslot : m[k]? with
  | none =>
    cases hslot' : m'[k]? with
    | none => rfl
    | some reg =>
      obtain ⟨v, t, hw⟩ := (h'.present k reg hslot').1
      exact absurd hw (h.absent k hslot v t)
  | some reg =>
    cases hslot' : m'[k]? with
    | none =>
      obtain ⟨v, t, hw⟩ := (h.present k reg hslot).1
      exact absurd hw (h'.absent k hslot' v t)
    | some reg' =>
      rw [LastWriter.Latest.unique (hfunctional k) (h.present k reg hslot).2
        (h'.present k reg' hslot').2]

/-- The register that a write to a key updates. -/
theorem slot (h : Written writes m) (k : String) :
    LastWriter.Latest initial (writes k) (m[k]?.getD initial) := by
  cases hslot : m[k]? with
  | none => exact .nothing (h.absent k hslot)
  | some reg => exact (h.present k reg hslot).2

/-- One more write. -/
theorem set (h : Written writes m) (key : String) (value : Json) (timestamp : HlcTimestamp)
    (hunion : ∀ k v t, writes' k v t ↔ writes k v t ∨ (key = k ∧ v = value ∧ t = timestamp)) :
    Written writes' (m.set key value timestamp) := by
  constructor
  · intro k hnone v t hw
    rw [getElem?_set] at hnone
    split_ifs at hnone with hkey
    · exact absurd hnone (by simp [write])
    · exact h.absent k hnone v t (((hunion k v t).mp hw).resolve_right fun hnew ↦ hkey hnew.1)
  · intro k reg hsome
    rw [getElem?_set] at hsome
    split_ifs at hsome with hkey
    · subst hkey
      refine ⟨⟨value, timestamp, (hunion _ _ _).mpr (Or.inr ⟨rfl, rfl, rfl⟩)⟩, ?_⟩
      rw [write, Option.some.injEq] at hsome
      subst hsome
      refine (h.slot key).update value timestamp fun v t ↦ ?_
      rw [hunion]
      simp
    · obtain ⟨⟨v, t, hw⟩, hlatest⟩ := h.present k reg hsome
      refine ⟨⟨v, t, (hunion k v t).mpr (Or.inl hw)⟩, hlatest.congr fun v t ↦ ?_⟩
      rw [hunion]
      simp [hkey]

/-- The writes of two maps. -/
theorem merge (h : Written writes m) (h' : Written writes' m')
    (hunion : ∀ k v t, writes'' k v t ↔ writes k v t ∨ writes' k v t) :
    Written writes'' (m.merge m') := by
  constructor
  · intro k hnone v t hw
    rw [getElem?_merge] at hnone
    cases hslot' : m'[k]? with
    | none =>
      rw [hslot'] at hnone
      rcases (hunion k v t).mp hw with hw | hw
      · exact h.absent k hnone v t hw
      · exact h'.absent k hslot' v t hw
    | some reg =>
      rw [hslot'] at hnone
      exact absurd hnone (by simp [write])
  · intro k reg hsome
    rw [getElem?_merge] at hsome
    cases hslot' : m'[k]? with
    | none =>
      rw [hslot'] at hsome
      obtain ⟨⟨v, t, hw⟩, hlatest⟩ := h.present k reg hsome
      refine ⟨⟨v, t, (hunion k v t).mpr (Or.inl hw)⟩, hlatest.congr fun v t ↦ ?_⟩
      rw [hunion]
      exact or_iff_left (h'.absent k hslot' v t)
    | some reg' =>
      rw [hslot'] at hsome
      obtain ⟨⟨v, t, hw⟩, hlatest'⟩ := h'.present k reg' hslot'
      refine ⟨⟨v, t, (hunion k v t).mpr (Or.inr hw)⟩, ?_⟩
      simp only [write, Option.some.injEq] at hsome
      subst hsome
      exact (h.slot k).merge hlatest' (hunion k)

end Written

end DocumentData

/-- The marker of a rotation: the sequence number, then the digest of the key reference. -/
structure ActiveKeyMarker where
  seq : U64
  keyHash : Blake3Hash
deriving DecidableEq

namespace ActiveKeyMarker

/-- The marker of a document that never rotated. -/
protected def default : ActiveKeyMarker := ⟨0, 0⟩

/-- The components in the order in which they are compared. -/
def key (m : ActiveKeyMarker) : U64 ×ₗ Blake3Hash := toLex (m.seq, m.keyHash)

theorem key_injective : Function.Injective key := by
  rintro ⟨s, h⟩ ⟨s', h'⟩ heq
  simp only [key, toLex_inj, Prod.mk.injEq] at heq
  obtain ⟨rfl, rfl⟩ := heq
  rfl

instance : LinearOrder ActiveKeyMarker := LinearOrder.lift' key key_injective

theorem default_le (m : ActiveKeyMarker) : ActiveKeyMarker.default ≤ m := by
  change key ActiveKeyMarker.default ≤ key m
  rw [key, key, Prod.Lex.toLex_le_toLex]
  rcases eq_or_lt_of_le (Fin.zero_le m.seq) with hseq | hseq
  · exact Or.inr ⟨hseq, Fin.zero_le _⟩
  · exact Or.inl hseq

variable [Primitives]

/-- The marker of a rotation to a key reference. -/
def new (seq : U64) (keyRef : String) : ActiveKeyMarker := ⟨seq, Primitives.keyDigest keyRef⟩

end ActiveKeyMarker

/-- The active key: the reference with the greatest marker. -/
abbrev ActiveKey : Type := LWWReg (Option String) ActiveKeyMarker

namespace ActiveKey

/-- No active key. -/
def new : ActiveKey := ⟨none, .default⟩

/-- The active key reference. -/
def current (k : ActiveKey) : Option String := k.val

/-- The sequence number of the active key. -/
def seq (k : ActiveKey) : U64 := k.marker.seq

/-- Rotates to a key reference. -/
def rotate [Primitives] (k : ActiveKey) (seq : U64) (keyRef : String) : ActiveKey :=
  k.update (some keyRef) (ActiveKeyMarker.new seq keyRef)

/-- The greater marker wins. -/
def merge (k other : ActiveKey) : ActiveKey := k.update other.val other.marker

end ActiveKey

/-- The alias set, written as a whole. -/
abbrev AlsoKnownAs : Type := LWWReg (List String) HlcTimestamp

namespace AlsoKnownAs

/-- No aliases. -/
def new : AlsoKnownAs := ⟨[], .default⟩

/-- Replaces the set, sorted and without repetition. -/
def set (a : AlsoKnownAs) (uris : List String) (timestamp : HlcTimestamp) : AlsoKnownAs :=
  a.update (OrderedMaps.sortDedup uris) timestamp

/-- The aliases. -/
def entries (a : AlsoKnownAs) : List String := a.val

/-- The later timestamp wins. -/
def merge (a other : AlsoKnownAs) : AlsoKnownAs := a.update other.val other.marker

end AlsoKnownAs

end DidCrdt
