import DidCrdt.Core.CanonicalJson
import Mathlib.Logic.Relation

/-!
# Canonical signing input

Two values are the same up to key order when one is reached from the other by exchanging neighbouring members
of objects, at any depth. A value without floats, whose objects have distinct keys, is written as a JSON text
that parses back to the value with its keys in ascending order. So the canonical text determines a value up to
key order, and an exchange does not change it. The signed bytes are the canonical text of the payload: they
determine the DID, the timestamp, the operation up to key order, and the parents.
-/

set_option autoImplicit false
set_option relaxedAutoImplicit false

namespace DidCrdt

open JsonText

namespace Json

/-! ### Values up to key order -/

/-- Two neighbouring members of an object, at any depth, are exchanged. -/
inductive Exchange : Json → Json → Prop
  | swap (before after : List (String × Json)) (m n : String × Json) :
    Exchange (.object (before ++ m :: n :: after)) (.object (before ++ n :: m :: after))
  | item (before after : List Json) {v w : Json} :
    Exchange v w → Exchange (.array (before ++ v :: after)) (.array (before ++ w :: after))
  | member (before after : List (String × Json)) (key : String) {v w : Json} :
    Exchange v w →
      Exchange (.object (before ++ (key, v) :: after)) (.object (before ++ (key, w) :: after))

/-- Equality of values up to the order of the keys of their objects. -/
def SameAs : Json → Json → Prop := Relation.ReflTransGen Exchange

/-- No floats, and no key twice in an object. -/
inductive Plain : Json → Prop
  | null : Plain .null
  | bool (b : Bool) : Plain (.bool b)
  | integer (n : ℤ) : Plain (.integer n)
  | string (s : String) : Plain (.string s)
  | array {items : List Json} : (∀ v ∈ items, Plain v) → Plain (.array items)
  | object {members : List (String × Json)} :
    (members.map Prod.fst).Nodup → (∀ m ∈ members, Plain m.2) → Plain (.object members)

/-- The keys of every object are strictly ascending. -/
inductive KeysAscending : Json → Prop
  | null : KeysAscending .null
  | bool (b : Bool) : KeysAscending (.bool b)
  | integer (n : ℤ) : KeysAscending (.integer n)
  | float (bits : U64) : KeysAscending (.float bits)
  | string (s : String) : KeysAscending (.string s)
  | array {items : List Json} : (∀ v ∈ items, KeysAscending v) → KeysAscending (.array items)
  | object {members : List (String × Json)} :
    (members.map Prod.fst).Pairwise (· < ·) → (∀ m ∈ members, KeysAscending m.2) →
      KeysAscending (.object members)

theorem Exchange.symm {v w : Json} (h : Exchange v w) : Exchange w v := by
  induction h with
  | swap before after m n => exact .swap before after n m
  | item before after _ ih => exact .item before after ih
  | member before after key _ ih => exact .member before after key ih

namespace SameAs

theorem refl (v : Json) : SameAs v v := Relation.ReflTransGen.refl

theorem trans {u v w : Json} (h : SameAs u v) (h' : SameAs v w) : SameAs u w :=
  Relation.ReflTransGen.trans h h'

theorem symm {v w : Json} (h : SameAs v w) : SameAs w v := by
  induction h with
  | refl => exact refl v
  | tail _ hstep ih => exact Relation.ReflTransGen.head hstep.symm ih

theorem item (before after : List Json) {v w : Json} (h : SameAs v w) :
    SameAs (.array (before ++ v :: after)) (.array (before ++ w :: after)) := by
  induction h with
  | refl => exact refl _
  | tail _ hstep ih => exact ih.tail (.item before after hstep)

theorem member (before after : List (String × Json)) (key : String) {v w : Json} (h : SameAs v w) :
    SameAs (.object (before ++ (key, v) :: after)) (.object (before ++ (key, w) :: after)) := by
  induction h with
  | refl => exact refl _
  | tail _ hstep ih => exact ih.tail (.member before after key hstep)

/-- Items may be replaced one by one. -/
theorem items {f : Json → Json} (before items : List Json) (h : ∀ v ∈ items, SameAs v (f v)) :
    SameAs (.array (before ++ items)) (.array (before ++ items.map f)) := by
  induction items generalizing before with
  | nil => exact refl _
  | cons v items ih =>
    have hfirst := item before items (h v List.mem_cons_self)
    have hrest := ih (before ++ [f v]) fun w hw ↦ h w (List.mem_cons_of_mem v hw)
    rw [List.append_assoc, List.append_assoc] at hrest
    exact hfirst.trans hrest

/-- The values of members may be replaced one by one. -/
theorem members {f : Json → Json} (before members : List (String × Json))
    (h : ∀ m ∈ members, SameAs m.2 (f m.2)) :
    SameAs (.object (before ++ members)) (.object (before ++ members.map fun m ↦ (m.1, f m.2))) := by
  induction members generalizing before with
  | nil => exact refl _
  | cons m members ih =>
    have hfirst := member before members m.1 (h m List.mem_cons_self)
    have hrest := ih (before ++ [(m.1, f m.2)]) fun n hn ↦ h n (List.mem_cons_of_mem m hn)
    rw [List.append_assoc, List.append_assoc] at hrest
    exact hfirst.trans hrest

/-- Members may be permuted. -/
theorem of_perm {members members' : List (String × Json)} (h : members.Perm members')
    (before : List (String × Json)) :
    SameAs (.object (before ++ members)) (.object (before ++ members')) := by
  induction h generalizing before with
  | nil => exact refl _
  | cons m _ ih => simpa using ih (before ++ [m])
  | swap m n members => exact Relation.ReflTransGen.single (.swap before members n m)
  | trans _ _ ih ih' => exact (ih before).trans (ih' before)

end SameAs

/-! ### One exchange -/

theorem Plain.of_exchange {v w : Json} (hv : Plain v) (h : Exchange v w) : Plain w := by
  induction h with
  | swap before after m n =>
    cases hv with
    | object hkeys hmembers =>
      have hperm : (before ++ m :: n :: after).Perm (before ++ n :: m :: after) :=
        (List.Perm.swap n m after).append_left before
      exact .object ((hperm.map Prod.fst).nodup_iff.mp hkeys)
        fun x hx ↦ hmembers x (hperm.mem_iff.mpr hx)
  | item before after _ ih =>
    cases hv with
    | array hitems =>
      simp only [List.mem_append, List.mem_cons] at hitems
      refine .array fun x hx ↦ ?_
      simp only [List.mem_append, List.mem_cons] at hx
      rcases hx with hbefore | rfl | hafter
      · exact hitems x (.inl hbefore)
      · exact ih (hitems _ (.inr (.inl rfl)))
      · exact hitems x (.inr (.inr hafter))
  | member before after key _ ih =>
    cases hv with
    | object hkeys hmembers =>
      simp only [List.mem_append, List.mem_cons] at hmembers
      refine .object (by simpa using hkeys) fun x hx ↦ ?_
      simp only [List.mem_append, List.mem_cons] at hx
      rcases hx with hbefore | rfl | hafter
      · exact hmembers x (.inl hbefore)
      · exact ih (hmembers _ (.inr (.inl rfl)))
      · exact hmembers x (.inr (.inr hafter))

end Json

/-! ### Sorting -/

/-- Members with distinct keys have one order by key. -/
theorem insertionSort_byKey_eq {α : Type} {members members' : List (String × α)}
    (hperm : members.Perm members') (hkeys : (members.map Prod.fst).Nodup) :
    members.insertionSort byKey = members'.insertionSort byKey := by
  have hsorted := (List.perm_insertionSort byKey members).trans
    (hperm.trans (List.perm_insertionSort byKey members').symm)
  refine hsorted.eq_of_pairwise ?_ (List.pairwise_insertionSort byKey members)
    (List.pairwise_insertionSort byKey members')
  intro m n hm hn hmn hnm
  rw [List.mem_insertionSort] at hm hn
  have hkey : m.1 = n.1 := le_antisymm hmn hnm
  exact List.inj_on_of_nodup_map hkeys hm (hperm.mem_iff.mpr hn) hkey

/-- An exchange does not change the canonical text. -/
theorem canonicalText_exchange (floatText : U64 → List Char) {v w : Json} (hv : v.Plain)
    (h : Json.Exchange v w) : canonicalText floatText v = canonicalText floatText w := by
  induction h with
  | swap before after m n =>
    cases hv with
    | object hkeys _ =>
      have hperm : (before ++ m :: n :: after).Perm (before ++ n :: m :: after) :=
        (List.Perm.swap n m after).append_left before
      rw [canonicalText_object, canonicalText_object, insertionSort_byKey_eq hperm hkeys]
  | item before after _ ih =>
    cases hv with
    | array hitems =>
      rw [canonicalText_array, canonicalText_array, List.map_append, List.map_append, List.map_cons,
        List.map_cons, ih (hitems _ (by simp))]
  | member before after key _ ih =>
    cases hv with
    | object _ hmembers =>
      have htext := ih (hmembers (key, _) (by simp))
      simp only [canonicalText, memberTexts_eq_map, List.map_append, List.map_cons, htext]

namespace Json

mutual

/-- A value with the members of its objects sorted by key. -/
def sortKeys : Json → Json
  | .array items => .array (sortItems items)
  | .object members => .object ((sortMembers members).insertionSort byKey)
  | v => v

def sortItems : List Json → List Json
  | [] => []
  | v :: items => sortKeys v :: sortItems items

def sortMembers : List (String × Json) → List (String × Json)
  | [] => []
  | (k, v) :: members => (k, sortKeys v) :: sortMembers members

end

theorem sortKeys_array (items : List Json) : sortKeys (.array items) = .array (items.map sortKeys) := by
  have hitems : ∀ l, sortItems l = l.map sortKeys := by
    intro l
    induction l with
    | nil => rfl
    | cons v items ih => rw [sortItems, ih, List.map_cons]
  rw [sortKeys, hitems]

theorem sortKeys_object (members : List (String × Json)) :
    sortKeys (.object members) =
      .object ((members.insertionSort byKey).map fun m ↦ (m.1, sortKeys m.2)) := by
  have hmembers : ∀ l, sortMembers l = l.map fun m ↦ (m.1, sortKeys m.2) := by
    intro l
    induction l with
    | nil => rfl
    | cons m members ih => rw [sortMembers, ih, List.map_cons]
  rw [sortKeys, hmembers, map_insertionSort_byKey]

/-- Sorting keys exchanges members only. -/
theorem sameAs_sortKeys {v : Json} (h : v.Plain) : SameAs v (sortKeys v) := by
  induction h with
  | null => exact .refl _
  | bool b => exact .refl _
  | integer n => exact .refl _
  | string s => exact .refl _
  | array _ ih =>
    rw [sortKeys_array]
    exact SameAs.items [] _ ih
  | @object members _ _ ih =>
    rw [sortKeys_object]
    have hsort : SameAs (.object members) (.object (members.insertionSort byKey)) :=
      SameAs.of_perm (List.perm_insertionSort byKey members).symm []
    have hvalues := SameAs.members (f := sortKeys) [] (members.insertionSort byKey)
      fun m hm ↦ ih m ((List.mem_insertionSort byKey).mp hm)
    exact hsort.trans hvalues

theorem keysAscending_sortKeys {v : Json} (h : v.Plain) : KeysAscending (sortKeys v) := by
  induction h with
  | null => exact .null
  | bool b => exact .bool b
  | integer n => exact .integer n
  | string s => exact .string s
  | array _ ih =>
    rw [sortKeys_array]
    refine .array fun w hw ↦ ?_
    obtain ⟨v, hv, rfl⟩ := List.mem_map.mp hw
    exact ih v hv
  | @object members hkeys _ ih =>
    rw [sortKeys_object]
    have hnodup : ((members.insertionSort byKey).map Prod.fst).Nodup :=
      ((List.perm_insertionSort byKey members).map Prod.fst).nodup_iff.mpr hkeys
    have hsorted : ((members.insertionSort byKey).map Prod.fst).Pairwise (· ≤ ·) :=
      List.pairwise_map.mpr (List.pairwise_insertionSort byKey members)
    refine .object ?_ fun n hn ↦ ?_
    · rw [List.map_map]
      exact (hsorted.and hnodup).imp fun h ↦ lt_of_le_of_ne h.1 h.2
    · obtain ⟨m, hm, rfl⟩ := List.mem_map.mp hn
      exact ih m ((List.mem_insertionSort byKey).mp hm)

end Json

/-- A canonical text stands for the value with its keys sorted. -/
theorem readable_canonicalText (floatText : U64 → List Char) {v : Json} (h : v.Plain) :
    Readable Json.builder (canonicalText floatText v) v.sortKeys := by
  induction h with
  | null => exact readable_null
  | bool b =>
    cases b with
    | false => exact readable_false
    | true => exact readable_true
  | integer n => exact readable_integer n
  | string s => exact readable_string s
  | array _ ih =>
    rw [canonicalText_array, Json.sortKeys_array]
    exact readable_array _ ih
  | @object members _ _ ih =>
    rw [canonicalText_object, Json.sortKeys_object]
    exact readable_object _ Prod.fst fun m hm ↦ ih m ((List.mem_insertionSort byKey).mp hm)

theorem parse_canonicalJson (floatText : U64 → List Char) {v : Json} (h : v.Plain) :
    parse Json.builder (canonicalJson floatText v).toList = some v.sortKeys := by
  rw [canonicalJson, String.toList_ofList]
  exact parse_of_readable (readable_canonicalText floatText h)

theorem Json.SameAs.canonicalJson_eq (floatText : U64 → List Char) {v w : Json} (hv : v.Plain)
    (h : v.SameAs w) : canonicalJson floatText v = canonicalJson floatText w ∧ w.Plain := by
  induction h with
  | refl => exact ⟨rfl, hv⟩
  | tail _ hstep ih =>
    obtain ⟨htext, hplain⟩ := ih
    refine ⟨htext.trans ?_, hplain.of_exchange hstep⟩
    rw [canonicalJson, canonicalJson, canonicalText_exchange floatText hplain hstep]

/-- Canonical texts are equal exactly for values that are the same up to key order. -/
theorem canonicalJson_eq_iff (floatText : U64 → List Char) {v w : Json} (hv : v.Plain) (hw : w.Plain) :
    canonicalJson floatText v = canonicalJson floatText w ↔ v.SameAs w := by
  refine ⟨fun h ↦ ?_, fun h ↦ (h.canonicalJson_eq floatText hv).1⟩
  have hparse := parse_canonicalJson floatText hv
  rw [h, parse_canonicalJson floatText hw, Option.some.injEq] at hparse
  have hsame := Json.sameAs_sortKeys hv
  rw [← hparse] at hsame
  exact hsame.trans (Json.sameAs_sortKeys hw).symm

/-! ### Fields -/

namespace Json

/-- The members of an object. -/
def members : Json → List (String × Json)
  | .object members => members
  | _ => []

/-- A value in which nothing can be exchanged. -/
def Rigid (v : Json) : Prop := ∀ w, ¬Exchange v w

theorem rigid_string (s : String) : Rigid (.string s) := by
  rintro w ⟨⟩

theorem rigid_integer (n : ℤ) : Rigid (.integer n) := by
  rintro w ⟨⟩

theorem strings_injective : Function.Injective strings := by
  intro texts texts' h
  rw [strings, strings, array.injEq] at h
  exact (List.map_injective_iff.mpr fun s t hst ↦ string.inj hst) h

theorem rigid_strings (texts : List String) : Rigid (strings texts) := by
  intro w h
  generalize hv : strings texts = v at h
  cases h with
  | swap => cases hv
  | member => cases hv
  | @item before after v w hexchange =>
    rw [strings, array.injEq] at hv
    have hmem : v ∈ texts.map string := by simp [hv]
    obtain ⟨s, -, rfl⟩ := List.mem_map.mp hmem
    exact rigid_string s w hexchange

theorem plain_strings (texts : List String) : Plain (strings texts) := by
  refine .array fun v hv ↦ ?_
  obtain ⟨s, -, rfl⟩ := List.mem_map.mp hv
  exact .string s

theorem SameAs.eq_of_rigid {v w : Json} (h : SameAs v w) (hv : Rigid v) : v = w := by
  rcases Relation.ReflTransGen.cases_head h with heq | ⟨u, hstep, -⟩
  · exact heq
  · exact absurd hstep (hv u)

theorem Exchange.mem_members {v w : Json} (h : Exchange v w) {key : String} {a : Json}
    (ha : (key, a) ∈ v.members) : ∃ b, (key, b) ∈ w.members ∧ SameAs a b := by
  cases h with
  | swap before after m n =>
    have hperm : (before ++ m :: n :: after).Perm (before ++ n :: m :: after) :=
      (List.Perm.swap n m after).append_left before
    exact ⟨a, hperm.mem_iff.mp ha, .refl a⟩
  | item => cases ha
  | @member before after k v w hexchange =>
    simp only [members, List.mem_append, List.mem_cons, Prod.mk.injEq] at ha ⊢
    rcases ha with hbefore | ⟨rfl, rfl⟩ | hafter
    · exact ⟨a, .inl hbefore, .refl a⟩
    · exact ⟨w, .inr (.inl ⟨rfl, rfl⟩), .single hexchange⟩
    · exact ⟨a, .inr (.inr hafter), .refl a⟩

/-- Values that are the same up to key order have the same members up to key order. -/
theorem SameAs.mem_members {v w : Json} (h : SameAs v w) {key : String} {a : Json}
    (ha : (key, a) ∈ v.members) : ∃ b, (key, b) ∈ w.members ∧ SameAs a b := by
  induction h with
  | refl => exact ⟨a, ha, .refl a⟩
  | tail _ hstep ih =>
    obtain ⟨b, hb, hsame⟩ := ih
    obtain ⟨c, hc, hlast⟩ := hstep.mem_members hb
    exact ⟨c, hc, hsame.trans hlast⟩

/-- Objects that list the same distinct keys agree value by value. -/
theorem SameAs.forall₂ {ms ns : List (String × Json)} (h : SameAs (.object ms) (.object ns))
    (hkeys : ms.map Prod.fst = ns.map Prod.fst) (hnodup : (ns.map Prod.fst).Nodup) :
    List.Forall₂ (fun m n ↦ SameAs m.2 n.2) ms ns := by
  have haligned : List.Forall₂ (fun m n : String × Json ↦ m.1 = n.1) ms ns := by
    have hequal : List.Forall₂ (· = ·) (ms.map Prod.fst) (ns.map Prod.fst) := by
      rw [hkeys, List.forall₂_eq_eq_eq]
    simpa [List.forall₂_map_left_iff, List.forall₂_map_right_iff] using hequal
  obtain ⟨hlength, haligned⟩ := List.forall₂_iff_zip.mp haligned
  refine List.forall₂_iff_zip.mpr ⟨hlength, fun {m n} hmn ↦ ?_⟩
  have hkey : m.1 = n.1 := haligned hmn
  obtain ⟨hm, hn⟩ := List.of_mem_zip hmn
  obtain ⟨b, hb, hsame⟩ := h.mem_members hm
  have heq : (m.1, b) = n := List.inj_on_of_nodup_map hnodup hb hn hkey
  rw [← heq]
  exact hsame

@[simp] theorem sameAs_string_iff {s t : String} : SameAs (.string s) (.string t) ↔ s = t := by
  refine ⟨fun h ↦ string.inj (h.eq_of_rigid (rigid_string s)), ?_⟩
  rintro rfl
  exact .refl _

@[simp] theorem sameAs_integer_iff {m n : ℤ} : SameAs (.integer m) (.integer n) ↔ m = n := by
  refine ⟨fun h ↦ integer.inj (h.eq_of_rigid (rigid_integer m)), ?_⟩
  rintro rfl
  exact .refl _

@[simp] theorem sameAs_strings_iff {texts texts' : List String} :
    SameAs (strings texts) (strings texts') ↔ texts = texts' := by
  refine ⟨fun h ↦ strings_injective (h.eq_of_rigid (rigid_strings texts)), ?_⟩
  rintro rfl
  exact .refl _

end Json

/-! ### Payloads -/

theorem SuiteType.serialised_injective : Function.Injective SuiteType.serialised := by
  intro s t h
  cases s <;> cases t <;> first | rfl | exact absurd h (by decide)

theorem VerificationRelationship.serialised_injective :
    Function.Injective VerificationRelationship.serialised := by
  intro r r' h
  cases r <;> cases r' <;> first | rfl | exact absurd h (by decide)

namespace DeltaOp

/-- Equality of operations up to the order of the keys in document data. -/
def SameAs : DeltaOp → DeltaOp → Prop
  | setDocumentData key value, setDocumentData key' value' => key = key' ∧ value.SameAs value'
  | op, op' => op = op'

/-- The document data has no floats and no key twice in an object. -/
def Plain : DeltaOp → Prop
  | setDocumentData _ value => value.Plain
  | _ => True

theorem plain_toJson {op : DeltaOp} (h : op.Plain) : op.toJson.Plain := by
  cases op with
  | setDocumentData key value =>
    refine .object (by simp [fields]) ?_
    simpa [fields] using ⟨.string _, .string _, h⟩
  | _ =>
    refine .object (by simp [fields]) ?_
    simp [fields, Json.plain_strings, Json.Plain.string, Json.Plain.integer]

theorem SameAs.toJson {op op' : DeltaOp} (h : op.SameAs op') : op.toJson.SameAs op'.toJson := by
  unfold SameAs at h
  split at h
  · obtain ⟨rfl, hsame⟩ := h
    exact .member [("type", .string "set_document_data"), ("key", .string _)] [] "value" hsame
  · rw [h]
    exact .refl _

theorem tag_eq_of_sameAs {op op' : DeltaOp} (h : op.toJson.SameAs op'.toJson) : op.tag = op'.tag := by
  have hfields : ∀ a, ("type", a) ∉ op'.fields := by
    intro a
    cases op' <;> simp [fields]
  obtain ⟨b, hb, hsame⟩ := h.mem_members (List.mem_cons_self (a := ("type", Json.string op.tag)))
  rcases List.mem_cons.mp hb with heq | hmem
  · obtain ⟨-, rfl⟩ := Prod.mk.inj heq
    exact Json.sameAs_string_iff.mp hsame
  · exact absurd hmem (hfields b)

theorem keys_eq_of_tag_eq {op op' : DeltaOp} (h : op.tag = op'.tag) :
    op.fields.map Prod.fst = op'.fields.map Prod.fst := by
  cases op <;> cases op' <;> first | rfl | simp [tag] at h

theorem nodup_keys (op : DeltaOp) : ((("type", Json.string op.tag) :: op.fields).map Prod.fst).Nodup := by
  cases op <;> simp [fields]

/-- The encoding determines an operation up to key order. -/
theorem sameAs_of_toJson {op op' : DeltaOp} (h : op.toJson.SameAs op'.toJson) : op.SameAs op' := by
  have htag := tag_eq_of_sameAs h
  have hkeys : (("type", Json.string op.tag) :: op.fields).map Prod.fst =
      (("type", Json.string op'.tag) :: op'.fields).map Prod.fst := by
    rw [List.map_cons, List.map_cons, keys_eq_of_tag_eq htag]
  obtain ⟨-, hfields⟩ := List.forall₂_cons.mp (h.forall₂ hkeys (nodup_keys op'))
  have hrelationships := List.map_injective_iff.mpr VerificationRelationship.serialised_injective
  -- operations with one tag are of one kind, and their fields agree one by one
  cases op <;> cases op' <;> simp [tag] at htag <;>
    simp_all [fields, SameAs, SuiteType.serialised_injective.eq_iff, hrelationships.eq_iff, Fin.ext_iff]

end DeltaOp

/-- The same DID, timestamp and parents, and the same operation up to key order. -/
def SignedDelta.SamePayload (d e : SignedDelta) : Prop :=
  d.did = e.did ∧ d.timestamp = e.timestamp ∧ d.op.SameAs e.op ∧ d.parents = e.parents

theorem HlcTimestamp.eq_of_toJson {t t' : HlcTimestamp} (h : t.toJson.SameAs t'.toJson) : t = t' := by
  obtain ⟨wall, logical, node⟩ := t
  obtain ⟨wall', logical', node'⟩ := t'
  have hfields := h.forall₂ rfl (by simp)
  simpa [Fin.ext_iff] using hfields

theorem HlcTimestamp.plain_toJson (t : HlcTimestamp) : t.toJson.Plain :=
  .object (by simp) (by simp [Json.Plain.integer])

theorem SigningPayload.plain_toJson {p : SigningPayload} (h : p.op.Plain) : p.toJson.Plain := by
  refine .object (by simp) ?_
  simp [Json.plain_strings, Json.Plain.string, DeltaOp.plain_toJson h, HlcTimestamp.plain_toJson]

/-- The encodings of payloads are the same up to key order exactly when the payloads are. -/
theorem SignedDelta.sameAs_toJson_iff (d e : SignedDelta) :
    d.signingInput.toJson.SameAs e.signingInput.toJson ↔ d.SamePayload e := by
  constructor
  · intro h
    have hfields := h.forall₂ rfl (by simp)
    simp only [List.forall₂_cons, Json.sameAs_string_iff, Json.sameAs_strings_iff] at hfields
    obtain ⟨hdid, hop, hparents, htimestamp, -⟩ := hfields
    exact ⟨Did.toString_injective hdid, HlcTimestamp.eq_of_toJson htimestamp,
      DeltaOp.sameAs_of_toJson hop, List.map_injective_iff.mpr DeltaHash.toString_injective hparents⟩
  · rintro ⟨hdid, htimestamp, hop, hparents⟩
    rw [SignedDelta.signingInput, SignedDelta.signingInput, hdid, htimestamp, hparents]
    exact .member [("did", _)] [("parents", _), ("timestamp", _)] "op" hop.toJson

/-- Canonical texts parse back with ascending keys and determine their values up to key order; the signed
bytes determine the DID, the timestamp, the operation up to key order, and the parents. -/
theorem signingInput_faithful (floatText : U64 → List Char) :
    (∀ v : Json, v.Plain →
      (∃ u, parse Json.builder (canonicalJson floatText v).toList = some u ∧ u.SameAs v ∧
        u.KeysAscending) ∧
      ∀ w, v.SameAs w → canonicalJson floatText v = canonicalJson floatText w) ∧
    ∀ d e : SignedDelta, d.op.Plain → e.op.Plain →
      (d.signingInputBytes floatText = e.signingInputBytes floatText ↔
        d.did = e.did ∧ d.timestamp = e.timestamp ∧ d.op.SameAs e.op ∧ d.parents = e.parents) := by
  refine ⟨fun v hv ↦ ⟨⟨v.sortKeys, parse_canonicalJson floatText hv, ?_, ?_⟩, fun w h ↦ ?_⟩,
    fun d e hd he ↦ ?_⟩
  · exact (Json.sameAs_sortKeys hv).symm
  · exact Json.keysAscending_sortKeys hv
  · exact (h.canonicalJson_eq floatText hv).1
  · rw [SignedDelta.signingInputBytes, SignedDelta.signingInputBytes, String.toUTF8_eq_toByteArray,
      String.toUTF8_eq_toByteArray, String.toByteArray_inj,
      canonicalJson_eq_iff floatText (SigningPayload.plain_toJson hd) (SigningPayload.plain_toJson he)]
    exact d.sameAs_toJson_iff e

section Readable

/-- A value with two members, in either order. -/
def profile (swapped : Bool) : Json :=
  .object (if swapped then [("tags", .array [.null]), ("age", .integer (-7))]
    else [("age", .integer (-7)), ("tags", .array [.null])])

theorem plain_profile (swapped : Bool) : (profile swapped).Plain := by
  have htags : Json.Plain (.array [.null]) := .array (by simp [Json.Plain.null])
  cases swapped <;> exact .object (by simp) (by simp [htags, Json.Plain.integer])

/-- Two orders of the keys of a value have one signed text, and another key another one. -/
theorem signingInput_faithful_profile :
    canonicalJson (fun _ ↦ []) (profile true) = canonicalJson (fun _ ↦ []) (profile false) ∧
      (canonicalJson (fun _ ↦ []) (profile true)).toList =
        "\x7b\"age\":-7,\"tags\":[null]\x7d".toList ∧
      (SignedDelta.readable "d" "k" "s" 1 1 (.setDocumentData "p" (profile true)) []).signingInputBytes
          (fun _ ↦ []) ≠
        (SignedDelta.readable "d" "k" "s" 1 1 (.setDocumentData "q" (profile true)) []).signingInputBytes
          (fun _ ↦ []) := by
  obtain ⟨htext, hbytes⟩ := signingInput_faithful fun _ ↦ []
  refine ⟨(htext _ (plain_profile true)).2 _ ?_, by decide, fun h ↦ ?_⟩
  · exact .single (.swap [] [] _ _)
  · have hplain (key : String) : (DeltaOp.setDocumentData key (profile true)).Plain := plain_profile true
    obtain ⟨-, -, hop, -⟩ := (hbytes _ _ (hplain "p") (hplain "q")).mp h
    exact absurd hop.1 (by decide)

end Readable

end DidCrdt
